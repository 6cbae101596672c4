import CubeSchema.Compilation
import CubeSchema.Proofs.Grammar.Limits
import CubeSchema.Proofs.Symbols.Registration

/-!
# What a compilation is made of

A project compiles exactly if each of its files can be read and all manifests can be loaded. The
table is then what registering the declarations of all manifests and of all files gives, in that
order, and every output is made of one file by the complete table.
-/

namespace CubeSchema

namespace Compilation

open SymbolTable

/-! ## Reading the files -/

/-- What a file reads as, with the limit on repetitions. -/
def reading (f : SchemaFile) : Except ParseError Node :=
  CubeSchema.parse f.path f.source (some Grammar.maxRounds)

theorem parse_of_reading {f : SchemaFile} {n : Node} (h : reading f = .ok n) :
    CubeSchema.parse f.path f.source = .ok n :=
  parse_unlimited Grammar.isAhead_maxRounds h

theorem parseAll_cons_ok {f : SchemaFile} {n : Node} (h : reading f = .ok n)
    (files : List SchemaFile) : parseAll (f :: files) = (parseAll files).map (n :: ·) := by
  have hparse : CubeSchema.parse f.path f.source (some Grammar.maxRounds) = .ok n := h
  simp only [parseAll, List.map_cons, hparse, List.filterMap_cons]
  split <;> rfl

theorem parseAll_cons_error {f : SchemaFile} {e : ParseError} (h : reading f = .error e)
    (files : List SchemaFile) : ∃ errors, parseAll (f :: files) = .error errors := by
  have hparse : CubeSchema.parse f.path f.source (some Grammar.maxRounds) = .error e := h
  simp [parseAll, hparse]

/-- Files can be read together exactly if each of them can. -/
theorem parseAll_eq_ok {files : List SchemaFile} {nodes : List Node} :
    parseAll files = .ok nodes ↔ files.map reading = nodes.map .ok := by
  induction files generalizing nodes with
  | nil => simp [parseAll, eq_comm]
  | cons f files ih =>
    rw [List.map_cons]
    cases hf : reading f with
    | error e =>
      obtain ⟨errors, herrors⟩ := parseAll_cons_error hf files
      rw [herrors]
      cases nodes <;> simp
    | ok n =>
      rw [parseAll_cons_ok hf]
      cases nodes with
      | nil => cases parseAll files <;> simp [Except.map]
      | cons m nodes =>
        rw [List.map_cons, List.cons.injEq, ← ih]
        cases parseAll files <;> simp [Except.map]

/-- The files with what they read as. -/
theorem mem_zip_iff_reading {files : List SchemaFile} {nodes : List Node}
    (h : files.map reading = nodes.map .ok) {f : SchemaFile} {n : Node} :
    (f, n) ∈ files.zip nodes ↔ f ∈ files ∧ reading f = .ok n := by
  induction files generalizing nodes with
  | nil => simp
  | cons g files ih =>
    cases nodes with
    | nil => simp at h
    | cons m nodes =>
      rw [List.map_cons, List.map_cons, List.cons.injEq] at h
      rw [List.zip_cons_cons, List.mem_cons, List.mem_cons, ih h.2, Prod.mk.injEq]
      constructor
      · rintro (⟨rfl, rfl⟩ | ⟨hf, hn⟩)
        · exact ⟨.inl rfl, h.1⟩
        · exact ⟨.inr hf, hn⟩
      · rintro ⟨rfl | hf, hn⟩
        · exact .inl ⟨rfl, Except.ok.inj (hn.symm.trans h.1)⟩
        · exact .inr ⟨hf, hn⟩

/-- A project compiles exactly if its files can be read and its manifests be loaded, and the work
has not been called off. -/
theorem compile_eq_ok {t : FileTree} {cwd : Text} {o : CompileOptions} {files : List SchemaFile}
    {c : Compilation} : compile t cwd o files = .ok c ↔
      (o.cancelled = true → files = []) ∧ ∃ nodes manifests, files.map reading = nodes.map .ok ∧
        loadManifests t cwd o.manifests = (manifests, none) ∧
        c = link manifests (files.zip nodes) := by
  unfold compile
  by_cases hcancelled : (o.cancelled && !files.isEmpty) = true
  · rw [if_pos hcancelled]
    simp_all
  · rw [if_neg hcancelled]
    have hproceed : o.cancelled = true → files = [] := by simpa using hcancelled
    cases hparse : parseAll files with
    | error errors =>
      simp only [reduceCtorEq, false_iff, not_and, not_exists]
      intro _ nodes manifests hread
      rw [parseAll_eq_ok.2 hread] at hparse
      cases hparse
    | ok nodes =>
      have hread := parseAll_eq_ok.1 hparse
      have hunique : ∀ {ns : List Node}, files.map reading = ns.map .ok → ns = nodes := by
        intro ns hns
        rw [← parseAll_eq_ok, hparse] at hns
        exact (Except.ok.inj hns).symm
      -- Manifests are loaded only once all files have been read.
      rcases loadManifests t cwd o.manifests with ⟨manifests, _ | e⟩
      · constructor
        · intro h
          exact ⟨hproceed, nodes, manifests, hread, rfl, (Except.ok.inj h).symm⟩
        · rintro ⟨-, ns, ms, hns, hms, rfl⟩
          obtain rfl := hunique hns
          obtain ⟨rfl, -⟩ := Prod.mk.inj hms
          rfl
      · simp

/-! ## Loading the manifests -/

/-- The manifests that are loaded are those of the given names, in order. -/
theorem loadManifests_eq {t : FileTree} {cwd : Text} {paths : List Text}
    {manifests : List (Text × Manifest)} (h : loadManifests t cwd paths = (manifests, none)) :
    paths.map (fun p => (p, Manifest.load t cwd p)) = manifests.map fun m => (m.1, .ok m.2) := by
  induction paths generalizing manifests with
  | nil =>
    obtain rfl : manifests = [] := by simpa [loadManifests] using h.symm
    rfl
  | cons p paths ih =>
    rw [loadManifests] at h
    cases hp : Manifest.load t cwd p with
    | error e => simp [hp] at h
    | ok m =>
      simp only [hp, Prod.mk.injEq] at h
      obtain ⟨rfl, hnone⟩ := h
      rw [List.map_cons, List.map_cons, hp, ih (Prod.ext rfl hnone)]

/-- The loaded manifests with their names. -/
theorem mem_manifests_iff {t : FileTree} {cwd : Text} {paths : List Text}
    {manifests : List (Text × Manifest)} (h : loadManifests t cwd paths = (manifests, none))
    {p : Text} {m : Manifest} :
    (p, m) ∈ manifests ↔ p ∈ paths ∧ Manifest.load t cwd p = .ok m := by
  have hload := loadManifests_eq h
  constructor
  · intro hm
    have hmem : (p, Except.ok m) ∈ paths.map fun p => (p, Manifest.load t cwd p) := by
      rw [hload]
      exact List.mem_map.2 ⟨(p, m), hm, rfl⟩
    obtain ⟨q, hq, heq⟩ := List.mem_map.1 hmem
    obtain ⟨rfl, hok⟩ := Prod.mk.inj heq
    exact ⟨hq, hok⟩
  · rintro ⟨hp, hm⟩
    have hmem := List.mem_map_of_mem (f := fun p => (p, Manifest.load t cwd p)) hp
    rw [hload] at hmem
    obtain ⟨⟨q, m'⟩, hq, heq⟩ := List.mem_map.1 hmem
    obtain ⟨rfl, hok⟩ := Prod.mk.inj heq
    obtain rfl := Except.ok.inj (hok.trans hm)
    exact hq

/-! ## The table -/

/-- What a file declares. -/
def declarationsOf (files : List (SchemaFile × Node)) : List Cube :=
  files.flatMap fun x => x.2.declarations x.1.path

/-- Collecting registers what all files declare. -/
theorem collectAll_fst (t : SymbolTable) (files : List (SchemaFile × Node)) :
    (collectAll t files).1 = t.registering (declarationsOf files) := by
  induction files generalizing t with
  | nil => rfl
  | cons x files ih =>
    obtain ⟨f, n⟩ := x
    show (collectAll (t.collect f.path n).1 files).1 = _
    rw [ih, SymbolTable.collect, SymbolTable.registerAll_fst, declarationsOf, declarationsOf,
      List.flatMap_cons]
    simp only [SymbolTable.registering, List.foldl_append]

theorem length_collectAll (t : SymbolTable) (files : List (SchemaFile × Node)) :
    (collectAll t files).2.length = files.length := by
  induction files generalizing t with
  | nil => rfl
  | cons x files ih => exact congrArg (· + 1) (ih _)

/-- The table that the manifests make. -/
def knownTable (manifests : List (Text × Manifest)) : SymbolTable :=
  manifests.foldl (fun t m => t.apply m.2 m.1) {}

/-- What the manifests declare. -/
def knownCubes (manifests : List (Text × Manifest)) : List Cube :=
  manifests.flatMap fun m => m.2.declared m.1

theorem cube?_foldl_apply (t : SymbolTable) (manifests : List (Text × Manifest)) (name : Text) :
    (manifests.foldl (fun t m => t.apply m.2 m.1) t).cube? name =
      (named name (knownCubes manifests)).foldl joined (t.cube? name) := by
  induction manifests generalizing t with
  | nil => rfl
  | cons m manifests ih =>
    have hsplit : named name (knownCubes (m :: manifests)) =
        named name (m.2.declared m.1) ++ named name (knownCubes manifests) := by
      rw [knownCubes, List.flatMap_cons, named, List.filter_append]
      rfl
    rw [List.foldl_cons, ih, cube?_apply, hsplit, List.foldl_append]

theorem mem_context_foldl_apply {t : SymbolTable} {manifests : List (Text × Manifest)}
    {name : Text} : name ∈ (manifests.foldl (fun t m => t.apply m.2 m.1) t).context ↔
      name ∈ t.context ∨ ∃ m ∈ manifests, name ∈ m.2.context := by
  induction manifests generalizing t with
  | nil => simp
  | cons m manifests ih =>
    rw [List.foldl_cons, ih, mem_context_apply, or_assoc]
    simp only [List.mem_cons, exists_eq_or_imp]

theorem nodup_foldl_apply {t : SymbolTable} (h : (t.entries.map Cube.name).Nodup)
    (manifests : List (Text × Manifest)) :
    ((manifests.foldl (fun t m => t.apply m.2 m.1) t).entries.map Cube.name).Nodup := by
  induction manifests generalizing t with
  | nil => exact h
  | cons m manifests ih => exact ih (nodup_apply h m.2 m.1)

/-- The complete table registers what the files declare behind what the manifests declare. -/
theorem link_table (manifests : List (Text × Manifest)) (files : List (SchemaFile × Node)) :
    (link manifests files).table = (knownTable manifests).registering (declarationsOf files) :=
  collectAll_fst _ files

/-- Every name occurs once in the complete table. -/
theorem nodup_link (manifests : List (Text × Manifest)) (files : List (SchemaFile × Node)) :
    ((link manifests files).table.entries.map Cube.name).Nodup := by
  rw [link_table, knownTable]
  exact nodup_registering (nodup_foldl_apply (t := {}) List.nodup_nil manifests) _

theorem external_of_mem_knownCubes {manifests : List (Text × Manifest)} {c : Cube}
    (h : c ∈ knownCubes manifests) : c.external = true := by
  obtain ⟨m, -, hc⟩ := List.mem_flatMap.1 h
  obtain ⟨e, -, isView, rfl⟩ := Manifest.mem_declared hc
  exact e.external_cube m.1 isView

theorem external_of_mem_declarationsOf {files : List (SchemaFile × Node)} {c : Cube}
    (h : c ∈ declarationsOf files) : c.external = false := by
  obtain ⟨x, -, hc⟩ := List.mem_flatMap.1 h
  exact (Node.mem_declarations hc).1

/-- The entry of a name in the complete table: what the files declare, or else what the manifests
declare. -/
theorem cube?_link (manifests : List (Text × Manifest)) (files : List (SchemaFile × Node))
    (name : Text) : (link manifests files).table.cube? name =
      (mergedAll (named name (declarationsOf files))).or
        (mergedAll (named name (knownCubes manifests))) := by
  rw [link_table, cube?_registering, knownTable, cube?_foldl_apply]
  exact foldl_joined_eq (fun c hc => external_of_mem_knownCubes (mem_named.1 hc).1)
    fun c hc => external_of_mem_declarationsOf (mem_named.1 hc).1

/-- The context symbols of the complete table. -/
theorem mem_context_link {manifests : List (Text × Manifest)} {files : List (SchemaFile × Node)}
    {name : Text} : name ∈ (link manifests files).table.context ↔
      name ∈ defaultContext ∨ ∃ m ∈ manifests, name ∈ m.2.context := by
  rw [link_table, context_registering, knownTable, mem_context_foldl_apply]

/-! ## The outputs -/

/-- What becomes of a file, apart from what it declares. -/
structure Outcome where
  /-- The name of the file. -/
  path : Text
  /-- The text with its properties deferred. -/
  source : Text
  /-- For every declared cube, the other cubes that its properties take. -/
  references : List (Text × List Text)

/-- What a compiled file shows of its outcome. -/
def outcomeOf (o : CompiledFile) : Outcome := ⟨o.path, o.source, o.references⟩

/-- The outcome of a file by a table. -/
def outcome (t : SymbolTable) (f : SchemaFile) (n : Node) : Outcome :=
  ⟨f.path, (Deferral.run t.resolvers n).val.print, t.references (Deferral.run t.resolvers n).val⟩

/-- Every file has its outcome by the complete table. -/
theorem link_outputs (manifests : List (Text × Manifest)) (files : List (SchemaFile × Node)) :
    (link manifests files).outputs.map outcomeOf =
      files.map fun x => outcome (link manifests files).table x.1 x.2 := by
  have hlength : files.length = (collectAll (knownTable manifests) files).2.length :=
    (length_collectAll _ files).symm
  have houtputs : (link manifests files).outputs =
      (files.zip (collectAll (knownTable manifests) files).2).map fun x =>
        compileFile (link manifests files).table x.1.1 x.1.2 x.2 := rfl
  rw [houtputs, List.map_map]
  have hfst : (outcomeOf ∘ fun x : (SchemaFile × Node) × List Declared =>
      compileFile (link manifests files).table x.1.1 x.1.2 x.2) =
      (fun x => outcome (link manifests files).table x.1 x.2) ∘ Prod.fst := rfl
  rw [hfst, ← List.map_map, List.map_fst_zip (Nat.le_of_eq hlength)]

theorem link_graph (manifests : List (Text × Manifest)) (files : List (SchemaFile × Node)) :
    (link manifests files).graph =
      graphOf (link manifests files).table (link manifests files).outputs := rfl

end Compilation

end CubeSchema
