import CubeSchema.Proofs.Compilation.Resolution
import CubeSchema.Proofs.Graph.Edges

/-!
# The order of the files does not matter

Collecting takes the files one after the other, and leaves traces of their order in the table: the
types of members, and where a cube was declared first. Whether a name is resolved does not depend on
any of them (`SymbolTable.Agrees`), so every file has the same outcome wherever it stands, and the
graph has the same cubes and references.
-/

namespace CubeSchema

open Compilation SymbolTable

/-! ## Tables that resolve the same names -/

namespace SymbolTable

/-- Two tables know the same context symbols, the same cubes, and the same members of every cube. -/
structure Agrees (t t' : SymbolTable) : Prop where
  /-- The context symbols are the same. -/
  context (name : Text) : name ∈ t.context ↔ name ∈ t'.context
  /-- The cubes have the same names. -/
  known (name : Text) : (t.cube? name).isSome = true ↔ (t'.cube? name).isSome = true
  /-- The members of every cube have the same names. -/
  members (scope name : Text) : (t.cube? scope).any (·.hasMember name) = true ↔
    (t'.cube? scope).any (·.hasMember name) = true

/-- A name denotes something inside of a declaration if it is a context symbol, or else stands for
the cube being declared and that is known, or else is a member of that cube or the name of a cube.
-/
theorem resolves_eq_true {t : SymbolTable} {scope name : Text} :
    t.resolves scope name = true ↔ name ∈ t.context ∨
      if isCurrentCube name = true then scope ≠ [] ∧ (t.cube? scope).isSome = true
      else (scope ≠ [] ∧ (t.cube? scope).any (·.hasMember name) = true) ∨
        (t.cube? name).isSome = true := by
  unfold resolves lookup current?
  by_cases hcontext : name ∈ t.context
  · simp [hcontext]
  by_cases hcurrent : isCurrentCube name = true
  · by_cases hscope : scope = [] <;> simp [hcontext, hcurrent, hscope]
  -- What is left is a member of the cube being declared, or else a cube.
  rw [if_neg (by simpa using hcontext), if_neg hcurrent, if_neg hcurrent]
  simp only [hcontext, false_or]
  by_cases hscope : scope = []
  · simp [hscope]
  rw [if_neg (by simpa using hscope)]
  cases t.cube? scope with
  | none => simp
  | some c =>
    cases hmember : c.member? name with
    | none => simp [Cube.hasMember, hmember]
    | some type => simp [Cube.hasMember, hmember, hscope]

theorem Agrees.resolvers_eq {t t' : SymbolTable} (h : t.Agrees t') :
    t.resolvers = t'.resolvers := by
  have hsymbol : t.resolves = t'.resolves := by
    funext scope name
    rw [Bool.eq_iff_iff, resolves_eq_true, resolves_eq_true]
    simp only [h.context, h.known, h.members]
  have hcube : t.resolvesCube = t'.resolvesCube :=
    funext fun name => Bool.eq_iff_iff.2 (h.known name)
  rw [resolvers, resolvers, hsymbol, hcube]

end SymbolTable

namespace Compilation

/-- The outcome of a file depends on the table only through the names that are resolved. -/
theorem outcome_eq {t t' : SymbolTable} (h : t.Agrees t') (f : SchemaFile) (n : Node) :
    outcome t f n = outcome t' f n := by
  have hreferences : t.references = t'.references := by
    have hcube : t.resolvesCube = t'.resolvesCube := congrArg Resolvers.cube h.resolvers_eq
    have htargets : t.targets = t'.targets := by
      funext name n
      rw [targets, targets, hcube]
    have hlisting : t.listing = t'.listing := by
      funext refs d
      rw [listing, listing, htargets]
    funext n
    rw [references, references, hlisting]
  rw [outcome, outcome, h.resolvers_eq, hreferences]

/-! ## The graph of a table and its outcomes -/

/-- The references that a file adds to the graph. -/
def edgesOf (x : Outcome) : List (Text × Text) :=
  x.references.flatMap fun r => r.2.map fun target => (r.1, target)

/-- The graph has first the cubes of the table and then the references of all files. -/
theorem graphOf_eq (t : SymbolTable) (outputs : List CompiledFile) : graphOf t outputs =
    (({} : Graph).adding (t.cubes.map fun c => ⟨c.name, c.file⟩)).connecting
      ((outputs.map outcomeOf).flatMap edgesOf) := by
  simp only [graphOf, Graph.adding, Graph.connecting, edgesOf, outcomeOf, List.foldl_map,
    List.foldl_flatMap, List.flatMap_map]

theorem coherent_graphOf (t : SymbolTable) (outputs : List CompiledFile) :
    (graphOf t outputs).Coherent := by
  rw [graphOf_eq]
  exact (Graph.coherent_empty.adding _).connecting _

/-- Where no two elements have the same key, an element is found by its key. -/
theorem find?_key_eq_some {α : Type} {key : α → Text} {l : List α} (h : (l.map key).Nodup)
    {id : Text} {x : α} : l.find? (fun y => key y = id) = some x ↔ x ∈ l ∧ key x = id := by
  induction l with
  | nil => simp
  | cons y l ih =>
    rw [List.map_cons, List.nodup_cons] at h
    rw [List.find?_cons, List.mem_cons]
    by_cases hy : key y = id
    · have hother : ∀ z ∈ l, key z ≠ id := fun z hz hkey =>
        h.1 (hy ▸ hkey ▸ List.mem_map_of_mem hz)
      simp only [hy, decide_true, Option.some.injEq]
      constructor
      · rintro rfl
        exact ⟨.inl rfl, hy⟩
      · rintro ⟨rfl | hx, hkey⟩
        · rfl
        · exact absurd hkey (hother x hx)
    · simp only [hy, decide_false, ih h.2]
      constructor
      · exact fun hx => ⟨.inr hx.1, hx.2⟩
      · rintro ⟨rfl | hx, hkey⟩
        · exact absurd hkey hy
        · exact ⟨hx, hkey⟩

/-- The cubes of the graph are those of the table, with the files that the table has for them. -/
theorem vertex?_graphOf {t : SymbolTable} (h : (t.entries.map Cube.name).Nodup)
    (outputs : List CompiledFile) (id : Text) :
    (graphOf t outputs).vertex? id = ((t.cube? id).map Cube.file).map (Vertex.mk id) := by
  -- The cubes are added in another order than they have in the table, but each of them once.
  have hperm : t.cubes.Perm t.entries := List.mergeSort_perm ..
  have hnames : (t.cubes.map Cube.name).Nodup := (hperm.map Cube.name).nodup_iff.2 h
  have hids : ((t.cubes.map fun c => (⟨c.name, c.file⟩ : Vertex)).map Vertex.id).Nodup := by
    rwa [List.map_map]
  have hvertices : (graphOf t outputs).vertices = t.cubes.map fun c => ⟨c.name, c.file⟩ := by
    rw [graphOf_eq, Graph.vertices_connecting]
    exact Graph.vertices_adding (g := {}) hids
  ext v
  rw [Graph.vertex?, hvertices, find?_key_eq_some hids, Option.map_map, Option.map_eq_some_iff]
  simp only [SymbolTable.cube?, find?_key_eq_some h, List.mem_map, hperm.mem_iff]
  constructor
  · rintro ⟨⟨c, hc, rfl⟩, rfl⟩
    exact ⟨c, ⟨hc, rfl⟩, rfl⟩
  · rintro ⟨c, ⟨hc, rfl⟩, rfl⟩
    exact ⟨⟨c, hc, rfl⟩, rfl⟩

theorem has_graphOf {t : SymbolTable} (h : (t.entries.map Cube.name).Nodup)
    (outputs : List CompiledFile) (id : Text) :
    (graphOf t outputs).has id = (t.cube? id).isSome := by
  rw [Graph.has, vertex?_graphOf h, Option.isSome_map, Option.isSome_map]

/-- The references of the graph are those of the outcomes between different cubes of the table. -/
theorem mem_uses_graphOf {t : SymbolTable} (h : (t.entries.map Cube.name).Nodup)
    {outputs : List CompiledFile} {a b : Text} :
    b ∈ (graphOf t outputs).uses.neighbours a ↔
      (∃ x ∈ outputs.map outcomeOf, (a, b) ∈ edgesOf x) ∧ (t.cube? a).isSome = true ∧
        (t.cube? b).isSome = true ∧ a ≠ b := by
  have hhas : ∀ id, (({} : Graph).adding (t.cubes.map fun c => ⟨c.name, c.file⟩)).has id =
      (t.cube? id).isSome := by
    intro id
    rw [← has_graphOf h outputs id, graphOf_eq, Graph.has, Graph.has, Graph.vertex?, Graph.vertex?,
      Graph.vertices_connecting]
  rw [graphOf_eq, Graph.mem_uses_connecting, Graph.uses_adding, hhas, hhas, List.mem_flatMap]
  simp [Adjacency.neighbours]

end Compilation

/-! ## The same files in another order -/

section

variable {tree : FileTree} {cwd : Text} {o : CompileOptions} {files files' : List SchemaFile}

theorem isCollected_perm (h : files.Perm files') {d : Cube} :
    IsCollected files d ↔ IsCollected files' d := by
  simp only [IsCollected, h.mem_iff]

/-- Whether all files can be read does not depend on their order. -/
theorem exists_reading_perm (h : files.Perm files') :
    (∃ nodes : List Node, files.map reading = nodes.map .ok) ↔
      ∃ nodes : List Node, files'.map reading = nodes.map .ok := by
  -- All files can be read exactly if each can, and that does not speak of their order.
  have hall : ∀ fs : List SchemaFile, (∃ nodes : List Node, fs.map reading = nodes.map .ok) ↔
      ∀ f ∈ fs, ∃ n, reading f = .ok n := by
    intro fs
    induction fs with
    | nil => exact ⟨fun _ f hf => absurd hf List.not_mem_nil, fun _ => ⟨[], rfl⟩⟩
    | cons f fs ih =>
      rw [List.forall_mem_cons, ← ih]
      constructor
      · rintro ⟨_ | ⟨n, nodes⟩, hnodes⟩
        · cases hnodes
        · obtain ⟨hn, hrest⟩ := List.cons.inj hnodes
          exact ⟨⟨n, hn⟩, nodes, hrest⟩
      · rintro ⟨⟨n, hn⟩, nodes, hrest⟩
        exact ⟨n :: nodes, by rw [List.map_cons, List.map_cons, hn, hrest]⟩
  simp only [hall, h.mem_iff]

/-- Whether a project compiles does not depend on the order of its files. -/
theorem isOk_compile_perm (h : files.Perm files') :
    (compile tree cwd o files).isOk = (compile tree cwd o files').isOk := by
  have hok : ∀ fs : List SchemaFile, (compile tree cwd o fs).isOk = true ↔
      (o.cancelled = true → fs = []) ∧ (∃ nodes : List Node, fs.map reading = nodes.map .ok) ∧
        ∃ manifests, loadManifests tree cwd o.manifests = (manifests, none) := by
    intro fs
    constructor
    · intro hfs
      cases hc : compile tree cwd o fs with
      | error e =>
        rw [hc] at hfs
        cases hfs
      | ok c =>
        obtain ⟨hproceed, nodes, manifests, hread, hload, -⟩ := compile_eq_ok.1 hc
        exact ⟨hproceed, ⟨nodes, hread⟩, manifests, hload⟩
    · rintro ⟨hproceed, ⟨nodes, hread⟩, manifests, hload⟩
      rw [compile_eq_ok.2 ⟨hproceed, nodes, manifests, hread, hload, rfl⟩]
      rfl
  rw [Bool.eq_iff_iff, hok, hok, exists_reading_perm h]
  have hempty : files = [] ↔ files' = [] := by
    rw [← List.length_eq_zero_iff, ← List.length_eq_zero_iff, h.length_eq]
  rw [hempty]

variable {nodes nodes' : List Node} {manifests : List (Text × Manifest)}

/-- There is one output for every file. -/
theorem length_link_outputs (hread : files.map reading = nodes.map .ok) :
    (link manifests (files.zip nodes)).outputs.length = files.length := by
  have houtputs := congrArg List.length (link_outputs manifests (files.zip nodes))
  have hnodes := congrArg List.length hread
  simp only [List.length_map, List.length_zip] at houtputs hnodes
  omega

/-- The output of a file is its outcome by the complete table. -/
theorem outcomeOf_of_mem_zip (hread : files.map reading = nodes.map .ok) {f : SchemaFile}
    {out : CompiledFile} (h : (f, out) ∈ files.zip (link manifests (files.zip nodes)).outputs) :
    ∃ n, reading f = .ok n ∧
      outcomeOf out = outcome (link manifests (files.zip nodes)).table f n := by
  obtain ⟨i, hi⟩ := List.mem_iff_getElem?.1 h
  obtain ⟨hf, hout⟩ := List.getElem?_zip_eq_some.1 hi
  have houtcome : ((link manifests (files.zip nodes)).outputs.map outcomeOf)[i]? =
      some (outcomeOf out) := by
    rw [List.getElem?_map, hout, Option.map_some]
  rw [link_outputs, List.getElem?_map, Option.map_eq_some_iff] at houtcome
  obtain ⟨⟨f', n⟩, hx, hn⟩ := houtcome
  obtain rfl : f' = f :=
    Option.some.inj ((List.getElem?_zip_eq_some.1 hx).1.symm.trans hf)
  exact ⟨n, ((mem_zip_iff_reading hread).1 (List.mem_of_getElem? hx)).2, hn.symm⟩

/-- The complete tables of the same files in two orders resolve the same names. -/
theorem agrees_link (h : files.Perm files') (hread : files.map reading = nodes.map .ok)
    (hread' : files'.map reading = nodes'.map .ok)
    (hload : loadManifests tree cwd o.manifests = (manifests, none)) :
    (link manifests (files.zip nodes)).table.Agrees (link manifests (files'.zip nodes')).table where
  context name := by rw [mem_context_link, mem_context_link]
  known name := by
    rw [isSome_cube?_link hread hload, isSome_cube?_link hread' hload]
    simp only [isCollected_perm h]
  members scope name := by
    rw [any_hasMember_link hread hload, any_hasMember_link hread' hload]
    simp only [isCollected_perm h]

/-- The outcomes of the same files in two orders are the same ones. -/
theorem mem_outcomes_link (h : files.Perm files') (hread : files.map reading = nodes.map .ok)
    (hread' : files'.map reading = nodes'.map .ok)
    (hload : loadManifests tree cwd o.manifests = (manifests, none)) {x : Compilation.Outcome} :
    x ∈ (link manifests (files.zip nodes)).outputs.map outcomeOf ↔
      x ∈ (link manifests (files'.zip nodes')).outputs.map outcomeOf := by
  simp only [link_outputs, List.mem_map, Prod.exists, mem_zip_iff_reading hread,
    mem_zip_iff_reading hread', h.mem_iff, outcome_eq (agrees_link h hread hread' hload)]

/-- Where all declarations of a cube come from one file, the tables agree on that file. -/
theorem file_link (h : files.Perm files') (hread : files.map reading = nodes.map .ok)
    (hread' : files'.map reading = nodes'.map .ok) {id file : Text}
    (hfile : ∀ d, IsCollected files d → d.name = id → d.file = file) :
    ((link manifests (files.zip nodes)).table.cube? id).map Cube.file =
      ((link manifests (files'.zip nodes')).table.cube? id).map Cube.file := by
  -- What the files declare of the cube: the same declarations, in two orders.
  have hsame : ∀ d, d ∈ named id (declarationsOf (files.zip nodes)) ↔
      d ∈ named id (declarationsOf (files'.zip nodes')) := by
    intro d
    rw [mem_named, mem_named, ← isCollected_iff hread, ← isCollected_iff hread',
      isCollected_perm h]
  have hall : ∀ d ∈ named id (declarationsOf (files.zip nodes)), d.file = file := by
    intro d hd
    obtain ⟨hd, hname⟩ := mem_named.1 hd
    exact hfile d ((isCollected_iff hread).2 hd) hname
  have hhead : (mergedAll (named id (declarationsOf (files.zip nodes)))).map Cube.file =
      (mergedAll (named id (declarationsOf (files'.zip nodes')))).map Cube.file := by
    rw [file_mergedAll, file_mergedAll]
    generalize named id (declarationsOf (files.zip nodes)) = ds at hsame hall
    generalize named id (declarationsOf (files'.zip nodes')) = ds' at hsame
    cases ds with
    | nil =>
      cases ds' with
      | nil => rfl
      | cons d' _ => simpa using hsame d'
    | cons d _ =>
      cases ds' with
      | nil => simpa using hsame d
      | cons d' _ =>
        have hd' := hall d' ((hsame d').2 (List.mem_cons_self ..))
        rw [List.head?_cons, List.head?_cons, Option.map_some, Option.map_some, hd',
          hall d (List.mem_cons_self ..)]
  rw [cube?_link, cube?_link, Option.map_or, Option.map_or, hhead]

end

/-- A project compiles in one order of its files exactly if it compiles in any other. Every file has
then the same outcome, and the graphs have the same cubes and the same references. Where a cube is
declared may differ if several files declare it, and only then. -/
theorem compile_order_irrelevant {tree : FileTree} {cwd : Text} {o : CompileOptions}
    {files files' : List SchemaFile} (h : files.Perm files') :
    (compile tree cwd o files).isOk = (compile tree cwd o files').isOk ∧
    ∀ c c', compile tree cwd o files = .ok c → compile tree cwd o files' = .ok c' →
      (c.outputs.length = files.length ∧ c'.outputs.length = files'.length ∧
        ∀ f out out', (f, out) ∈ files.zip c.outputs → (f, out') ∈ files'.zip c'.outputs →
          out.source = out'.source ∧ out.references = out'.references) ∧
      c.graph.ids = c'.graph.ids ∧
      (∀ id, c.graph.usesOf id = c'.graph.usesOf id ∧ c.graph.usersOf id = c'.graph.usersOf id) ∧
      ∀ id file, (∀ d, IsCollected files d → d.name = id → d.file = file) →
        c.graph.vertex? id = c'.graph.vertex? id := by
  refine ⟨isOk_compile_perm h, fun c c' hc hc' => ?_⟩
  obtain ⟨-, nodes, manifests, hread, hload, rfl⟩ := compile_eq_ok.1 hc
  obtain ⟨-, nodes', manifests', hread', hload', rfl⟩ := compile_eq_ok.1 hc'
  obtain rfl : manifests = manifests' := congrArg Prod.fst (hload.symm.trans hload')
  -- All that the order leaves in the tables is where cubes are declared and the types of members.
  have hagrees := agrees_link h hread hread' hload
  have hnodup := nodup_link manifests (files.zip nodes)
  have hnodup' := nodup_link manifests (files'.zip nodes')
  refine ⟨⟨length_link_outputs hread, length_link_outputs hread', fun f out out' hf hf' => ?_⟩, ?_⟩
  · -- The file reads as one tree, which both tables transform alike.
    obtain ⟨n, hn, hout⟩ := outcomeOf_of_mem_zip hread hf
    obtain ⟨n', hn', hout'⟩ := outcomeOf_of_mem_zip hread' hf'
    obtain rfl : n = n' := Except.ok.inj (hn.symm.trans hn')
    have heq : outcomeOf out = outcomeOf out' := by rw [hout, hout', outcome_eq hagrees]
    exact ⟨congrArg Compilation.Outcome.source heq, congrArg Compilation.Outcome.references heq⟩
  rw [link_graph, link_graph]
  have hcoherent := coherent_graphOf (link manifests (files.zip nodes)).table
    (link manifests (files.zip nodes)).outputs
  have hcoherent' := coherent_graphOf (link manifests (files'.zip nodes')).table
    (link manifests (files'.zip nodes')).outputs
  obtain ⟨hids, hneighbours⟩ := hcoherent.answers_eq hcoherent'
    (fun id => by rw [has_graphOf hnodup, has_graphOf hnodup', hagrees.known])
    fun a b => by
      rw [mem_uses_graphOf hnodup, mem_uses_graphOf hnodup']
      simp only [mem_outcomes_link h hread hread' hload, hagrees.known]
  refine ⟨hids, hneighbours, fun id file hfile => ?_⟩
  rw [vertex?_graphOf hnodup, vertex?_graphOf hnodup', file_link h hread hread' hfile]

/-- Two files that both declare a cube, with a member of one name and two types, and that both refer
to another one. -/
def twiceDeclared : SchemaFile × SchemaFile :=
  (⟨lit "a.js", lit "cube('A', \x7b measures: \x7b m: \x7b\x7d \x7d, sql: B \x7d)"⟩,
    ⟨lit "b.js", lit "cube('A', \x7b dimensions: \x7b m: \x7b sql: B \x7d \x7d \x7d)" ++
      lit "; cube('B', \x7b\x7d)"⟩)

/-- The project compiles in both orders, to graphs with the same references. -/
theorem twiceDeclared_order_irrelevant :
    ∃ c c', compile ⟨[]⟩ [] {} [twiceDeclared.1, twiceDeclared.2] = .ok c ∧
      compile ⟨[]⟩ [] {} [twiceDeclared.2, twiceDeclared.1] = .ok c' ∧
      c.graph.ids = c'.graph.ids ∧ ∀ id, c.graph.usesOf id = c'.graph.usesOf id := by
  have hperm : [twiceDeclared.1, twiceDeclared.2].Perm [twiceDeclared.2, twiceDeclared.1] :=
    List.Perm.swap ..
  have hok : (compile ⟨[]⟩ [] {} [twiceDeclared.1, twiceDeclared.2]).isOk = true := by
    decide +kernel
  obtain ⟨hisOk, hsame⟩ := @compile_order_irrelevant ⟨[]⟩ [] {} _ _ hperm
  cases hc : compile ⟨[]⟩ [] {} [twiceDeclared.1, twiceDeclared.2] with
  | error e =>
    rw [hc] at hok
    cases hok
  | ok c =>
    cases hc' : compile ⟨[]⟩ [] {} [twiceDeclared.2, twiceDeclared.1] with
    | error e =>
      rw [hc, hc'] at hisOk
      cases hisOk
    | ok c' =>
      obtain ⟨-, hids, hneighbours, -⟩ := hsame c c' hc hc'
      exact ⟨c, c', rfl, rfl, hids, fun id => (hneighbours id).1⟩

end CubeSchema
