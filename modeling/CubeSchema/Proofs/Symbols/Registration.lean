import CubeSchema.Deferral
import CubeSchema.Symbols.Collect
import CubeSchema.Symbols.Manifest

/-!
# What registering leaves in a table

The entry of a name depends on the registrations of that name alone: `SymbolTable.joined` is what
one more of them makes of it, and the entry after a list of registrations is the fold of that step.
Where manifests come first and files behind them, what the files declare of a name counts, and what
the manifests declare only if no file declares it.
-/

namespace CubeSchema

/-! ## Members of a cube -/

namespace Cube

/-- Whether a cube has a member of a name. -/
def hasMember (c : Cube) (name : Text) : Bool := (c.member? name).isSome

theorem hasMember_iff {c : Cube} {name : Text} :
    c.hasMember name = true ↔ name ∈ c.members.map Prod.fst := by
  unfold hasMember member?
  induction c.members with
  | nil => simp
  | cons m ms ih =>
    rw [List.lookup_cons, List.map_cons, List.mem_cons, ← ih]
    by_cases h : name = m.1
    · simp [h]
    · have hne : (name == m.1) = false := by simpa using h
      simp only [hne, h, false_or]

theorem hasMember_addMember {c : Cube} {added : Text} {type : MemberType} {name : Text} :
    (c.addMember added type).hasMember name = true ↔ c.hasMember name = true ∨ name = added := by
  rw [hasMember_iff, hasMember_iff]
  unfold addMember
  by_cases h : name = added
  · simp [h]
  · simp [h]

/-- Adding members adds their names. -/
theorem hasMember_addMembers {c : Cube} {ms : List (Text × MemberType)} {name : Text} :
    (c.addMembers ms).hasMember name = true ↔ c.hasMember name = true ∨ name ∈ ms.map Prod.fst := by
  unfold addMembers
  induction ms generalizing c with
  | nil => simp
  | cons m ms ih =>
    rw [List.foldl_cons, ih, hasMember_addMember, List.map_cons, List.mem_cons, or_assoc]

/-- Adding members changes nothing but the members. -/
theorem addMembers_eq (c : Cube) (ms : List (Text × MemberType)) :
    c.addMembers ms = { c with members := (c.addMembers ms).members } := by
  unfold addMembers
  induction ms generalizing c with
  | nil => rfl
  | cons m ms ih =>
    rw [List.foldl_cons, ih (c.addMember m.1 m.2)]
    rfl

@[simp] theorem name_addMembers (c : Cube) (ms : List (Text × MemberType)) :
    (c.addMembers ms).name = c.name := by rw [addMembers_eq]

@[simp] theorem external_addMembers (c : Cube) (ms : List (Text × MemberType)) :
    (c.addMembers ms).external = c.external := by rw [addMembers_eq]

@[simp] theorem file_addMembers (c : Cube) (ms : List (Text × MemberType)) :
    (c.addMembers ms).file = c.file := by rw [addMembers_eq]

end Cube

/-! ## The entry of a name -/

namespace SymbolTable

@[simp] theorem name_merge (old c : Cube) : (merge old c).name = old.name := by simp [merge]

@[simp] theorem external_merge (old c : Cube) : (merge old c).external = old.external := by
  simp [merge]

@[simp] theorem file_merge (old c : Cube) : (merge old c).file = old.file := by simp [merge]

theorem hasMember_merge {old c : Cube} {name : Text} :
    (merge old c).hasMember name = true ↔ old.hasMember name = true ∨ c.hasMember name = true := by
  have hmembers : (merge old c).hasMember name = (old.addMembers c.members).hasMember name := rfl
  rw [hmembers, Cube.hasMember_addMembers, Cube.hasMember_iff (c := c)]

/-- What one more cube of its name makes of an entry. -/
def joined (entry : Option Cube) (c : Cube) : Option Cube :=
  match entry with
  | none => some c
  | some old => if old.external && !c.external then some c else some (merge old c)

theorem cube?_modify {t : SymbolTable} {name : Text} {f : Cube → Cube}
    (hf : ∀ c, c.name = name → (f c).name = name) (other : Text) :
    (t.modify name f).cube? other =
      if name = other then (t.cube? other).map f else t.cube? other := by
  unfold cube? modify
  induction t.entries with
  | nil => simp
  | cons c cs ih =>
    rw [List.map_cons, List.find?_cons, List.find?_cons]
    by_cases hc : c.name = name
    · have hfc := hf c hc
      by_cases hother : name = other
      · simp [hc, hfc, hother]
      · simp only [hc, if_true, hfc, hother, decide_false, ih, if_false]
    · by_cases hother : c.name = other
      · have hne : name ≠ other := fun h => hc (hother.trans h.symm)
        rw [if_neg hc, if_neg hne]
        simp [hother]
      · simp only [hc, if_false, hother, decide_false, ih]

/-- Registering a cube changes the entry of its name only. -/
theorem cube?_register (t : SymbolTable) (c : Cube) (name : Text) :
    (t.register c).cube? name =
      if c.name = name then joined (t.cube? name) c else t.cube? name := by
  unfold register
  cases hold : t.cube? c.name with
  | none =>
    by_cases hname : c.name = name
    · subst hname
      rw [if_pos rfl, hold]
      unfold cube? at hold ⊢
      simp [hold, joined]
    · simp [cube?, hname]
  | some old =>
    -- There is an entry: it is replaced or merged with, and keeps its name either way.
    have hfounds : t.founds c = (old.external && !c.external) := by simp [founds, hold]
    have hold' : (old.name = c.name) := by simpa using List.find?_some hold
    rw [hfounds]
    by_cases hreplaces : (old.external && !c.external) = true
    · simp only [hreplaces, if_true]
      rw [cube?_modify fun _ _ => rfl]
      by_cases hname : c.name = name
      · subst hname
        simp [hold, joined, hreplaces]
      · simp [hname]
    · simp only [hreplaces]
      rw [if_neg Bool.false_ne_true, cube?_modify fun d hd => by simp [hd]]
      by_cases hname : c.name = name
      · subst hname
        simp [hold, joined, hreplaces]
      · simp [hname]

@[simp] theorem context_register (t : SymbolTable) (c : Cube) :
    (t.register c).context = t.context := by
  unfold register
  split
  · rfl
  · split <;> rfl

/-- Registering a cube adds its name, unless it is there. -/
theorem names_register (t : SymbolTable) (c : Cube) : (t.register c).entries.map Cube.name =
    if (t.cube? c.name).isSome then t.entries.map Cube.name
    else t.entries.map Cube.name ++ [c.name] := by
  -- Changing an entry keeps the names, whether it is replaced or merged with.
  have hmodify : ∀ f : Cube → Cube, (∀ d, d.name = c.name → (f d).name = c.name) →
      (t.modify c.name f).entries.map Cube.name = t.entries.map Cube.name := by
    intro f hf
    unfold modify
    rw [List.map_map]
    refine List.map_congr_left fun d _ => ?_
    by_cases hd : d.name = c.name
    · simp [hd, hf d hd]
    · simp [hd]
  unfold register
  cases t.cube? c.name with
  | none => simp
  | some old =>
    rw [Option.isSome_some, if_pos rfl]
    split
    · rename_i h
      cases h
    · split
      · exact hmodify _ fun _ _ => rfl
      · exact hmodify _ fun d hd => by simp [hd]

/-- Every name occurs once in a table. -/
theorem nodup_register {t : SymbolTable} (h : (t.entries.map Cube.name).Nodup) (c : Cube) :
    ((t.register c).entries.map Cube.name).Nodup := by
  rw [names_register]
  split
  · exact h
  · rename_i hnew
    refine List.nodup_append.2 ⟨h, List.nodup_cons.2 ⟨by simp, List.nodup_nil⟩, ?_⟩
    rintro a ha b hb rfl
    obtain ⟨d, hd, rfl⟩ := List.mem_map.1 ha
    exact hnew (List.find?_isSome.2 ⟨d, hd, by simpa using hb⟩)

/-- The table after all cubes of a list have been registered, in order. -/
def registering (t : SymbolTable) (cs : List Cube) : SymbolTable := cs.foldl register t

theorem registerAll_fst (t : SymbolTable) (cs : List Cube) :
    (t.registerAll cs).1 = t.registering cs := by
  induction cs generalizing t with
  | nil => rfl
  | cons c cs ih => exact ih (t.register c)

@[simp] theorem context_registering (t : SymbolTable) (cs : List Cube) :
    (t.registering cs).context = t.context := by
  unfold registering
  induction cs generalizing t with
  | nil => rfl
  | cons c cs ih => rw [List.foldl_cons, ih, context_register]

theorem nodup_registering {t : SymbolTable} (h : (t.entries.map Cube.name).Nodup)
    (cs : List Cube) : ((t.registering cs).entries.map Cube.name).Nodup := by
  unfold registering
  induction cs generalizing t with
  | nil => exact h
  | cons c cs ih => exact ih (nodup_register h c)

/-- The cubes of a list that have a given name. -/
def named (name : Text) (cs : List Cube) : List Cube := cs.filter fun c => c.name = name

theorem mem_named {name : Text} {cs : List Cube} {c : Cube} :
    c ∈ named name cs ↔ c ∈ cs ∧ c.name = name := by
  simp [named]

/-- The entry of a name is made by the registrations of that name. -/
theorem cube?_registering (t : SymbolTable) (cs : List Cube) (name : Text) :
    (t.registering cs).cube? name = (named name cs).foldl joined (t.cube? name) := by
  unfold registering named
  induction cs generalizing t with
  | nil => rfl
  | cons c cs ih =>
    rw [List.foldl_cons, ih, cube?_register]
    by_cases hname : c.name = name
    · rw [if_pos hname, List.filter_cons_of_pos (by simpa using hname), List.foldl_cons]
    · rw [if_neg hname, List.filter_cons_of_neg (by simpa using hname)]

/-! ## Manifests first, files behind them -/

/-- The cube that the cubes of a list are merged to. -/
def mergedAll : List Cube → Option Cube
  | [] => none
  | c :: cs => some (cs.foldl merge c)

theorem isSome_mergedAll {cs : List Cube} : (mergedAll cs).isSome = true ↔ ∃ c, c ∈ cs := by
  cases cs with
  | nil => simp [mergedAll]
  | cons c cs => exact ⟨fun _ => ⟨c, List.mem_cons_self ..⟩, fun _ => rfl⟩

theorem hasMember_foldl_merge {c : Cube} {cs : List Cube} {name : Text} :
    (cs.foldl merge c).hasMember name = true ↔ ∃ d ∈ c :: cs, d.hasMember name = true := by
  induction cs generalizing c with
  | nil => simp
  | cons d cs ih =>
    rw [List.foldl_cons, ih]
    simp only [List.mem_cons, exists_eq_or_imp, hasMember_merge, or_assoc]

theorem any_hasMember_mergedAll {cs : List Cube} {name : Text} :
    (mergedAll cs).any (·.hasMember name) = true ↔ ∃ c ∈ cs, c.hasMember name = true := by
  cases cs with
  | nil => simp [mergedAll]
  | cons c cs => exact hasMember_foldl_merge

/-- The members of an entry that is made of the first list if that is not empty, and else of the
second. -/
theorem any_hasMember_or {declared known : List Cube} {name : Text} :
    ((mergedAll declared).or (mergedAll known)).any (·.hasMember name) = true ↔
      (∃ c ∈ declared, c.hasMember name = true) ∨
        declared = [] ∧ ∃ c ∈ known, c.hasMember name = true := by
  cases declared with
  | nil => simpa [mergedAll] using any_hasMember_mergedAll
  | cons c cs =>
    have hmember : (mergedAll (c :: cs)).any (·.hasMember name) = true ↔ _ :=
      any_hasMember_mergedAll
    simpa [mergedAll] using hmember

@[simp] theorem file_foldl_merge (c : Cube) (cs : List Cube) :
    (cs.foldl merge c).file = c.file := by
  induction cs generalizing c with
  | nil => rfl
  | cons d cs ih => rw [List.foldl_cons, ih, file_merge]

/-- The entry has the file of the first cube of its name. -/
theorem file_mergedAll (cs : List Cube) :
    (mergedAll cs).map Cube.file = cs.head?.map Cube.file := by
  cases cs <;> simp [mergedAll]

/-- An entry that cannot be replaced by a cube of the list is merged with all of them. -/
theorem foldl_joined_some {c : Cube} {cs : List Cube}
    (h : c.external = false ∨ ∀ d ∈ cs, d.external = true) :
    cs.foldl joined (some c) = some (cs.foldl merge c) := by
  induction cs generalizing c with
  | nil => rfl
  | cons d cs ih =>
    have hstep : joined (some c) d = some (merge c d) := by
      have hkeeps : (c.external && !d.external) = false := by
        rcases h with h | h
        · simp [h]
        · simp [h d (List.mem_cons_self ..)]
      simp [joined, hkeeps]
    rw [List.foldl_cons, List.foldl_cons, hstep]
    refine ih (h.imp (fun h => ?_) fun h e he => h e (List.mem_cons_of_mem _ he))
    rw [external_merge, h]

/-- Cubes of manifests are merged to one. -/
theorem foldl_joined_external {cs : List Cube} (h : ∀ c ∈ cs, c.external = true) :
    cs.foldl joined none = mergedAll cs := by
  cases cs with
  | nil => rfl
  | cons c cs => exact foldl_joined_some (.inr fun d hd => h d (List.mem_cons_of_mem _ hd))

/-- A cube that no manifest declares takes the place of what manifests declare. -/
theorem joined_mergedAll {cs : List Cube} (h : ∀ c ∈ cs, c.external = true) {d : Cube}
    (hd : d.external = false) : joined (mergedAll cs) d = some d := by
  cases cs with
  | nil => rfl
  | cons c cs =>
    have hexternal : (cs.foldl merge c).external = true := by
      have hc := h c (List.mem_cons_self ..)
      clear h
      induction cs generalizing c with
      | nil => exact hc
      | cons e cs ih => exact ih _ (by rw [external_merge, hc])
    simp [mergedAll, joined, hexternal, hd]

/-- What the files declare of a name counts, and what the manifests declare only if no file does. -/
theorem foldl_joined_eq {known declared : List Cube} (hknown : ∀ c ∈ known, c.external = true)
    (hdeclared : ∀ c ∈ declared, c.external = false) :
    declared.foldl joined (known.foldl joined none) =
      (mergedAll declared).or (mergedAll known) := by
  rw [foldl_joined_external hknown]
  cases declared with
  | nil => rfl
  | cons d ds =>
    have hd := hdeclared d (List.mem_cons_self ..)
    rw [List.foldl_cons, joined_mergedAll hknown hd, foldl_joined_some (.inl hd)]
    rfl

end SymbolTable

/-! ## What manifests and files register -/

/-- The cubes and views that a manifest registers, in order. -/
def Manifest.declared (m : Manifest) (source : Text) : List Cube :=
  m.cubes.map (·.cube source false) ++ m.views.map (·.cube source true)

@[simp] theorem ManifestEntry.name_cube (e : ManifestEntry) (source : Text) (isView : Bool) :
    (e.cube source isView).name = e.name := by simp [ManifestEntry.cube]

@[simp] theorem ManifestEntry.external_cube (e : ManifestEntry) (source : Text) (isView : Bool) :
    (e.cube source isView).external = true := by simp [ManifestEntry.cube]

/-- The members that an entry lists. -/
def ManifestEntry.memberNames (e : ManifestEntry) : List Text := e.members.flatMap Prod.snd

theorem ManifestEntry.hasMember_cube {e : ManifestEntry} {source : Text} {isView : Bool}
    {name : Text} : (e.cube source isView).hasMember name = true ↔ name ∈ e.memberNames := by
  rw [ManifestEntry.cube, Cube.hasMember_addMembers, memberNames, List.map_flatMap]
  simp [Cube.hasMember_iff, Function.comp_def]

/-- What a manifest declares, as entries. -/
def Manifest.entries (m : Manifest) : List ManifestEntry := m.cubes ++ m.views

/-- The cubes that a manifest registers are those of its entries. -/
theorem Manifest.mem_declared {m : Manifest} {source : Text} {c : Cube} :
    c ∈ m.declared source → ∃ e ∈ m.entries, ∃ isView, c = e.cube source isView := by
  intro h
  rcases List.mem_append.1 h with h | h
  · obtain ⟨e, he, rfl⟩ := List.mem_map.1 h
    exact ⟨e, List.mem_append_left _ he, false, rfl⟩
  · obtain ⟨e, he, rfl⟩ := List.mem_map.1 h
    exact ⟨e, List.mem_append_right _ he, true, rfl⟩

theorem Manifest.exists_declared {m : Manifest} {e : ManifestEntry} (h : e ∈ m.entries)
    (source : Text) : ∃ isView, e.cube source isView ∈ m.declared source := by
  rcases List.mem_append.1 h with h | h
  · exact ⟨false, List.mem_append_left _ (List.mem_map_of_mem h)⟩
  · exact ⟨true, List.mem_append_right _ (List.mem_map_of_mem h)⟩

/-- What a file declares is named, comes from that file, and not from a manifest. -/
theorem Node.mem_declarations {n : Node} {file : Text} {c : Cube} (h : c ∈ n.declarations file) :
    c.external = false ∧ c.file = file := by
  obtain ⟨cursor, -, hc⟩ := List.mem_filterMap.1 h
  unfold declaration? at hc
  split at hc
  · obtain rfl := Option.some.inj hc
    simp
  · cases hc

namespace SymbolTable

theorem mem_context_addContext {t : SymbolTable} {added name : Text} :
    name ∈ (t.addContext added).context ↔ name ∈ t.context ∨ name = added := by
  unfold addContext
  split
  · rename_i h
    have hmem : added ∈ t.context := by simpa using h
    constructor
    · exact .inl
    · rintro (h | rfl)
      · exact h
      · exact hmem
  · simp

theorem foldl_addContext (names : List Text) (t : SymbolTable) :
    (names.foldl addContext t).entries = t.entries ∧
      ∀ name, name ∈ (names.foldl addContext t).context ↔ name ∈ t.context ∨ name ∈ names := by
  induction names generalizing t with
  | nil => simp
  | cons added names ih =>
    obtain ⟨hentries, hcontext⟩ := ih (t.addContext added)
    refine ⟨?_, fun name => ?_⟩
    · rw [List.foldl_cons, hentries]
      unfold addContext
      split <;> rfl
    · rw [List.foldl_cons, hcontext, mem_context_addContext, List.mem_cons, or_assoc]

/-- Applying a manifest registers what it declares, and then its context symbols. -/
theorem apply_eq (t : SymbolTable) (m : Manifest) (source : Text) :
    t.apply m source = m.context.foldl addContext (t.registering (m.declared source)) := by
  simp only [apply, registering, Manifest.declared, List.foldl_append, List.foldl_map]

theorem cube?_apply (t : SymbolTable) (m : Manifest) (source name : Text) :
    (t.apply m source).cube? name =
      (named name (m.declared source)).foldl joined (t.cube? name) := by
  rw [apply_eq, cube?, (foldl_addContext _ _).1, ← cube?, cube?_registering]

theorem nodup_apply {t : SymbolTable} (h : (t.entries.map Cube.name).Nodup) (m : Manifest)
    (source : Text) : ((t.apply m source).entries.map Cube.name).Nodup := by
  rw [apply_eq, (foldl_addContext _ _).1]
  exact nodup_registering h _

theorem mem_context_apply {t : SymbolTable} {m : Manifest} {source name : Text} :
    name ∈ (t.apply m source).context ↔ name ∈ t.context ∨ name ∈ m.context := by
  rw [apply_eq, (foldl_addContext _ _).2, context_registering]

/-! ## Looking up -/

/-- A name is resolved inside a declaration exactly if it is a context symbol, stands for the cube
being declared, is a member of that cube, or is the name of a cube. -/
theorem scope_eq_true {t : SymbolTable} {scope name : Text} :
    t.resolvers.scope scope name = true ↔ name ∈ t.context ∨ isCurrentCube name = true ∨
      (scope ≠ [] ∧ (t.cube? scope).any (·.hasMember name) = true) ∨
      (t.cube? name).isSome = true := by
  simp only [Resolvers.scope, resolvers, resolves, lookup, Bool.or_eq_true]
  by_cases hcontext : name ∈ t.context
  · simp [hcontext]
  by_cases hcurrent : isCurrentCube name = true
  · simp [hcurrent]
  rw [if_neg (by simpa using hcontext), if_neg hcurrent]
  simp only [hcontext, hcurrent, false_or, current?]
  by_cases hscope : scope = []
  · simp [hscope]
  rw [if_neg (by simpa using hscope)]
  cases t.cube? scope with
  | none => simp
  | some c =>
    cases hmember : c.member? name with
    | none => simp [Cube.hasMember, hmember]
    | some type => simp [Cube.hasMember, hmember, hscope]

end SymbolTable

end CubeSchema
