import CubeSchema.Proofs.Graph.Edges
import CubeSchema.Proofs.Tree.Mentions
import CubeSchema.Proofs.Tree.Nodes

/-!
# What is listed as references

The references of a tree are listed in one go through its declarations. Declarations of one name,
and declarations inside of others, work on the same record. `Listed` says what the record holds
after some of them: one list for every name, strictly sorted, of what any of its declarations refers
to. Every further declaration keeps this true of all declarations so far, so it is true of the tree.
-/

namespace CubeSchema

/-! ## Texts that are new -/

namespace Text

theorem mem_appendNew {seen ts : List Text} {t : Text} :
    t ∈ appendNew seen ts ↔ t ∈ seen ∨ t ∈ ts := by
  unfold appendNew
  induction ts generalizing seen with
  | nil => simp
  | cons u ts ih =>
    rw [List.foldl_cons, ih]
    split
    · rename_i hu
      have hu : u ∈ seen := by simpa using hu
      grind
    · simp [or_assoc]

theorem nodup_appendNew {seen : List Text} (h : seen.Nodup) (ts : List Text) :
    (appendNew seen ts).Nodup := by
  unfold appendNew
  induction ts generalizing seen with
  | nil => exact h
  | cons u ts ih =>
    rw [List.foldl_cons]
    split
    · exact ih h
    · rename_i hu
      exact ih (nodup_snoc h (by simpa using hu))

theorem distinct_snoc (ts : List Text) (t : Text) :
    distinct (ts ++ [t]) = if t ∈ distinct ts then distinct ts else distinct ts ++ [t] := by
  simp [distinct, List.foldl_append]

end Text

/-! ## The record -/

theorem map_fst_listUnder (name : Text) (ts : List Text) (refs : List (Text × List Text)) :
    (listUnder name ts refs).map Prod.fst =
      if name ∈ refs.map Prod.fst then refs.map Prod.fst else refs.map Prod.fst ++ [name] := by
  induction refs with
  | nil => rfl
  | cons r refs ih =>
    rw [listUnder]
    by_cases hr : r.1 = name
    · rw [if_pos hr, if_pos (by simp [hr])]
      simp [hr]
    · have hne : name ≠ r.1 := Ne.symm hr
      rw [if_neg hr, List.map_cons, List.map_cons, ih]
      simp only [List.mem_cons, hne, false_or]
      split <;> rfl

/-- The list of one name is new, and those of the other names are as before. -/
theorem mem_listUnder {name : Text} {ts : List Text} {refs : List (Text × List Text)}
    (h : (refs.map Prod.fst).Nodup) {r : Text × List Text} :
    r ∈ listUnder name ts refs ↔ r = (name, ts) ∨ r ∈ refs ∧ r.1 ≠ name := by
  induction refs with
  | nil => simp [listUnder]
  | cons s refs ih =>
    rw [List.map_cons, List.nodup_cons] at h
    rw [listUnder]
    by_cases hs : s.1 = name
    · -- Of the names behind it, none is this one.
      have hrest : ∀ r ∈ refs, r.1 ≠ name := by
        rintro r hr rfl
        exact h.1 (hs ▸ List.mem_map_of_mem hr)
      rw [if_pos hs, List.mem_cons, List.mem_cons]
      constructor
      · exact Or.imp_right fun hr => ⟨.inr hr, hrest r hr⟩
      · rintro (rfl | ⟨rfl | hr, hne⟩)
        · exact .inl rfl
        · exact absurd hs hne
        · exact .inr hr
    · rw [if_neg hs, List.mem_cons, ih h.2, List.mem_cons]
      constructor
      · rintro (rfl | rfl | ⟨hr, hne⟩)
        · exact .inr ⟨.inl rfl, hs⟩
        · exact .inl rfl
        · exact .inr ⟨.inr hr, hne⟩
      · rintro (rfl | ⟨rfl | hr, hne⟩)
        · exact .inr (.inl rfl)
        · exact .inl rfl
        · exact .inr (.inr ⟨hr, hne⟩)

namespace SymbolTable

/-- The record after some declarations. -/
structure Listed (t : SymbolTable) (ds : List (Text × Node)) (refs : List (Text × List Text)) :
    Prop where
  /-- Every declared name is listed once, in source order. -/
  keys : refs.map Prod.fst = Text.distinct (ds.map Prod.fst)
  /-- Every list is sorted, and holds nothing twice. -/
  sorted : ∀ r ∈ refs, r.2.Pairwise (· < ·)
  /-- A name has what any of its declarations refers to. -/
  targets : ∀ r ∈ refs, ∀ p, p ∈ r.2 ↔ ∃ d ∈ ds, d.1 = r.1 ∧ p ∈ t.targets r.1 d.2

namespace Listed

variable {t : SymbolTable} {ds : List (Text × Node)} {refs : List (Text × List Text)}

theorem nil : Listed t [] [] := ⟨rfl, by simp, by simp⟩

theorem nodup_keys (h : Listed t ds refs) : (refs.map Prod.fst).Nodup :=
  h.keys ▸ (Text.distinct_spec _).nodup

theorem mem_keys (h : Listed t ds refs) {name : Text} :
    name ∈ refs.map Prod.fst ↔ ∃ d ∈ ds, d.1 = name := by
  rw [h.keys, (Text.distinct_spec _).mem, List.mem_map]

/-- A name from whose list a declaration goes on: its list so far, or the empty one. -/
theorem seen (h : Listed t ds refs) (name : Text) :
    ((refs.lookup name).getD []).Nodup ∧
      ∀ p, p ∈ (refs.lookup name).getD [] ↔ ∃ d ∈ ds, d.1 = name ∧ p ∈ t.targets name d.2 := by
  cases hlookup : refs.lookup name with
  | some ps =>
    have hmem : (name, ps) ∈ refs := by
      obtain ⟨l₁, l₂, heq, -⟩ := List.lookup_eq_some_iff.1 hlookup
      exact heq ▸ List.mem_append_right _ (List.mem_cons_self ..)
    exact ⟨Text.nodup_of_strict (h.sorted _ hmem), h.targets _ hmem⟩
  | none =>
    refine ⟨List.nodup_nil, fun p => iff_of_false List.not_mem_nil ?_⟩
    rintro ⟨d, hd, hname, -⟩
    obtain ⟨r, hr, heq⟩ := List.mem_map.1 (h.mem_keys.2 ⟨d, hd, hname⟩)
    exact absurd heq.symm (by simpa using List.lookup_eq_none_iff.1 hlookup r hr)

/-- One more declaration. -/
theorem snoc (h : Listed t ds refs) (d : Text × Node) :
    Listed t (ds ++ [d]) (t.listing refs d) := by
  obtain ⟨hnodup, hseen⟩ := h.seen d.1
  refine ⟨?_, fun r hr => ?_, fun r hr p => ?_⟩
  · rw [listing, map_fst_listUnder, h.keys, List.map_append]
    exact (Text.distinct_snoc _ _).symm
  · rcases (mem_listUnder h.nodup_keys).1 hr with rfl | ⟨hr, -⟩
    · exact Text.strict_sort (Text.nodup_appendNew hnodup _)
    · exact h.sorted r hr
  · simp only [List.mem_append, List.mem_singleton, or_and_right, exists_or, exists_eq_left]
    rcases (mem_listUnder h.nodup_keys).1 hr with rfl | ⟨hr, hne⟩
    · rw [Text.mem_sort, Text.mem_appendNew, hseen]
      simp
    · -- The new declaration is one of another name.
      rw [h.targets r hr]
      exact ⟨.inl, fun hp => hp.elim id fun hnew => absurd hnew.1.symm hne⟩

/-- Any number of further declarations. -/
theorem foldl (h : Listed t ds refs) (more : List (Text × Node)) :
    Listed t (ds ++ more) (more.foldl t.listing refs) := by
  induction more generalizing ds refs with
  | nil => simpa using h
  | cons d more ih => simpa using ih (h.snoc d)

end Listed

theorem listed_references (t : SymbolTable) (n : Node) :
    Listed t n.declaring (t.references n) := Listed.nil.foldl n.declaring

theorem map_fst_references (t : SymbolTable) (n : Node) :
    (t.references n).map Prod.fst = Text.distinct n.declaredNames := by
  rw [(t.listed_references n).keys, n.map_fst_declaring]

/-- What is listed for a name is what any of its declarations refers to. -/
theorem mem_references {t : SymbolTable} {n : Node} {a b : Text} :
    (∃ targets, (a, targets) ∈ t.references n ∧ b ∈ targets) ↔
      ∃ d ∈ n.declaring, d.1 = a ∧ b ∈ t.targets a d.2 := by
  have hlisted := t.listed_references n
  constructor
  · rintro ⟨targets, hmem, hb⟩
    exact (hlisted.targets _ hmem b).1 hb
  · rintro ⟨d, hd, hname, hb⟩
    obtain ⟨⟨_, targets⟩, hmem, rfl⟩ := List.mem_map.1 (hlisted.mem_keys.2 ⟨d, hd, hname⟩)
    exact ⟨targets, hmem, (hlisted.targets _ hmem b).2 ⟨d, hd, hname, hb⟩⟩

end SymbolTable

/-! ## Declarations and the functions in them -/

namespace Node

/-- A call of `cube` or `view` with at least two arguments, the first of which is the name, known
and not empty. -/
def Declares (n : Node) (name : Text) : Prop :=
  ∃ pos callee first rest optional, n = call (identifier pos callee) (first :: rest) optional ∧
    (callee = lit "cube" ∨ callee = lit "view") ∧ rest ≠ [] ∧
    first.staticName = name ∧ name ≠ []

theorem declares?_eq_some_iff {n : Node} {name : Text} {isView : Bool} :
    n.declares? = some (name, isView) ↔
      ∃ pos callee first rest optional, n = call (identifier pos callee) (first :: rest) optional ∧
        (callee = lit "cube" ∧ isView = false ∨ callee = lit "view" ∧ isView = true) ∧ rest ≠ [] ∧
        first.staticName = name ∧ name ≠ [] := by
  -- The two words differ, so that the flag of a call tells which of them it is.
  have hview : decide (lit "cube" = lit "view") = false := by decide
  constructor
  · intro h
    unfold declares? at h
    split at h
    · rename_i pos callee first second rest optional
      split at h
      · rename_i hcall
        obtain ⟨rfl, rfl⟩ := Prod.mk.inj (Option.some.inj h)
        simp only [Bool.and_eq_true, Bool.or_eq_true, decide_eq_true_eq, Bool.not_eq_true',
          List.isEmpty_eq_false_iff] at hcall
        refine ⟨pos, callee, first, second :: rest, optional, rfl, ?_, by simp, rfl, hcall.2⟩
        exact hcall.1.imp (fun h => ⟨h, by rw [h, hview]⟩) fun h => ⟨h, by simp [h]⟩
      · cases h
    · cases h
  · rintro ⟨pos, callee, first, rest, optional, rfl, hcallee, hrest, rfl, hname⟩
    obtain ⟨second, rest, rfl⟩ := List.exists_cons_of_ne_nil hrest
    rw [declares?, if_pos (by simpa [hname] using hcallee.imp And.left And.left)]
    rcases hcallee with ⟨rfl, rfl⟩ | ⟨rfl, rfl⟩
    · rw [hview]
    · simp

theorem declaredName?_eq_some_iff {n : Node} {name : Text} :
    n.declaredName? = some name ↔ n.Declares name := by
  rw [declaredName?, Option.map_eq_some_iff]
  constructor
  · rintro ⟨⟨declared, isView⟩, hdeclares, rfl⟩
    obtain ⟨pos, callee, first, rest, optional, rfl, hcallee, hrest⟩ :=
      declares?_eq_some_iff.1 hdeclares
    exact ⟨pos, callee, first, rest, optional, rfl, hcallee.imp And.left And.left, hrest⟩
  · rintro ⟨pos, callee, first, rest, optional, rfl, hcallee, hrest⟩
    rcases hcallee with rfl | rfl
    · exact ⟨(name, false), declares?_eq_some_iff.2
        ⟨pos, _, first, rest, optional, rfl, .inl ⟨rfl, rfl⟩, hrest⟩, rfl⟩
    · exact ⟨(name, true), declares?_eq_some_iff.2
        ⟨pos, _, first, rest, optional, rfl, .inr ⟨rfl, rfl⟩, hrest⟩, rfl⟩

theorem mem_declaring {n : Node} {d : Text × Node} :
    d ∈ n.declaring ↔ ∃ c ∈ n.visits [], c.focus = d.2 ∧ c.focus.Declares d.1 := by
  rw [declaring, List.mem_filterMap]
  refine exists_congr fun c => and_congr_right fun _ => ?_
  rw [← declaredName?_eq_some_iff, declaredName?, Option.map_eq_some_iff, Option.map_eq_some_iff]
  constructor
  · rintro ⟨x, hx, rfl⟩
    exact ⟨rfl, x, hx, rfl⟩
  · rintro ⟨hfocus, x, hx, hname⟩
    exact ⟨x, hx, Prod.ext hname hfocus⟩

/-- The nodes below a cursor do not depend on the way to it. -/
theorem map_focus_descendants (c : Cursor) :
    c.descendants.map Cursor.focus = c.focus.nodes.tail := by
  rw [Cursor.descendants, List.map_tail, Cursor.visits, map_focus_visits]

/-- Only functions have parameters. -/
theorem kind_eq_function_of_mem_paramNames {n : Node} {p : Text} (h : p ∈ n.paramNames) :
    n.kind = .function := by
  cases n <;> first | rfl | cases h

theorem mem_parametersWithin {c : Cursor} {p : Text} :
    p ∈ c.focus.parametersWithin ↔ ∃ f ∈ c.descendants, p ∈ f.focus.paramNames := by
  have hfocus : (Cursor.root c.focus).descendants.map Cursor.focus =
      c.descendants.map Cursor.focus := by
    rw [map_focus_descendants, map_focus_descendants, Cursor.root]
  have hflat : c.focus.parametersWithin = c.descendants.flatMap fun f => f.focus.paramNames := by
    rw [parametersWithin, ← List.flatMap_map, hfocus, List.flatMap_map]
  rw [hflat, List.mem_flatMap]

end Node

namespace SymbolTable

/-- A declaration refers to what a function inside it takes as a parameter, if this is another cube.
-/
theorem mem_targets {t : SymbolTable} {name p : Text} {c : Cursor} :
    p ∈ t.targets name c.focus ↔ p ≠ name ∧ (t.cube? p).isSome = true ∧
      ∃ f ∈ c.descendants, f.focus.kind = .function ∧ p ∈ f.focus.paramNames := by
  rw [targets, List.mem_filter, Node.mem_parametersWithin, Bool.and_eq_true, decide_eq_true_eq,
    resolvesCube]
  constructor
  · rintro ⟨⟨f, hf, hp⟩, hne, hcube⟩
    exact ⟨hne, hcube, f, hf, Node.kind_eq_function_of_mem_paramNames hp, hp⟩
  · rintro ⟨hne, hcube, f, hf, -, hp⟩
    exact ⟨⟨f, hf, hp⟩, hne, hcube⟩

/-- References are listed for exactly the declared names, once for each. The list of a name is
strictly sorted, and holds exactly the other cubes of the table that a function inside one of its
declarations takes as a parameter. -/
theorem references_exact (t : SymbolTable) (n : Node) :
    ((t.references n).map Prod.fst).Nodup ∧
    (∀ a, a ∈ (t.references n).map Prod.fst ↔ ∃ c ∈ n.visits [], c.focus.Declares a) ∧
    ∀ a ps, (a, ps) ∈ t.references n → ps.Pairwise (· < ·) ∧
      ∀ p, p ∈ ps ↔ p ≠ a ∧ (t.cube? p).isSome = true ∧
        ∃ c ∈ n.visits [], c.focus.Declares a ∧
          ∃ f ∈ c.descendants, f.focus.kind = .function ∧ p ∈ f.focus.paramNames := by
  have hlisted := t.listed_references n
  refine ⟨hlisted.nodup_keys, fun a => ?_, fun a ps hmem => ⟨hlisted.sorted _ hmem, fun p => ?_⟩⟩
  · rw [hlisted.mem_keys]
    constructor
    · rintro ⟨d, hd, rfl⟩
      obtain ⟨c, hc, -, hdeclares⟩ := Node.mem_declaring.1 hd
      exact ⟨c, hc, hdeclares⟩
    · rintro ⟨c, hc, hdeclares⟩
      exact ⟨(a, c.focus), Node.mem_declaring.2 ⟨c, hc, rfl, hdeclares⟩, rfl⟩
  · rw [hlisted.targets _ hmem]
    constructor
    · rintro ⟨d, hd, rfl, hp⟩
      obtain ⟨c, hc, hfocus, hdeclares⟩ := Node.mem_declaring.1 hd
      obtain ⟨hne, hcube, hfunction⟩ := mem_targets.1 (hfocus ▸ hp)
      exact ⟨hne, hcube, c, hc, hdeclares, hfunction⟩
    · rintro ⟨hne, hcube, c, hc, hdeclares, hfunction⟩
      exact ⟨(a, c.focus), Node.mem_declaring.2 ⟨c, hc, rfl, hdeclares⟩, rfl,
        mem_targets.2 ⟨hne, hcube, hfunction⟩⟩

/-- A cube that is declared twice, with another cube inside of its first declaration. -/
def entwinedCubes : Node :=
  let name (s : String) : Node := .identifier .unknown (lit s)
  let cube (s : String) (params : List String) (body : Node) : Node :=
    .call (name "cube") [.stringLiteral .unknown (lit s) [],
      .function .unknown (params.map name) body false] false
  .program .unknown
    [.exprStmt (cube "A" ["C"] (cube "C" ["A", "D"] .absent)),
      .exprStmt (cube "A" ["C", "B"] .absent)]

/-- A table that knows the outer cube and one that it refers to. -/
def outerCubes : SymbolTable := { entries := [{ name := lit "A" }, { name := lit "B" }] }

/-- The cube refers to what a function in its second declaration takes, and neither to itself nor to
what is no cube, though a function inside the inner cube takes both. -/
theorem entwinedCubes_references : ∃ ps, (lit "A", ps) ∈ outerCubes.references entwinedCubes ∧
    ps.Pairwise (· < ·) ∧ lit "B" ∈ ps ∧ lit "A" ∉ ps ∧ lit "D" ∉ ps := by
  have hreferred : ∃ d ∈ entwinedCubes.declaring, d.1 = lit "A" ∧
      lit "B" ∈ outerCubes.targets (lit "A") d.2 := by decide +kernel
  obtain ⟨ps, hmem, hb⟩ := mem_references.2 hreferred
  obtain ⟨hsorted, hexact⟩ := (references_exact outerCubes entwinedCubes).2.2 _ _ hmem
  exact ⟨ps, hmem, hsorted, hb, fun ha => ((hexact _).1 ha).1 rfl,
    fun hd => absurd ((hexact _).1 hd).2.1 (by decide)⟩

end SymbolTable

end CubeSchema
