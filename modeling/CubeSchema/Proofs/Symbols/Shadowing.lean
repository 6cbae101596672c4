import CubeSchema.Proofs.Compilation.References
import CubeSchema.Proofs.Deferral.Counterparts
import CubeSchema.Proofs.Deferral.Parameters

/-!
# References and shadowed names

While a property is deferred, a name in it is resolved in the scope of its declaration: a context
symbol, a placeholder and a member of the declared cube come before a cube of the same name. The
references are listed afterwards, from the names of the parameters alone. `rewritten_references`
says which names are listed, in terms of the tree as it was before the pass, and for which of them
the name denotes the cube that is listed: for those that nothing shadows.
-/

namespace CubeSchema

open Deferral Node

/-! ## Counterparts of declarations and parameters -/

theorem Placed.declaredName?_eq {ok : ParamRule} {deep : Bool} {ds : List Declaration}
    {up edge : Edge} {n m : Node} (h : Placed ok deep ds up edge n m) :
    m.declaredName? = n.declaredName? := by
  cases h with
  | call _ hcallee hlength hargs =>
    exact hcallee.declaredName_call hlength (fun p hp => (hargs p hp).staticName_eq) _
  | declaration _ hcallee hlength hargs _ hbody =>
    exact hcallee.declaredName_call (by simp [hlength])
      (forall_zip_snoc (p := fun x y => y.staticName = x.staticName) hlength
        (fun p hp => (hargs p hp).staticName_eq) hbody.staticName_eq) _
  | _ => rfl

theorem Placed.name?_eq {ok : ParamRule} {deep : Bool} {ds : List Declaration} {up edge : Edge}
    {n m : Node} (h : Placed ok deep ds up edge n m) : m.name? = n.name? := by
  cases h <;> rfl

theorem Placed.paramNames_eq {ok : ParamRule} {deep : Bool} {ds : List Declaration}
    {up edge : Edge} {n m : Node} (h : Placed ok deep ds up edge n m) :
    m.paramNames = n.paramNames := by
  cases h with
  | function hlength hparams _ =>
    have hnames := map_eq_of_zip hlength fun p hp => (hparams p hp).name?_eq
    simpa [paramNames, List.filterMap_map, Function.comp_def] using
      congrArg (List.filterMap id) hnames
  | _ => rfl

theorem Placed.declares_iff {ok : ParamRule} {deep : Bool} {ds : List Declaration}
    {up edge : Edge} {n m : Node} (h : Placed ok deep ds up edge n m) {name : Text} :
    m.Declares name ↔ n.Declares name := by
  rw [← declaredName?_eq_some_iff, ← declaredName?_eq_some_iff, h.declaredName?_eq]

theorem Node.paramNames_deferred (params : List Text) (pos : Position) (x : Node) :
    (Node.deferred params pos x).paramNames = params := by
  simp [deferred, paramNames, List.filterMap_map, Function.comp_def, name?]

/-- Nothing that a pass adds is a declaration. -/
theorem Added.not_declares {ok : ParamRule} {c : Cursor} {y : Node} (h : Added ok c y)
    (name : Text) : ¬ y.Declares name := by
  rintro ⟨_, _, _, _, _, heq, -⟩
  cases h <;> cases heq

/-- The counterparts of the nodes at and below a cursor, from where this has one. -/
theorem IsImage.counterparts {ok : ParamRule} {c : Cursor} {y : Node} (h : IsImage ok c y) :
    Counterparts ok c.visits y.nodes :=
  Placed.counterparts h ⟨rfl, fun _ => rfl, fun _ => rfl⟩

namespace Node

/-- A declaration is visited in front of what is below it. -/
theorem Declares.mem_visits {c e : Cursor} {name : Text} (h : c.focus.Declares name)
    (he : e ∈ c.visits) : e = c ∨ e ∈ c.descendants := by
  obtain ⟨focus, above⟩ := c
  obtain ⟨_, _, _, _, _, heq, -⟩ := h
  obtain rfl : focus = _ := heq
  exact List.mem_cons.1 he

theorem Declares.paramNames_eq_nil {n : Node} {name : Text} (h : n.Declares name) :
    n.paramNames = [] := by
  obtain ⟨_, _, _, _, _, rfl, -⟩ := h
  rfl

end Node

theorem Cursor.Defers.not_declares {c : Cursor} {b : Text} (h : c.Defers b) (name : Text) :
    ¬ c.focus.Declares name := by
  rintro ⟨_, _, _, _, _, heq, -⟩
  obtain ⟨_, _, _, _, _, hfocus, -⟩ := h
  rw [heq] at hfocus
  cases hfocus

/-! ## What a declaration refers to -/

namespace SymbolTable

variable {t : SymbolTable}

/-- Every declaration accepts the name of a cube, whatever it denotes there. -/
theorem accepts_of_cube {b : Text} (hb : (t.cube? b).isSome = true) (d : Declaration)
    (key : Text) : d.accepts t.resolvers key b = true := by
  unfold Declaration.accepts
  split
  · exact hb
  · exact scope_eq_true.2 (.inr (.inr (.inr hb)))

/-- A cube is a parameter somewhere in what a pass makes of a node if it was one before, or if a
deferred value mentions it. -/
theorem exists_param_iff {b : Text} (hb : (t.cube? b).isSome = true) {c : Cursor} {y : Node}
    (h : IsImage (ExactParams t.resolvers) c y) :
    (∃ x ∈ y.nodes, b ∈ x.paramNames) ↔
      ∃ e ∈ c.visits, b ∈ e.focus.paramNames ∨ e.Defers b := by
  constructor
  · rintro ⟨x, hx, hparam⟩
    obtain ⟨e, he, himage | hadded⟩ := h.counterparts.of_result x hx
    · rw [Placed.paramNames_eq himage] at hparam
      exact ⟨e, he, .inl hparam⟩
    · cases hadded with
      | param => cases hparam
      | function hgains =>
        obtain ⟨pos, kpos, key, value, shorthand, hfocus, -, d, hd, hdefers, outer, hexact⟩ := hgains
        rw [paramNames_deferred, hexact.mem] at hparam
        exact ⟨e, he, .inr ⟨pos, kpos, key, value, shorthand, hfocus, ⟨d, hd, hdefers⟩, hparam.1⟩⟩
  · rintro ⟨e, he, hparam⟩
    obtain ⟨x, hx, himage⟩ := h.counterparts.of_source e he
    rcases hparam with hparam | ⟨pos, kpos, key, value, shorthand, hfocus, ⟨d, hd, hdefers⟩, hb'⟩
    · rw [← Placed.paramNames_eq himage] at hparam
      exact ⟨x, hx, hparam⟩
    · rw [IsImage, hfocus] at himage
      cases himage with
      | leaf hleaf => cases hleaf
      | field _ _ hlayers =>
        obtain ⟨outer, params, w, hok, hw⟩ := hlayers.exists_deferred hd hdefers
        refine ⟨_, mem_nodes_trans hx
          (List.mem_cons_of_mem _ (List.mem_append_right _ hw)), ?_⟩
        rw [paramNames_deferred, hok.mem]
        exact ⟨hb', accepts_of_cube hb d key⟩
      | property hnone _ _ =>
        rcases hnone with hnone | habsent
        · cases hnone
        · -- A value that is absent mentions nothing.
          cases value <;> first | (cases habsent; done) | cases hb'

/-- The references of a tree lead from the first name to the second one. -/
def Refers (t : SymbolTable) (n : Node) (a b : Text) : Prop :=
  ∃ targets, (a, targets) ∈ t.references n ∧ b ∈ targets

theorem refers_iff {n : Node} {a b : Text} : t.Refers n a b ↔
    b ≠ a ∧ (t.cube? b).isSome = true ∧
      ∃ y ∈ n.nodes, y.Declares a ∧ ∃ x ∈ y.nodes, b ∈ x.paramNames := by
  constructor
  · intro h
    obtain ⟨d, hd, rfl, hb⟩ := mem_references.1 h
    obtain ⟨c, hc, hfocus, hdeclares⟩ := mem_declaring.1 hd
    obtain ⟨hne, hcube, f, hf, -, hparam⟩ := mem_targets.1 (hfocus ▸ hb)
    exact ⟨hne, hcube, c.focus, mem_nodes_of_mem_visits hc, hdeclares, f.focus,
      mem_nodes_of_mem_visits (List.mem_of_mem_tail hf), hparam⟩
  · rintro ⟨hne, hcube, y, hy, hdeclares, x, hx, hparam⟩
    obtain ⟨c, hc, rfl⟩ := exists_visit_of_mem_nodes [] hy
    obtain ⟨f, hf, rfl⟩ := exists_visit_of_mem_nodes c.above hx
    have hbelow : f ∈ c.descendants := by
      refine (hdeclares.mem_visits hf).resolve_left ?_
      rintro rfl
      rw [hdeclares.paramNames_eq_nil] at hparam
      cases hparam
    have hkind : f.focus.kind = .function := kind_eq_function_of_mem_paramNames hparam
    exact mem_references.2 ⟨(a, c.focus), mem_declaring.2 ⟨c, hc, rfl, hdeclares⟩, rfl,
      mem_targets.2 ⟨hne, hcube, f, hbelow, hkind, hparam⟩⟩

/-- Inside a declaration the second name denotes something that comes before the cubes: a context
symbol, the declared cube, or one of its members. -/
def Shadows (t : SymbolTable) (a b : Text) : Prop :=
  b ∈ t.context ∨ isCurrentCube b = true ∨ ((t.cube? a).bind (·.member? b)).isSome = true

/-- The name of another cube denotes this cube unless something shadows it. -/
theorem lookup_cube_iff {a b : Text} (ha : a ≠ []) (hne : b ≠ a)
    (hcube : (t.cube? b).isSome = true) :
    (∃ c, t.lookup a b = some (.cube c) ∧ c.name = b) ↔ ¬ t.Shadows a b := by
  have hname : ∀ {name c}, t.cube? name = some c → c.name = name := fun h => by
    simpa using List.find?_some h
  have hcurrent : t.current? a = t.cube? a := if_neg (by simpa using ha)
  unfold lookup Shadows
  rw [hcurrent]
  split
  · rename_i hcontext
    simp [List.contains_iff_mem.1 hcontext]
  rename_i hcontext
  split
  · -- A placeholder denotes the declared cube, which has another name.
    rename_i hplaceholder
    refine iff_of_false ?_ (by simp [hplaceholder])
    rintro ⟨c, hc, rfl⟩
    obtain ⟨e, he, heq⟩ := Option.map_eq_some_iff.1 hc
    obtain rfl : e = c := by simpa using heq
    exact hne (hname he)
  rename_i hplaceholder
  have hsymbol : ((t.cube? a).bind fun c => (c.member? b).map (Symbol.member b c)).isSome =
      ((t.cube? a).bind (·.member? b)).isSome := by
    cases t.cube? a <;> simp
  cases hmember : (t.cube? a).bind fun c => (c.member? b).map (Symbol.member b c) with
  | some s =>
    rw [hmember, Option.isSome_some] at hsymbol
    refine iff_of_false ?_ (by simp [← hsymbol])
    -- It denotes a member of the declared cube.
    rintro ⟨c, hc, -⟩
    obtain ⟨e, -, he⟩ := Option.bind_eq_some_iff.1 hmember
    obtain ⟨type, -, rfl⟩ := Option.map_eq_some_iff.1 he
    cases hc
  | none =>
    rw [hmember, Option.isSome_none] at hsymbol
    obtain ⟨c, hc⟩ := Option.isSome_iff_exists.1 hcube
    have hcontext' : b ∉ t.context := by simpa using hcontext
    exact iff_of_true ⟨c, by simp [hc], hname hc⟩ (by simp [← hsymbol, hcontext', hplaceholder])

/-- After a pass a declaration refers to another cube if a function inside it took the name of this
cube before, or if a declaration around a property inside it defers the property and its value
mentions the name. The name denotes this cube there exactly if nothing shadows it. -/
theorem rewritten_references (t : SymbolTable) (n : Node) (h : n.all isTyped = true) (a b : Text) :
    (t.Refers (run t.resolvers n).val a b ↔ b ≠ a ∧ (t.cube? b).isSome = true ∧
      ∃ c ∈ n.visits [], c.focus.Declares a ∧
        ∃ e ∈ c.descendants, b ∈ e.focus.paramNames ∨ e.Defers b) ∧
    (t.Refers (run t.resolvers n).val a b →
      ((∃ c, t.lookup a b = some (.cube c) ∧ c.name = b) ↔ ¬ t.Shadows a b)) := by
  have hroot : IsImage (ExactParams t.resolvers) (Cursor.root n) (run t.resolvers n).val :=
    run_params_exact t.resolvers n h
  constructor
  · rw [refers_iff]
    refine and_congr_right fun _ => and_congr_right fun hb => ?_
    constructor
    · rintro ⟨y, hy, hdeclares, hparam⟩
      obtain ⟨c, hc, himage | hadded⟩ := hroot.counterparts.of_result y hy
      · have hdeclares' := (Placed.declares_iff himage).1 hdeclares
        obtain ⟨e, he, hparam⟩ := (exists_param_iff hb himage).1 hparam
        refine ⟨c, hc, hdeclares', e, (hdeclares'.mem_visits he).resolve_left ?_, hparam⟩
        -- The declaration itself is neither a function nor a property.
        rintro rfl
        rcases hparam with hparam | hdefers
        · rw [hdeclares'.paramNames_eq_nil] at hparam
          cases hparam
        · exact hdefers.not_declares a hdeclares'
      · exact absurd hdeclares (hadded.not_declares a)
    · rintro ⟨c, hc, hdeclares, e, he, hparam⟩
      obtain ⟨y, hy, himage⟩ := hroot.counterparts.of_source c hc
      exact ⟨y, hy, (Placed.declares_iff himage).2 hdeclares,
        (exists_param_iff hb himage).2 ⟨e, List.mem_of_mem_tail he, hparam⟩⟩
  · intro hrefers
    obtain ⟨hne, hcube, y, -, ⟨_, _, _, _, _, -, -, -, -, ha⟩, -⟩ := refers_iff.1 hrefers
    exact lookup_cube_iff ha hne hcube

/-- A cube with a measure that has the name of another cube, and with a property that mentions this
name and that of a third cube. -/
def homonymousMeasure : Node :=
  let named (s : String) : Node := .identifier .unknown (lit s)
  let cube (s : String) (entries : List Node) : Node :=
    .exprStmt (.call (named "cube") [.stringLiteral .unknown (lit s) [], .object .unknown entries]
      false)
  .program .unknown
    [cube "A" [.entry "measures" (.object .unknown [.entry "B" (.object .unknown [])]),
        .entry "sql" (.array .unknown [named "B", named "C"])],
      cube "B" [], cube "C" []]

/-- The table after its declarations have been collected. -/
def homonyms : SymbolTable := (collect {} (lit "a.js") homonymousMeasure).1

/-- The cube refers to the third one, whose name denotes it there. -/
theorem homonymousMeasure_references : homonymousMeasure.all isTyped = true ∧
    homonyms.Refers (run homonyms.resolvers homonymousMeasure).val (lit "A") (lit "C") ∧
    ∃ c, homonyms.lookup (lit "A") (lit "C") = some (.cube c) ∧ c.name = lit "C" := by
  have htyped : homonymousMeasure.all isTyped = true := by decide
  have hrefers : ∃ d ∈ (run homonyms.resolvers homonymousMeasure).val.declaring, d.1 = lit "A" ∧
      lit "C" ∈ homonyms.targets (lit "A") d.2 := by decide +kernel
  have hclear : ¬ homonyms.Shadows (lit "A") (lit "C") := by
    unfold Shadows
    decide +kernel
  have hexact := rewritten_references homonyms homonymousMeasure htyped (lit "A") (lit "C")
  exact ⟨htyped, mem_references.2 hrefers, (hexact.2 (mem_references.2 hrefers)).2 hclear⟩

/-- The cube refers to the second one too, though the name denotes its own measure there and no
property extends a cube. -/
theorem measure_taken_for_cube : ∃ t n, n.all isTyped = true ∧
    (∀ m ∈ n.nodes, m.keyName? ≠ some extendsField) ∧
    SymbolTable.Refers t (run t.resolvers n).val (lit "A") (lit "B") ∧
    ∃ owner, t.lookup (lit "A") (lit "B") = some (.member (lit "B") owner .measure) := by
  have hrefers : ∃ d ∈ (run homonyms.resolvers homonymousMeasure).val.declaring, d.1 = lit "A" ∧
      lit "B" ∈ homonyms.targets (lit "A") d.2 := by decide +kernel
  exact ⟨homonyms, homonymousMeasure, by decide, by decide, mem_references.2 hrefers,
    { name := lit "A", file := lit "a.js", members := [(lit "B", .measure)] }, by decide +kernel⟩

end SymbolTable

end CubeSchema
