import CubeSchema.Proofs.Deferral.Placement

/-!
# The parameters of deferred functions

The parameters of a function that a pass adds are the accepted names of the value as it was before
the pass. Later walks collect their names from trees to which earlier ones have added functions.
This makes no difference, as an added function has only parameters that its value mentions already:
the names that a tree mentions stay the same throughout, though not their order.
-/

namespace CubeSchema

open Deferral Node

/-- The parameters are the accepted names of the value, each once. For a declaration that stands in
no other one they are in the order of first occurrence, unless the value names an extended cube. -/
structure ExactParams (r : Resolvers) (outer : List Declaration) (d : Declaration) (key : Text)
    (value : Node) (params : List Text) : Prop where
  /-- No name is listed twice. -/
  nodup : params.Nodup
  /-- The names are those that the value mentions and the declaration accepts. -/
  mem : ∀ x, x ∈ params ↔ x ∈ value.mentions ∧ d.accepts r key x = true
  /-- What the value mentions first is listed first. -/
  sorted : outer = [] → key ≠ extendsField →
    params.Pairwise fun a b => value.mentions.idxOf a < value.mentions.idxOf b

/-! ## Names are kept -/

theorem mem_mentionsAll_iff {ns ms : List Node} {x : Text} (hlength : ms.length = ns.length)
    (h : ∀ p ∈ ns.zip ms, (x ∈ p.2.mentions ↔ x ∈ p.1.mentions)) :
    x ∈ mentionsAll ms ↔ x ∈ mentionsAll ns := by
  induction ns generalizing ms with
  | nil => rw [List.eq_nil_of_length_eq_zero hlength]
  | cons n ns ih =>
    cases ms with
    | nil => simp at hlength
    | cons m ms =>
      have hm := h (n, m) (List.mem_cons_self ..)
      have hms := ih (Nat.succ.inj hlength) fun p hp => h p (List.mem_cons_of_mem _ hp)
      rw [mentionsAll, mentionsAll, List.mem_append, List.mem_append, hm, hms]

theorem mentions_deferred (params : List Text) (pos : Position) (x : Node) :
    (Node.deferred params pos x).mentions = params ++ x.mentions := by
  have hparams : mentionsAll (params.map fun p => identifier .unknown p) = params := by
    induction params with
    | nil => rfl
    | cons p params ih => rw [List.map_cons, mentionsAll, ih, mentions, List.singleton_append]
  rw [deferred, mentions, hparams]

/-- Layers mention what the value mentions. -/
theorem Layered.mem_mentions {ok : ParamRule}
    (hok : ∀ ds d key value params, ok ds d key value params → ∀ x ∈ params, x ∈ value.mentions)
    {key : Text} {up : Edge} {value x y : Node} {ds : List Declaration}
    (h : Layered ok key up value ds x y) {name : Text}
    (hx : name ∈ x.mentions ↔ name ∈ value.mentions) :
    name ∈ y.mentions ↔ name ∈ value.mentions := by
  induction h with
  | nil => exact hx
  | skip _ _ ih => exact ih hx
  | wrap _ hparams _ ih =>
    rw [mentions_deferred, List.mem_append, ih hx]
    exact ⟨fun h => h.elim (hok _ _ _ _ _ hparams name) id, .inr⟩

/-- The names that a tree mentions are kept when functions are put in place. -/
theorem Placed.mem_mentions {ok : ParamRule}
    (hok : ∀ ds d key value params, ok ds d key value params → ∀ x ∈ params, x ∈ value.mentions)
    {deep : Bool} {ds : List Declaration} {up edge : Edge} {n m : Node}
    (h : Placed ok deep ds up edge n m) (name : Text) :
    name ∈ m.mentions ↔ name ∈ n.mentions := by
  induction h with
  | leaf _ => rfl
  | program hlength _ ih => exact mem_mentionsAll_iff hlength ih
  | varDecl _ _ ihname ihinit =>
    rw [mentions, mentions, List.mem_append, List.mem_append, ihname, ihinit]
  | exprStmt _ ih => exact ih
  | templateLiteral hlength _ ih => exact mem_mentionsAll_iff hlength ih
  | array hlength _ ih => exact mem_mentionsAll_iff hlength ih
  | object hlength _ ih => exact mem_mentionsAll_iff hlength ih
  -- A layer adds parameters, which the value mentions already.
  | @field _ _ _ pos kpos key value x value' shorthand _ _ hlayers ih =>
    have hvalue := hlayers.mem_mentions hok ih
    simp only [mentions, List.mem_append, hvalue]
  | property _ _ _ ihkey ihvalue =>
    rw [mentions, mentions, List.mem_append, List.mem_append, ihkey, ihvalue]
  | spread _ ih => exact ih
  | member _ hprop ihobj ihprop =>
    rw [mentions, mentions, List.mem_append, List.mem_append, ihobj, unlessField, unlessField,
      hprop.kind]
    split
    · rfl
    · rw [ihprop]
  | call _ _ hlength _ ihcallee ihargs =>
    rw [mentions, mentions, List.mem_append, List.mem_append, ihcallee,
      mem_mentionsAll_iff hlength ihargs]
  -- The last argument of a declaration is its body, the others are placed like any argument.
  | declaration _ _ hlength _ _ _ ihcallee ihargs ihbody =>
    have hargs := mem_mentionsAll_iff (by simp [hlength])
      (forall_zip_snoc (p := fun n m => name ∈ m.mentions ↔ name ∈ n.mentions) hlength ihargs
        ihbody)
    rw [mentions, mentions, List.mem_append, List.mem_append, ihcallee, hargs]
  | function hlength _ _ ihparams ihbody =>
    rw [mentions, mentions, List.mem_append, List.mem_append, ihbody,
      mem_mentionsAll_iff hlength ihparams]
  | binary _ _ ihl ihr =>
    rw [mentions, mentions, List.mem_append, List.mem_append, ihl, ihr]
  | unary _ ih => exact ih
  | paren _ ih => exact ih

/-! ## Outermost declarations -/

theorem eq_of_zip {ns ms : List Node} (hlength : ms.length = ns.length)
    (h : ∀ p ∈ ns.zip ms, p.2 = p.1) : ms = ns := by
  have hmap : ms.map id = ns.map id := map_eq_of_zip hlength h
  rwa [List.map_id, List.map_id] at hmap

/-- Before a walk over the first declaration nothing has changed. -/
theorem Placed.eq_of_nil {ok : ParamRule} {ds : List Declaration} {up edge : Edge} {n m : Node}
    (h : Placed ok false ds up edge n m) (hds : ds = []) : m = n := by
  induction h with
  | leaf _ => rfl
  | program hlength _ ih => rw [eq_of_zip hlength fun p hp => ih p hp hds]
  | varDecl _ _ ihname ihinit => rw [ihname hds, ihinit hds]
  | exprStmt _ ih => rw [ih hds]
  | templateLiteral hlength _ ih => rw [eq_of_zip hlength fun p hp => ih p hp hds]
  | array hlength _ ih => rw [eq_of_zip hlength fun p hp => ih p hp hds]
  | object hlength _ ih => rw [eq_of_zip hlength fun p hp => ih p hp hds]
  -- Without a declaration there is no layer to put around the value.
  | field _ _ hlayers ih =>
    subst hds
    cases hlayers
    rw [ih rfl]
    simp
  | property _ _ _ ihkey ihvalue => rw [ihkey hds, ihvalue hds]
  | spread _ ih => rw [ih hds]
  | member _ _ ihobj ihprop => rw [ihobj hds, ihprop hds]
  | call _ _ hlength _ ihcallee ihargs =>
    rw [ihcallee hds, eq_of_zip hlength fun p hp => ihargs p hp hds]
  | declaration _ _ hlength _ _ _ ihcallee ihargs ihbody =>
    rw [ihcallee hds, ihbody hds, eq_of_zip hlength fun p hp => ihargs p hp hds]
  | function hlength _ _ ihparams ihbody =>
    rw [ihbody hds, eq_of_zip hlength fun p hp => ihparams p hp hds]
  | binary _ _ ihl ihr => rw [ihl hds, ihr hds]
  | unary _ ih => rw [ih hds]
  | paren _ ih => rw [ih hds]

/-! ## Exactness -/

/-- What occurs first among the accepted names occurs first among all names. -/
theorem idxOf_lt_of_filter {p : Text → Bool} {ts : List Text} {a b : Text} (ha : p a = true)
    (hb : p b = true) (h : (ts.filter p).idxOf a < (ts.filter p).idxOf b) :
    ts.idxOf a < ts.idxOf b := by
  induction ts with
  | nil => simp at h
  | cons t ts ih =>
    by_cases hta : t = a
    · subst hta
      have hne : t ≠ b := by
        rintro rfl
        omega
      rw [List.idxOf_cons_self, List.idxOf_cons_ne _ hne]
      omega
    · have htb : t ≠ b := by
        rintro rfl
        rw [List.filter_cons_of_pos hb, List.idxOf_cons_self] at h
        omega
      rw [List.idxOf_cons_ne _ hta, List.idxOf_cons_ne _ htb]
      refine Nat.succ_lt_succ (ih ?_)
      by_cases ht : p t = true
      · rw [List.filter_cons_of_pos ht, List.idxOf_cons_ne _ hta, List.idxOf_cons_ne _ htb] at h
        omega
      · rwa [List.filter_cons_of_neg ht] at h

/-- The names collected are exact, whatever walks have been made before. -/
theorem collects_exactParams (r : Resolvers) : Collects r (ExactParams r) where
  extending ds scope key value params h := ⟨h.nodup, h.mem, h.sorted⟩
  collects before ds d key up edge value x y hbefore hplaced hlayers := by
    have hsub : ∀ ds d key value params, ExactParams r ds d key value params →
        ∀ x ∈ params, x ∈ value.mentions := fun _ _ _ _ _ h x hx => ((h.mem x).1 hx).1
    have hspec := identifiers_spec (d.accepts r key) y
    refine ⟨hspec.nodup, fun name => ?_, fun hds hkey => ?_⟩
    · rw [mem_identifiers, hlayers.mem_mentions hsub (hplaced.mem_mentions hsub name)]
    · -- Nothing has been added to the value yet.
      obtain rfl : before = [] := (hbefore.resolve_right hkey).trans hds
      cases hlayers
      obtain rfl := hplaced.eq_of_nil rfl
      refine hspec.sorted.imp_of_mem fun ha hb hab => ?_
      exact idxOf_lt_of_filter (mem_identifiers.1 ha).2 (mem_identifiers.1 hb).2 hab

/-- The functions that a pass adds have exact parameters. -/
theorem run_params_exact (r : Resolvers) (n : Node) (h : n.all isTyped = true) :
    Placed (ExactParams r) true [] .none .none n (run r n).val :=
  run_placed (collects_exactParams r) h

/-- The parameters are exact in a view inside of a cube. -/
theorem viewInCube_params_exact : viewInCube.all isTyped = true ∧
    Placed (ExactParams acceptingAll) true [] .none .none viewInCube
      (run acceptingAll viewInCube).val :=
  ⟨by decide, run_params_exact acceptingAll viewInCube (by decide)⟩

end CubeSchema
