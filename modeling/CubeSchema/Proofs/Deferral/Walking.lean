import CubeSchema.Proofs.Deferral.Rebuilding

/-!
# The pass as a walk in place

The pass is defined by recursion on the tree. Here it is taken as a walk that changes the tree while
it goes on: a handler for calls walks over the last argument of each declaration, with a handler for
properties that puts a function in place of a value, and then the walk goes on inside, over what the
handlers have left. `traverse_run` says that this walk comes to its end, without a node missing or
a function that does not fit into its place, and leaves the tree and the record of the pass.

`wrap_eq` and `outermost_of_rules` bring the recursion into the form of such a walk: something is
done at a node, and then the children of what is there are transformed. The walk over a body and the
walk of the whole tree are then each by induction on the depth that is left, which the nodes of the
outcome bound, as no walk takes a node away (`Node.GrowsTo`).
-/

namespace CubeSchema

open Deferral Node

/-! ## The handlers -/

/-- The edge that leads to the parent of a node. -/
def Cursor.objectEdge (c : Cursor) : Edge := (c.parent?.map Cursor.edge).getD .none

/-- Puts a function in place of the value of a property that the rule applies to. -/
def Deferral.deferValue (rule : FieldRule) : Visitor (List DeferredField) := fun c log =>
  match c.focus.keyName? with
  | none => .ok (c, log)
  | some key =>
    if rule.applies key c.objectEdge then
      match c.field? .propertyValue with
      | none => .ok (c, log)
      | some value => do
        let params := value.identifiers rule.resolve
        let value ← value.replace (.deferred params value.focus.position value.focus)
        return (value.parent?.getD c,
          log ++ [{ key, cube := rule.cube, params, pos := c.focus.position }])
    else .ok (c, log)

/-- The handlers of a walk over a body. -/
def Deferral.FieldRule.handlers (rule : FieldRule) : Handlers (List DeferredField)
  | .property => some (deferValue rule)
  | _ => none

/-- The cursor of the last argument of a call. -/
def Cursor.lastArgument? (c : Cursor) : Option Cursor :=
  match c.focus with
  | .call _ args _ =>
    c.children.find? fun d => d.address? = some ⟨.callArgument, some (args.length - 1)⟩
  | _ => none

/-- The rules by which a node transforms its last argument. -/
def Node.rules (r : Resolvers) : Node → List FieldRule
  | .call callee args _ => rulesOf r callee args
  | _ => []

/-- Walks over the last argument of a declaration, once for each rule. -/
def Deferral.declare (r : Resolvers) (fuel : Nat) : Visitor (List DeferredField) := fun c log =>
  match c.focus.rules r with
  | [] => .ok (c, log)
  | rules =>
    match c.lastArgument? with
    | none => .error .absentNode
    | some body => do
      let walked ← rules.foldlM (fun s (rule : FieldRule) =>
        s.1.traverseBelow rule.handlers.visitor fuel s.2) (body, log)
      return (walked.1.parent?.getD c, walked.2)

/-- The handlers of a pass. Walks over bodies get the depth `fuel`. -/
def Deferral.passHandlers (r : Resolvers) (fuel : Nat) : Handlers (List DeferredField)
  | .call => some (declare r fuel)
  | _ => none

/-! ## One walk over a body -/

/-- What the walk over a body does at a node before it goes on below. -/
def Deferral.deferAt (rule : FieldRule) (up : Edge) : Node → Logged Node
  | .property pos key value computed shorthand =>
    match Node.keyName? (.property pos key value computed shorthand) with
    | some name =>
      if rule.applies name up && !value.isAbsent then do
        let params := value.identifiers rule.resolve
        Logged.record { key := name, cube := rule.cube, params, pos }
        return .property pos key (.deferred params value.position value) computed false
      else pure (.property pos key value computed shorthand)
    | none => pure (.property pos key value computed shorthand)
  | n => pure n

theorem wrap_absent (rule : FieldRule) (up edge : Edge) :
    wrap rule up edge .absent = pure .absent := by
  rw [wrap]

/-- A walk over a body does something at the node and goes on with what it finds below then. -/
theorem wrap_eq (rule : FieldRule) (up edge : Edge) (n : Node) :
    wrap rule up edge n =
      deferAt rule up n >>= fun m => m.mapChildren (wrap rule edge) := by
  cases n with
  | property pos key value computed shorthand =>
    rw [wrap, deferAt]
    cases hname : keyName? (.property pos key value computed shorthand) with
    | none => rfl
    | some name =>
      simp only
      split
      · simp only [bind_assoc, pure_bind, mapChildren, wrap_deferred]
      · rfl
  | _ => simp only [wrap, deferAt, mapChildren, wrapAll_eq_mapM, pure_bind]

/-- What the walk over a body finds below a node is what was there, or a function around it. -/
theorem deferAt_val (rule : FieldRule) (up : Edge) (n : Node) : (deferAt rule up n).val = n ∨
    ∃ child ∈ n.children, child.address = ⟨.propertyValue, none⟩ ∧ ∃ params pos,
      (deferAt rule up n).val = n.replaced child.address (.deferred params pos child.node) := by
  unfold deferAt
  split
  · rename_i pos key value computed shorthand
    split
    · split
      · rename_i happlies
        have hvalue : value.isAbsent = false := by
          simpa using (Bool.and_eq_true_iff.1 happlies).2
        exact .inr ⟨⟨⟨.propertyValue, none⟩, value⟩, by simp [children, single, hvalue], rfl,
          value.identifiers rule.resolve, value.position, rfl⟩
      · exact .inl rfl
    · exact .inl rfl
  · exact .inl rfl

theorem isAbsent_wrap (rule : FieldRule) (up edge : Edge) {n : Node} (h : n.isAbsent = false) :
    (wrap rule up edge n).val.isAbsent = false := by
  rw [isAbsent_eq, kind_wrap, ← isAbsent_eq, h]

theorem growsTo_deferred {x : Node} (h : x.Walkable) (params : List Text) (pos : Position) :
    x.GrowsTo (.deferred params pos x) := by
  have hnames : callsAll (params.map fun p => Node.identifier .unknown p) = 0 := by
    induction params with
    | nil => rfl
    | cons p params ih => rw [List.map_cons, callsAll, ih, calls]
  refine ⟨.intro rfl (fun c hc => ?_) fun c hc hedge => ?_, ?_, ?_⟩
  · rcases List.mem_append.1 hc with hc | hc
    · obtain ⟨p, -, heq⟩ := List.mem_map.1 (mem_listed hc)
      rw [← heq]
      exact .intro rfl (fun _ hd => by cases hd) fun _ hd => by cases hd
    · rwa [(isAbsent_of_mem_single hc).2]
  · rcases List.mem_append.1 hc with hc | hc
    · rw [edge_of_mem_listed hc] at hedge
      cases hedge
    · rw [edge_of_mem_single hc] at hedge
      cases hedge
  · rw [deferred, calls, hnames, Nat.zero_add]
  · rw [deferred, nodes]
    simp only [List.length_append, List.length_cons]
    omega

/-- The body of an added function. -/
theorem mem_children_deferred {x : Node} (h : x.isAbsent = false) (params : List Text)
    (pos : Position) : (⟨⟨.functionBody, none⟩, x⟩ : Child) ∈ (deferred params pos x).children := by
  simp [deferred, children, single, h]

/-- What the walk over a body does at a node makes the tree grow. -/
theorem growsTo_deferAt (rule : FieldRule) (up : Edge) {n : Node} (h : n.Walkable) :
    n.GrowsTo (deferAt rule up n).val := by
  rcases deferAt_val rule up n with heq | ⟨child, hchild, haddress, params, pos, heq⟩
  · rw [heq]
    exact h.growsTo
  · rw [heq]
    refine h.growsTo_replaced hchild (growsTo_deferred (h.child hchild) params pos) fun hedge => ?_
    rw [haddress] at hedge
    cases hedge

/-- A walk over a body makes the tree grow. -/
theorem growsTo_wrap (rule : FieldRule) (up edge : Edge) {n : Node} (h : n.Walkable) :
    n.GrowsTo (wrap rule up edge n).val := by
  induction h generalizing up edge with
  | @intro n present hchildren arguments ih =>
    have hn : n.Walkable := .intro present hchildren arguments
    have hdefer := growsTo_deferAt rule up hn
    rw [wrap_eq, Logged.val_bind]
    refine hdefer.trans (hdefer.walkable.growsTo_mapChildren (wrap_absent rule edge)
      (fun c hc => ?_) fun c _ => kind_wrap ..)
    -- Below the node there is a child of the old tree or a function around one.
    rcases deferAt_val rule up n with heq | ⟨child, hchild, -, params, pos, heq⟩
    · exact ih c (heq ▸ hc) edge c.address.edge
    · have hbody := growsTo_deferred (hchildren child hchild) params pos
      rw [heq, children_replaced (List.mem_map_of_mem hchild) hbody.walkable.present] at hc
      obtain ⟨d, hd, rfl⟩ := List.mem_map.1 hc
      by_cases haddress : d.address = child.address
      · rw [Child.update, if_pos haddress, wrap_deferred]
        exact hbody.walkable.growsTo_replaced
          (mem_children_deferred (hchildren child hchild).present params pos)
          (ih child hchild child.address.edge .functionBody) (by simp)
      · rw [Child.update, if_neg haddress]
        exact ih d hd edge d.address.edge

/-! ## The walk over a body performs its rule -/

namespace Cursor

/-- The names collected at a child that is no field name do not depend on the way to it. -/
theorem identifiers_descend (c : Cursor) (child : Child)
    (h : child.address.edge ≠ .memberProperty) (resolve : Text → Bool) :
    (c.descend child).identifiers resolve = child.node.identifiers resolve := by
  have hvisits : (c.descend child).visits.filterMap reference? = child.node.mentions := by
    rw [visits, descend, filterMap_visits, isFieldName_of_edge h]
    simp
  rw [identifiers, hvisits, identifiers_eq]

/-- The value of a property. -/
theorem field?_value {c : Cursor} {pos : Position} {key value : Node} {computed shorthand : Bool}
    (h : c.focus = .property pos key value computed shorthand) : c.field? .propertyValue =
      if value.isAbsent then none else some (c.descend ⟨⟨.propertyValue, none⟩, value⟩) := by
  have hkey :
      (single .propertyKey key).find? (fun d => d.address.edge = .propertyValue) = none := by
    refine List.find?_eq_none.2 fun d hd => ?_
    rw [edge_of_mem_single hd]
    decide
  have hchildren : c.focus.children = single .propertyKey key ++ single .propertyValue value := by
    rw [h]
    rfl
  rw [field?, hchildren, List.find?_append, hkey, single]
  split <;> rfl

/-- Where the rule applies, a function is put around the value of a property. -/
theorem deferValue_of_field {rule : FieldRule} {c : Cursor} {key : Text} {value : Node}
    (hname : c.focus.keyName? = some key) (hrule : rule.applies key c.objectEdge = true)
    (hfield : c.field? .propertyValue = some (c.descend ⟨⟨.propertyValue, none⟩, value⟩))
    (log : List DeferredField) : deferValue rule c log =
      .ok (c.set (c.focus.replaced ⟨.propertyValue, none⟩
          (.deferred (value.identifiers rule.resolve) value.position value)),
        log ++ [{ key, cube := rule.cube, params := value.identifiers rule.resolve,
                  pos := c.focus.position }]) := by
  have hparams := identifiers_descend c ⟨⟨.propertyValue, none⟩, value⟩ (by simp) rule.resolve
  -- A function fits into the place of the value, and the walk is back at the property then.
  have hreplace : ∀ params pos, (c.descend ⟨⟨.propertyValue, none⟩, value⟩).replace
      (.deferred params pos value) =
        .ok ((c.set (c.focus.replaced ⟨.propertyValue, none⟩ (.deferred params pos value))).descend
          ⟨⟨.propertyValue, none⟩, .deferred params pos value⟩) := by
    intro params pos
    rw [replace_descend]
    exact if_pos rfl
  simp only [deferValue, hname, hrule, if_true, hfield, hparams]
  show Except.bind ((c.descend ⟨⟨.propertyValue, none⟩, value⟩).replace
    (.deferred _ value.position value)) _ = _
  rw [hreplace]
  rfl

/-- The handler for properties. -/
theorem performs_handlers (rule : FieldRule) {c : Cursor} (hc : c.IsCurrent) :
    Performs rule.handlers.visitor c (deferAt rule c.objectEdge c.focus) := by
  cases hfocus : c.focus with
  | property pos key value computed shorthand =>
    have hvisit : ∀ log, rule.handlers.visitor c log = deferValue rule c log := by
      intro log
      simp only [Handlers.visitor, hfocus]
      rfl
    rw [deferAt]
    cases hname : keyName? (.property pos key value computed shorthand) with
    | none =>
      rw [← hfocus]
      refine performs_pure hc fun log => ?_
      rw [hvisit, deferValue, hfocus, hname]
    | some name =>
      have hfield := field?_value hfocus
      simp only
      split
      · rename_i happlies
        obtain ⟨hrule, hpresent⟩ := Bool.and_eq_true_iff.1 happlies
        rw [Bool.not_eq_true'] at hpresent
        rw [hpresent, if_neg Bool.false_ne_true] at hfield
        intro log
        rw [hvisit, deferValue_of_field (by rw [hfocus, hname]) hrule hfield, hfocus]
        rfl
      · rename_i happlies
        rw [← hfocus]
        refine performs_pure hc fun log => ?_
        rw [hvisit, deferValue, hfocus, hname, hfield]
        cases hrule : rule.applies name c.objectEdge with
        | false => simp only [hrule, Bool.false_eq_true, if_false]
        | true =>
          have hvalue : value.isAbsent = true := by simpa [hrule] using happlies
          simp only [hrule, hvalue, if_true]
  | _ =>
    rw [deferAt, ← hfocus]
    · refine performs_pure hc fun log => ?_
      simp only [Handlers.visitor, hfocus]
      rfl
    · simp

/-- A walk of what is below a node, if walks of trees that leave no more than `fuel` nodes perform
the rule. -/
theorem traverseBelow_performs_of {rule : FieldRule} {fuel : Nat}
    (ih : ∀ d : Cursor, d.IsCurrent → d.focus.Walkable →
      (wrap rule d.objectEdge d.edge d.focus).val.nodes.length ≤ fuel →
      Performs (traverse rule.handlers.visitor fuel) d (wrap rule d.objectEdge d.edge d.focus))
    {c : Cursor} (hc : c.IsCurrent) (hw : c.focus.Walkable)
    (hfuel : (c.focus.mapChildren (wrap rule c.edge)).val.nodes.length ≤ fuel + 1) :
    Performs (traverseBelow rule.handlers.visitor fuel) c
      (c.focus.mapChildren (wrap rule c.edge)) := by
  have hpresent : ∀ child ∈ c.focus.children,
      (wrap rule c.edge child.address.edge child.node).val.isAbsent = false :=
    fun child hchild => isAbsent_wrap _ _ _ (hw.child hchild).present
  refine traverseBelow_performs hc (wrap_absent rule c.edge) hpresent fun child hchild q hq => ?_
  have hsize := length_nodes_lt_mapChildren (wrap_absent rule c.edge) hpresent hchild
  -- The children in front may have changed, but not the edges on the way.
  have hedge : ((c.set q).descend child).objectEdge = c.edge := edge_set c q
  have hwalk := ih ((c.set q).descend child) ((isCurrent_set c q).descend hq) (hw.child hchild)
  rw [hedge] at hwalk
  exact hwalk (Nat.le_of_lt_succ (Nat.lt_of_lt_of_le hsize hfuel))

/-- A walk performs the rule if it may go as deep as the tree that it leaves has nodes. -/
theorem traverse_performs_wrap (rule : FieldRule) {fuel : Nat} {c : Cursor} (hc : c.IsCurrent)
    (hw : c.focus.Walkable)
    (hfuel : (wrap rule c.objectEdge c.edge c.focus).val.nodes.length ≤ fuel) :
    Performs (traverse rule.handlers.visitor fuel) c (wrap rule c.objectEdge c.edge c.focus) := by
  induction fuel generalizing c with
  | zero =>
    rw [nodes_eq (isAbsent_wrap rule c.objectEdge c.edge hw.present)] at hfuel
    cases hfuel
  | succ fuel ih =>
    rw [wrap_eq] at hfuel ⊢
    refine traverse_performs hw.present (performs_handlers rule hc) ?_
    have hbelow := traverseBelow_performs_of (fun d => ih)
      (c.isCurrent_set (deferAt rule c.objectEdge c.focus).val)
      (growsTo_deferAt rule c.objectEdge hw).walkable
    rw [edge_set] at hbelow
    exact hbelow hfuel

/-- A walk of what is below an argument performs the rule. -/
theorem traverseBelow_performs_wrap (rule : FieldRule) {fuel : Nat} {c : Cursor}
    (hc : c.IsCurrent) (hw : c.focus.Walkable) (hkind : c.focus.kind ≠ .property)
    (hedge : c.edge = .callArgument)
    (hfuel : (wrap rule .none .callArgument c.focus).val.nodes.length ≤ fuel) :
    Performs (traverseBelow rule.handlers.visitor fuel) c
      (wrap rule .none .callArgument c.focus) := by
  have hdefer : deferAt rule .none c.focus = pure c.focus := by
    cases hfocus : c.focus <;> first | rfl | exact absurd (by rw [hfocus]; rfl) hkind
  rw [wrap_eq, hdefer, pure_bind, ← hedge] at hfuel ⊢
  exact traverseBelow_performs_of (fun d => traverse_performs_wrap rule) hc hw (by omega)

end Cursor

/-! ## The walks of a declaration in place -/

theorem wrapBody_cons (rule : FieldRule) (rules : List FieldRule) (body : Node) :
    wrapBody (rule :: rules) body =
      wrap rule .none .callArgument body >>= wrapBody rules := by
  rw [wrapBody, List.foldlM_cons]
  rfl

theorem kind_wrapBody (rules : List FieldRule) (body : Node) :
    (wrapBody rules body).val.kind = body.kind := by
  induction rules generalizing body with
  | nil => rfl
  | cons rule rules ih => rw [wrapBody_cons, Logged.val_bind, ih, kind_wrap]

theorem growsTo_wrapBody (rules : List FieldRule) {body : Node} (h : body.Walkable) :
    body.GrowsTo (wrapBody rules body).val := by
  induction rules generalizing body with
  | nil => exact h.growsTo
  | cons rule rules ih =>
    have hfirst := growsTo_wrap rule .none .callArgument h
    rw [wrapBody_cons, Logged.val_bind]
    exact hfirst.trans (ih hfirst.walkable)

/-- The walks over the last argument of a declaration perform its rules, one after the other. -/
theorem foldlM_performs {fuel : Nat} (rules : List FieldRule) {c : Cursor} (hc : c.IsCurrent)
    (hw : c.focus.Walkable) (hkind : c.focus.kind ≠ .property) (hedge : c.edge = .callArgument)
    (hfuel : (wrapBody rules c.focus).val.nodes.length ≤ fuel) (log : List DeferredField) :
    rules.foldlM (fun s (rule : FieldRule) =>
        s.1.traverseBelow rule.handlers.visitor fuel s.2) (c, log) =
      .ok (c.set (wrapBody rules c.focus).val, log ++ (wrapBody rules c.focus).log) := by
  induction rules generalizing c log with
  | nil =>
    have hpure : Cursor.Performs (fun c log => .ok (c, log)) c (pure c.focus) :=
      Cursor.performs_pure hc fun _ => rfl
    exact hpure log
  | cons rule rules ih =>
    have hfirst := growsTo_wrap rule .none .callArgument hw
    rw [wrapBody_cons] at hfuel ⊢
    have hstep := Cursor.traverseBelow_performs_wrap rule hc hw hkind hedge
      (Nat.le_trans (growsTo_wrapBody rules hfirst.walkable).size hfuel) log
    rw [List.foldlM_cons]
    show Except.bind (c.traverseBelow rule.handlers.visitor fuel log) _ = _
    rw [hstep]
    refine (ih (c.isCurrent_set _) hfirst.walkable (by rwa [Cursor.focus_set, kind_wrap])
      (by rwa [Cursor.edge_set]) hfuel _).trans ?_
    rw [Cursor.set_set]
    simp

/-- What the pass does at a node before it goes on below. -/
def Deferral.declareAt (r : Resolvers) : Node → Logged Node
  | .call callee args optional => do
    return .call callee (← wrapLast (rulesOf r callee args) args) optional
  | n => pure n

/-- The pass goes on to what is below a node that is no declaration. -/
theorem outermost_of_no_rules {r : Resolvers} (inner : Node → Logged Node) {n : Node}
    (h : n.rules r = []) :
    outermost r inner n = n.mapChildren fun _ => outermost r inner := by
  cases n with
  | call callee args optional =>
    rw [rules] at h
    rw [outermost, h, mapChildren, outermostAll_eq_mapM]
  | _ => simp only [outermost, mapChildren, outermostAll_eq_mapM]

/-- The pass walks over the last argument of a declaration and then goes on inside. -/
theorem outermost_of_rules {r : Resolvers} (inner : Node → Logged Node) {n : Node}
    (h : n.rules r ≠ []) :
    outermost r inner n = declareAt r n >>= fun m => m.mapChildren fun _ => inner := by
  cases n with
  | call callee args optional =>
    rw [outermost, declareAt]
    rw [rules] at h
    cases hrules : rulesOf r callee args with
    | nil => exact absurd hrules h
    | cons rule rules => simp [mapChildren]
  | _ => exact absurd rfl h

theorem exists_call {r : Resolvers} {n : Node} (h : n.rules r ≠ []) :
    ∃ callee front body optional, n = .call callee (front ++ [body]) optional := by
  cases n with
  | call callee args optional =>
    cases hdecl : declaration? callee args with
    | none => exact absurd (by rw [rules, rulesOf_eq, hdecl]) h
    | some d =>
      obtain ⟨front, body, rfl⟩ := exists_body hdecl
      exact ⟨callee, front, body, optional, rfl⟩
  | _ => exact absurd rfl h

section

variable {callee body : Node} {front : List Node} {optional : Bool}

/-- The last argument of a call as a child. -/
theorem mem_children_call : (⟨⟨.callArgument, some front.length⟩, body⟩ : Child) ∈
    (Node.call callee (front ++ [body]) optional).children := by
  have hbody : (front ++ [body])[front.length]? = some body := by simp
  have hlisted := mem_listed_of_getElem? .callArgument 0 hbody
  rw [Nat.zero_add] at hlisted
  exact List.mem_append_right _ hlisted

theorem lastArgument?_eq {c : Cursor} (h : c.focus = .call callee (front ++ [body]) optional) :
    c.lastArgument? = some (c.descend ⟨⟨.callArgument, some front.length⟩, body⟩) := by
  have hlength : (front ++ [body]).length - 1 = front.length := by simp
  have hmem : (⟨⟨.callArgument, some front.length⟩, body⟩ : Child) ∈ c.focus.children := by
    rw [h]
    exact mem_children_call
  have hfind := find?_address hmem
  rw [Cursor.lastArgument?, h]
  simp only [hlength, Cursor.children_eq, List.find?_map, Function.comp_def,
    Cursor.address?_descend, Option.some.injEq]
  rw [hfind]
  rfl

theorem declareAt_eq (r : Resolvers) :
    declareAt r (.call callee (front ++ [body]) optional) = do
      return (Node.call callee (front ++ [body]) optional).put ⟨.callArgument, some front.length⟩
        (← wrapBody (rulesOf r callee (front ++ [body])) body) := by
  simp [declareAt, wrapLast_snoc, put]

theorem declareAt_val (r : Resolvers) :
    (declareAt r (.call callee (front ++ [body]) optional)).val = .call callee
      (front ++ [(wrapBody (rulesOf r callee (front ++ [body])) body).val]) optional := by
  rw [declareAt, wrapLast_snoc]
  rfl

theorem growsTo_declareAt (r : Resolvers)
    (h : (Node.call callee (front ++ [body]) optional).Walkable) :
    (Node.call callee (front ++ [body]) optional).GrowsTo
      (declareAt r (.call callee (front ++ [body]) optional)).val := by
  rw [declareAt_eq]
  have hbody := h.child mem_children_call
  exact h.growsTo_replaced mem_children_call (growsTo_wrapBody _ hbody) fun hedge => by
    rw [kind_wrapBody]
    exact h.argument mem_children_call hedge

/-- The handler for calls. -/
theorem performs_declare {r : Resolvers} {fuel : Nat} {c : Cursor} (hc : c.IsCurrent)
    (hw : c.focus.Walkable) (h : c.focus = .call callee (front ++ [body]) optional)
    (hrules : rulesOf r callee (front ++ [body]) ≠ [])
    (hfuel : (wrapBody (rulesOf r callee (front ++ [body])) body).val.nodes.length ≤ fuel) :
    Cursor.Performs (passHandlers r fuel).visitor c (declareAt r c.focus) := by
  intro log
  have hvisit : (passHandlers r fuel).visitor c log = declare r fuel c log := by
    simp only [Handlers.visitor, h]
    rfl
  have hmem : (⟨⟨.callArgument, some front.length⟩, body⟩ : Child) ∈ c.focus.children := by
    rw [h]
    exact mem_children_call
  have hwalks := foldlM_performs (rulesOf r callee (front ++ [body])) (hc.descend hmem)
    (hw.child hmem) (hw.argument hmem rfl) rfl hfuel log
  rw [hvisit, declare, h, rules]
  split
  · rename_i hnil
    exact absurd hnil hrules
  · rw [lastArgument?_eq h, declareAt_eq]
    -- The walks leave their outcome in the place of the body, and go back to the call then.
    simp only [hwalks, Cursor.set_descend, h, Logged.val_bind, Logged.log_bind, Logged.val_pure,
      Logged.log_pure, List.append_nil]
    rfl

end

/-! ## The pass in place -/

theorem kind_outermost (r : Resolvers) (inner : Node → Logged Node) (n : Node) :
    (outermost r inner n).val.kind = n.kind := by
  have hdeclare : (declareAt r n).val.kind = n.kind := by cases n <;> rfl
  by_cases h : n.rules r = []
  · rw [outermost_of_no_rules inner h, kind_mapChildren]
  · rw [outermost_of_rules inner h, Logged.val_bind, kind_mapChildren, hdeclare]

theorem kind_nested (r : Resolvers) (depth : Nat) (n : Node) :
    (nested r depth n).val.kind = n.kind := by
  cases depth with
  | zero => rfl
  | succ depth => exact kind_outermost ..

theorem isAbsent_nested (r : Resolvers) (depth : Nat) {n : Node} (h : n.isAbsent = false) :
    (nested r depth n).val.isAbsent = false := by
  rw [isAbsent_eq, kind_nested, ← isAbsent_eq, h]

theorem nested_absent (r : Resolvers) (depth : Nat) :
    nested r depth .absent = pure .absent := by
  cases depth with
  | zero => rfl
  | succ depth => rw [nested, outermost]

/-- A pass makes the tree grow. -/
theorem growsTo_nested (r : Resolvers) (depth : Nat) {n : Node} (h : n.Walkable) :
    n.GrowsTo (nested r depth n).val := by
  induction depth generalizing n with
  | zero => exact h.growsTo
  | succ depth ih =>
    induction h with
    | @intro n present hchildren arguments ihn =>
      have hn : n.Walkable := .intro present hchildren arguments
      rw [nested]
      by_cases hrules : n.rules r = []
      · rw [outermost_of_no_rules _ hrules]
        exact hn.growsTo_mapChildren (fun _ => nested_absent r (depth + 1)) ihn
          fun c _ => kind_nested r (depth + 1) c.node
      · rw [outermost_of_rules _ hrules, Logged.val_bind]
        obtain ⟨callee, front, body, optional, rfl⟩ := exists_call hrules
        have hdeclare := growsTo_declareAt r hn
        exact hdeclare.trans (hdeclare.walkable.growsTo_mapChildren
          (fun _ => nested_absent r depth) (fun c hc => ih (hdeclare.walkable.child hc))
          fun c _ => kind_nested r depth c.node)

namespace Cursor

/-- The handler for calls leaves what is no declaration as it is. -/
theorem performs_of_no_rules {r : Resolvers} {fuel : Nat} {c : Cursor} (hc : c.IsCurrent)
    (h : c.focus.rules r = []) : Performs (passHandlers r fuel).visitor c (pure c.focus) := by
  refine performs_pure hc fun log => ?_
  unfold Handlers.visitor
  split
  · rename_i handle hhandle
    unfold passHandlers at hhandle
    split at hhandle
    · obtain rfl := Option.some.inj hhandle
      rw [declare, h]
    · cases hhandle
  · rfl

/-- The pass below a node, if walks of trees that leave no more than `fuel` nodes perform it. -/
theorem traverseBelow_performs_nested {r : Resolvers} {limit fuel depth : Nat}
    (ih : ∀ d : Cursor, d.IsCurrent → d.focus.Walkable → d.focus.calls < depth →
      (nested r depth d.focus).val.nodes.length ≤ fuel →
      Performs (traverse (passHandlers r limit).visitor fuel) d (nested r depth d.focus))
    {c : Cursor} (hc : c.IsCurrent) (hw : c.focus.Walkable)
    (hcalls : ∀ child ∈ c.focus.children, child.node.calls < depth)
    (hfuel : (c.focus.mapChildren fun _ => nested r depth).val.nodes.length ≤ fuel + 1) :
    Performs (traverseBelow (passHandlers r limit).visitor fuel) c
      (c.focus.mapChildren fun _ => nested r depth) := by
  have habsent : ∀ _ : Edge, nested r depth .absent = pure .absent :=
    fun _ => nested_absent r depth
  have hpresent : ∀ child ∈ c.focus.children,
      (nested r depth child.node).val.isAbsent = false :=
    fun child hchild => isAbsent_nested r depth (hw.child hchild).present
  refine traverseBelow_performs hc habsent hpresent fun child hchild q hq => ?_
  have hsize := length_nodes_lt_mapChildren habsent hpresent hchild
  exact ih ((c.set q).descend child) ((isCurrent_set c q).descend hq) (hw.child hchild)
    (hcalls child hchild) (Nat.le_of_lt_succ (Nat.lt_of_lt_of_le hsize hfuel))

/-- A walk performs the pass if it may go as deep as the tree that it leaves has nodes. -/
theorem traverse_performs_nested (r : Resolvers) {limit fuel depth : Nat} {c : Cursor}
    (hc : c.IsCurrent) (hw : c.focus.Walkable) (hcalls : c.focus.calls < depth)
    (hfuel : (nested r depth c.focus).val.nodes.length ≤ fuel) (hlimit : fuel ≤ limit) :
    Performs (traverse (passHandlers r limit).visitor fuel) c (nested r depth c.focus) := by
  induction fuel generalizing c depth with
  | zero =>
    rw [nodes_eq (isAbsent_nested r depth hw.present)] at hfuel
    cases hfuel
  | succ fuel ih =>
    have hsmaller : ∀ depth' (d : Cursor), d.IsCurrent → d.focus.Walkable →
        d.focus.calls < depth' → (nested r depth' d.focus).val.nodes.length ≤ fuel →
        Performs (traverse (passHandlers r limit).visitor fuel) d (nested r depth' d.focus) :=
      fun depth' d hd hdw hdcalls hdfuel => ih hd hdw hdcalls hdfuel (by omega)
    obtain ⟨depth, rfl⟩ := Nat.exists_eq_succ_of_ne_zero (Nat.ne_of_gt (Nat.zero_lt_of_lt hcalls))
    rw [Nat.succ_eq_add_one, nested] at hfuel ⊢
    by_cases hrules : c.focus.rules r = []
    · -- The children are walked to the same depth of declarations.
      rw [outermost_of_no_rules _ hrules] at hfuel ⊢
      have hbelow := traverseBelow_performs_nested (hsmaller (depth + 1)) hc hw
        (fun child hchild => by have := calls_le_of_mem_children hchild; omega) hfuel
      have hset : c.set c.focus = c := hc
      rw [← pure_bind c.focus fun m => m.mapChildren fun _ => outermost r (nested r depth)]
      refine traverse_performs hw.present (performs_of_no_rules hc hrules) ?_
      rw [Logged.val_pure, hset]
      exact hbelow
    · -- A declaration is one call less for everything inside of it.
      obtain ⟨callee, front, body, optional, hfocus⟩ := exists_call hrules
      rw [outermost_of_rules _ hrules] at hfuel ⊢
      have hdeclare : c.focus.GrowsTo (declareAt r c.focus).val := by
        rw [hfocus] at hw ⊢
        exact growsTo_declareAt r hw
      have hcall : (declareAt r c.focus).val.kind = .call := by rw [hfocus, declareAt_val]; rfl
      have hinside := hdeclare.walkable.growsTo_mapChildren
        (fun _ => nested_absent r depth)
        (fun child hchild => growsTo_nested r depth (hdeclare.walkable.child hchild))
        fun child _ => kind_nested r depth child.node
      -- The body that the walks over it leave is still smaller than the outcome.
      have hbody :
          (wrapBody (rulesOf r callee (front ++ [body])) body).val.nodes.length ≤ limit := by
        have hlt : (wrapBody (rulesOf r callee (front ++ [body])) body).val.nodes.length <
            (declareAt r c.focus).val.nodes.length := by
          rw [hfocus, declareAt_val]
          exact length_nodes_lt mem_children_call
        have hsize := hinside.size
        simp only [Logged.val_bind] at hfuel
        omega
      have hvisit := performs_declare hc hw hfocus
        (by rw [hfocus] at hrules; exact hrules) hbody
      refine traverse_performs hw.present hvisit ?_
      refine traverseBelow_performs_nested (hsmaller depth) (c.isCurrent_set _) hdeclare.walkable
        (fun child hchild => ?_) hfuel
      have hle := calls_le_of_mem_children hchild
      rw [focus_set, hcall, if_pos rfl, hdeclare.calls] at hle
      omega

end Cursor

/-- A walk in place with the handlers of a pass comes to its end, with the tree and the record of
the pass, if it may go as deep as this tree has nodes. -/
theorem traverse_run (r : Resolvers) {n : Node} (hpresent : n.isAbsent = false)
    (h : n.all isTyped = true) {fuel : Nat} (hfuel : (run r n).val.nodes.length ≤ fuel) :
    (Cursor.root n).traverse (passHandlers r fuel).visitor fuel [] =
      .ok (.root (run r n).val, (run r n).log) := by
  have hdepth : n.calls < callCount n + 1 := by
    rw [callCount_eq]
    exact Nat.lt_succ_self _
  exact Cursor.traverse_performs_nested r (Cursor.isCurrent_root n)
    (walkable_of_isTyped hpresent h) hdepth hfuel (Nat.le_refl _) []

end CubeSchema
