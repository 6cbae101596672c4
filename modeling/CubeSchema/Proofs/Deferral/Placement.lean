import CubeSchema.Proofs.Tree.Mentions
import CubeSchema.Proofs.Tree.Shape

/-!
# Where deferred functions are placed

A pass walks over a tree several times: for every declaration, outer ones first, once or twice over
its body. `Placed` states the outcome of all these walks at once. It goes along the original tree
and the result side by side, with the list of the declarations around the node, inner ones first.
The trees are the same except at a property with a plain name: there the value of the result has one
function for each of these declarations that defers the property.

The walks are taken one at a time. `wrap_placed` says what one walk adds, and `outermost_placed` how
the declarations inside the outermost ones are reached.
-/

namespace CubeSchema

open Deferral Node

/-- A declaration, as far as the values inside it depend on it. -/
structure Declaration where
  /-- The name in whose scope names are resolved. -/
  scope : Text
  /-- Whether it is a cube or a view, and may extend another one. -/
  extending : Bool
  deriving DecidableEq, Repr

namespace Declaration

/-- Whether a declaration defers a property, by its key and the edge that leads to its object. -/
def defers (d : Declaration) (key : Text) (objectEdge : Edge) : Bool :=
  simpleFields.contains key || (complexFields.contains key && objectEdge ≠ .callArgument) ||
    (d.extending && key = extendsField)

/-- Whether a name becomes a parameter of the function around a property. -/
def accepts (r : Resolvers) (d : Declaration) (key name : Text) : Bool :=
  if key = extendsField then r.cube name else r.scope d.scope name

end Declaration

/-- The declaration that a call is, if it is one. -/
def declaration? (callee : Node) (args : List Node) : Option Declaration :=
  match callee, args with
  | .identifier _ name, first :: _ =>
    if name = lit "cube" || name = lit "view" then some ⟨scopeName first, true⟩
    else if name = lit "context" then some ⟨[], false⟩
    else none
  | _, _ => none

/-- What is asked of the parameters of an added function: given the declarations outside of the one
that it is added for, that one, the key and the value as it was before. -/
abbrev ParamRule := List Declaration → Declaration → Text → Node → List Text → Prop

/-- One function around `x` for each declaration that defers the property. The functions of inner
declarations are outside. -/
inductive Layered (ok : ParamRule) (key : Text) (objectEdge : Edge) (value : Node) :
    List Declaration → Node → Node → Prop
  | nil {x : Node} : Layered ok key objectEdge value [] x x
  | skip {d : Declaration} {ds : List Declaration} {x y : Node}
      (hd : d.defers key objectEdge = false) (h : Layered ok key objectEdge value ds x y) :
      Layered ok key objectEdge value (d :: ds) x y
  | wrap {d : Declaration} {ds : List Declaration} {x y : Node} {params : List Text}
      (hd : d.defers key objectEdge = true) (hparams : ok ds d key value params)
      (h : Layered ok key objectEdge value ds x y) :
      Layered ok key objectEdge value (d :: ds) x (.deferred params value.position y)

/-- Whether a node has no children. -/
def Node.isLeaf : Node → Bool
  | absent | identifier .. | stringLiteral .. | numberLiteral .. | keywordLiteral .. => true
  | _ => false

/-- The declarations around the body of a declaration, when bodies count. -/
def within (deep : Bool) (d : Declaration) (ds : List Declaration) : List Declaration :=
  if deep then d :: ds else ds

/-- The second tree is the first one with the functions of the declarations around it in place. The
node stands at `edge` of its parent, and that one at `up`. When `deep` does not hold, declarations
inside of the tree do not count. -/
inductive Placed (ok : ParamRule) (deep : Bool) : List Declaration → Edge → Edge → Node → Node → Prop
  | leaf {ds : List Declaration} {up edge : Edge} {n : Node} (hleaf : n.isLeaf = true) :
      Placed ok deep ds up edge n n
  | program {ds : List Declaration} {up edge : Edge} {pos : Position} {body body' : List Node}
      (hlength : body'.length = body.length)
      (hbody : ∀ p ∈ body.zip body', Placed ok deep ds edge .programBody p.1 p.2) :
      Placed ok deep ds up edge (.program pos body) (.program pos body')
  | varDecl {ds : List Declaration} {up edge : Edge} {pos : Position} {keyword : Text}
      {name name' init init' : Node} (hname : Placed ok deep ds edge .varName name name')
      (hinit : Placed ok deep ds edge .varInit init init') :
      Placed ok deep ds up edge (.varDecl pos keyword name init) (.varDecl pos keyword name' init')
  | exprStmt {ds : List Declaration} {up edge : Edge} {x x' : Node}
      (hx : Placed ok deep ds edge .stmtExpr x x') :
      Placed ok deep ds up edge (.exprStmt x) (.exprStmt x')
  | templateLiteral {ds : List Declaration} {up edge : Edge} {pos : Position} {quasis : List Quasi}
      {exprs exprs' : List Node} (hlength : exprs'.length = exprs.length)
      (hexprs : ∀ p ∈ exprs.zip exprs', Placed ok deep ds edge .templateExpr p.1 p.2) :
      Placed ok deep ds up edge (.templateLiteral pos quasis exprs)
        (.templateLiteral pos quasis exprs')
  | array {ds : List Declaration} {up edge : Edge} {pos : Position} {elements elements' : List Node}
      (hlength : elements'.length = elements.length)
      (helements : ∀ p ∈ elements.zip elements', Placed ok deep ds edge .arrayElement p.1 p.2) :
      Placed ok deep ds up edge (.array pos elements) (.array pos elements')
  | object {ds : List Declaration} {up edge : Edge} {pos : Position}
      {properties properties' : List Node} (hlength : properties'.length = properties.length)
      (hproperties : ∀ p ∈ properties.zip properties',
        Placed ok deep ds edge .objectProperty p.1 p.2) :
      Placed ok deep ds up edge (.object pos properties) (.object pos properties')
  | field {ds : List Declaration} {up edge : Edge} {pos kpos : Position} {name : Text}
      {value x value' : Node} {shorthand : Bool} (hexpr : value.isExpression = true)
      (hvalue : Placed ok deep ds edge .propertyValue value x)
      (hlayers : Layered ok name up value ds x value') :
      Placed ok deep ds up edge (.property pos (.identifier kpos name) value false shorthand)
        (.property pos (.identifier kpos name) value' false
          (shorthand && !ds.any fun d => d.defers name up))
  | property {ds : List Declaration} {up edge : Edge} {pos : Position} {key key' value value' : Node}
      {computed shorthand : Bool}
      (hnone : keyName? (.property pos key value computed shorthand) = none ∨ value.isAbsent = true)
      (hkey : Placed ok deep ds edge .propertyKey key key')
      (hvalue : Placed ok deep ds edge .propertyValue value value') :
      Placed ok deep ds up edge (.property pos key value computed shorthand)
        (.property pos key' value' computed shorthand)
  | spread {ds : List Declaration} {up edge : Edge} {pos : Position} {x x' : Node}
      (hx : Placed ok deep ds edge .spreadArgument x x') :
      Placed ok deep ds up edge (.spread pos x) (.spread pos x')
  | member {ds : List Declaration} {up edge : Edge} {obj obj' prop prop' : Node}
      {computed optional : Bool} (hobj : Placed ok deep ds edge .memberObject obj obj')
      (hprop : Placed ok deep ds edge .memberProperty prop prop') :
      Placed ok deep ds up edge (.member obj prop computed optional)
        (.member obj' prop' computed optional)
  | call {ds : List Declaration} {up edge : Edge} {callee callee' : Node} {args args' : List Node}
      {optional : Bool} (hnone : declaration? callee args = none)
      (hcallee : Placed ok deep ds edge .callCallee callee callee')
      (hlength : args'.length = args.length)
      (hargs : ∀ p ∈ args.zip args', Placed ok deep ds edge .callArgument p.1 p.2) :
      Placed ok deep ds up edge (.call callee args optional) (.call callee' args' optional)
  | declaration {ds : List Declaration} {up edge : Edge} {callee callee' body body' : Node}
      {args args' : List Node} {optional : Bool} {d : Declaration}
      (hsome : declaration? callee (args ++ [body]) = some d)
      (hcallee : Placed ok deep ds edge .callCallee callee callee')
      (hlength : args'.length = args.length)
      (hargs : ∀ p ∈ args.zip args', Placed ok deep ds edge .callArgument p.1 p.2)
      (hkind : body.kind ≠ .property)
      (hbody : Placed ok deep (within deep d ds) edge .callArgument body body') :
      Placed ok deep ds up edge (.call callee (args ++ [body]) optional)
        (.call callee' (args' ++ [body']) optional)
  | function {ds : List Declaration} {up edge : Edge} {pos : Position} {params params' : List Node}
      {body body' : Node} {async : Bool} (hlength : params'.length = params.length)
      (hparams : ∀ p ∈ params.zip params', Placed ok deep ds edge .functionParam p.1 p.2)
      (hbody : Placed ok deep ds edge .functionBody body body') :
      Placed ok deep ds up edge (.function pos params body async) (.function pos params' body' async)
  | binary {ds : List Declaration} {up edge : Edge} {left left' right right' : Node} {op : Text}
      (hleft : Placed ok deep ds edge .binaryLeft left left')
      (hright : Placed ok deep ds edge .binaryRight right right') :
      Placed ok deep ds up edge (.binary left op right) (.binary left' op right')
  | unary {ds : List Declaration} {up edge : Edge} {pos : Position} {op : Text} {x x' : Node}
      (hx : Placed ok deep ds edge .unaryOperand x x') :
      Placed ok deep ds up edge (.unary pos op x) (.unary pos op x')
  | paren {ds : List Declaration} {up edge : Edge} {pos : Position} {x x' : Node}
      (hx : Placed ok deep ds edge .parenExpr x x') :
      Placed ok deep ds up edge (.paren pos x) (.paren pos x')

/-! ## Before the pass -/

/-- Whether a single field may hold a node; it may also be absent. -/
def Node.mayFill (n : Node) (slot : Slot) : Bool := n.isAbsent || n.fits slot

/-- Whether each child of a node is of a kind that its place admits. -/
def Node.isTyped : Node → Bool
  | absent | identifier .. | stringLiteral .. | numberLiteral .. | keywordLiteral .. => true
  | program _ body => body.all (·.fits .statement)
  | varDecl _ _ name init => name.mayFill .name && init.mayFill .expression
  | exprStmt x => x.mayFill .expression
  | templateLiteral _ _ exprs => exprs.all isExpression
  | array _ elements => elements.all (·.mayFill .expression)
  | object _ properties => properties.all (·.fits .objectMember)
  | property _ key value _ _ => key.mayFill .expression && value.mayFill .expression
  | spread _ x => x.mayFill .expression
  | member obj prop _ _ => obj.mayFill .expression && prop.mayFill .expression
  | call callee args _ => callee.mayFill .expression && args.all isExpression
  | function _ params body _ => params.all (·.fits .name) && body.mayFill .expression
  | binary left _ right => left.mayFill .expression && right.mayFill .expression
  | unary _ _ x => x.mayFill .expression
  | paren _ x => x.mayFill .expression

theorem isAbsent_of_isExpression {n : Node} (h : n.isExpression = true) : n.isAbsent = false := by
  cases n <;> first | rfl | simp [isExpression, kind] at h

theorem kind_ne_property_of_isExpression {n : Node} (h : n.isExpression = true) :
    n.kind ≠ .property := by
  intro hkind
  rw [isExpression, hkind] at h
  simp at h

/-- A declaration has a last argument. -/
theorem exists_body {callee : Node} {args : List Node} {d : Declaration}
    (h : declaration? callee args = some d) : ∃ front body, args = front ++ [body] := by
  rcases List.eq_nil_or_concat args with rfl | ⟨front, body, hargs⟩
  · unfold declaration? at h
    split at h <;> simp_all
  · exact ⟨front, body, by rw [hargs, List.concat_eq_append]⟩

/-- A property with a plain name has an identifier as its key. -/
theorem keyName_property {pos : Position} {key value : Node} {computed shorthand : Bool}
    {name : Text} (h : keyName? (.property pos key value computed shorthand) = some name) :
    ∃ kpos, key = .identifier kpos name ∧ computed = false := by
  unfold keyName? at h
  split at h
  · rename_i kpos _ _ _ heq
    simp only [Node.property.injEq] at heq
    obtain ⟨-, rfl, -, rfl, -⟩ := heq
    exact ⟨kpos, by rw [Option.some.inj h], rfl⟩
  · simp at h

mutual

/-- A tree that is in no declaration has all its functions in place. -/
theorem placed_self (ok : ParamRule) (up edge : Edge) (n : Node) (h : n.all isTyped = true) :
    Placed ok false [] up edge n n := by
  cases n with
  | absent => exact .leaf rfl
  | identifier pos name => exact .leaf rfl
  | stringLiteral pos value raw => exact .leaf rfl
  | numberLiteral pos raw => exact .leaf rfl
  | keywordLiteral pos value => exact .leaf rfl
  | program pos body =>
    rw [all, Bool.and_eq_true] at h
    exact .program rfl (placedAll_self ok edge .programBody body h.2)
  | varDecl pos keyword name init =>
    rw [all, Bool.and_eq_true, Bool.and_eq_true] at h
    exact .varDecl (placed_self ok edge .varName name h.1.2) (placed_self ok edge .varInit init h.2)
  | exprStmt x =>
    rw [all, Bool.and_eq_true] at h
    exact .exprStmt (placed_self ok edge .stmtExpr x h.2)
  | templateLiteral pos quasis exprs =>
    rw [all, Bool.and_eq_true] at h
    exact .templateLiteral rfl (placedAll_self ok edge .templateExpr exprs h.2)
  | array pos elements =>
    rw [all, Bool.and_eq_true] at h
    exact .array rfl (placedAll_self ok edge .arrayElement elements h.2)
  | object pos properties =>
    rw [all, Bool.and_eq_true] at h
    exact .object rfl (placedAll_self ok edge .objectProperty properties h.2)
  | property pos key value computed shorthand =>
    rw [all, Bool.and_eq_true, Bool.and_eq_true, isTyped, Bool.and_eq_true] at h
    have hkey := placed_self ok edge .propertyKey key h.1.2
    have hvalue := placed_self ok edge .propertyValue value h.2
    -- A property that has a name and a value is a field, with no layer around its value yet.
    cases hname : keyName? (.property pos key value computed shorthand) with
    | none => exact .property (.inl hname) hkey hvalue
    | some name =>
      rcases Bool.or_eq_true_iff.1 h.1.1.2 with habsent | hexpr
      · exact .property (.inr habsent) hkey hvalue
      obtain ⟨kpos, rfl, rfl⟩ := keyName_property hname
      have hfield : Placed ok false [] up edge (.property pos (.identifier kpos name) value false
          shorthand) (.property pos (.identifier kpos name) value false (shorthand && !false)) :=
        .field hexpr hvalue .nil
      simpa using hfield
  | spread pos x =>
    rw [all, Bool.and_eq_true] at h
    exact .spread (placed_self ok edge .spreadArgument x h.2)
  | member obj prop computed optional =>
    rw [all, Bool.and_eq_true, Bool.and_eq_true] at h
    exact .member (placed_self ok edge .memberObject obj h.1.2)
      (placed_self ok edge .memberProperty prop h.2)
  | call callee args optional =>
    rw [all, Bool.and_eq_true, Bool.and_eq_true, isTyped, Bool.and_eq_true] at h
    have hcallee := placed_self ok edge .callCallee callee h.1.2
    have hargs := placedAll_self ok edge .callArgument args h.2
    cases hdecl : declaration? callee args with
    | none => exact .call hdecl hcallee rfl hargs
    | some d =>
      obtain ⟨front, body, rfl⟩ := exists_body hdecl
      rw [List.zip_append rfl] at hargs
      refine .declaration hdecl hcallee rfl (fun p hp => hargs p (List.mem_append_left _ hp)) ?_
        (hargs (body, body) (List.mem_append_right _ (List.mem_singleton.2 rfl)))
      exact kind_ne_property_of_isExpression (List.all_eq_true.1 h.1.1.2 body (by simp))
  | function pos params body async =>
    rw [all, Bool.and_eq_true, Bool.and_eq_true] at h
    exact .function rfl (placedAll_self ok edge .functionParam params h.1.2)
      (placed_self ok edge .functionBody body h.2)
  | binary left op right =>
    rw [all, Bool.and_eq_true, Bool.and_eq_true] at h
    exact .binary (placed_self ok edge .binaryLeft left h.1.2)
      (placed_self ok edge .binaryRight right h.2)
  | unary pos op x =>
    rw [all, Bool.and_eq_true] at h
    exact .unary (placed_self ok edge .unaryOperand x h.2)
  | paren pos x =>
    rw [all, Bool.and_eq_true] at h
    exact .paren (placed_self ok edge .parenExpr x h.2)

theorem placedAll_self (ok : ParamRule) (up edge : Edge) (ns : List Node)
    (h : allOf isTyped ns = true) :
    ∀ p ∈ ns.zip ns, Placed ok false [] up edge p.1 p.2 := by
  cases ns with
  | nil => simp
  | cons n ns =>
    rw [allOf, Bool.and_eq_true] at h
    intro p hp
    rw [List.zip_cons_cons] at hp
    rcases List.mem_cons.1 hp with rfl | hp
    · exact placed_self ok up edge n h.1
    · exact placedAll_self ok up edge ns h.2 p hp

end

/-! ## One walk -/

theorem forall_zip_map {α β γ : Type} {f : β → γ} {as : List α} {bs : List β} {p : α → γ → Prop}
    (h : ∀ x ∈ as.zip bs, p x.1 (f x.2)) : ∀ x ∈ as.zip (bs.map f), p x.1 x.2 := by
  intro x hx
  rw [List.zip_map_right] at hx
  obtain ⟨y, hy, rfl⟩ := List.mem_map.1 hx
  exact h y hy

theorem forall_zip_snoc {α β : Type} {as : List α} {bs : List β} {a : α} {b : β}
    {p : α → β → Prop} (hlength : bs.length = as.length) (h : ∀ x ∈ as.zip bs, p x.1 x.2)
    (hlast : p a b) : ∀ x ∈ (as ++ [a]).zip (bs ++ [b]), p x.1 x.2 := by
  intro x hx
  rw [List.zip_append hlength.symm] at hx
  rcases List.mem_append.1 hx with hx | hx
  · exact h x hx
  · rw [List.mem_singleton.1 hx]
    exact hlast

instance : LawfulMonad Logged :=
  LawfulMonad.mk' Logged
    (fun x => by simp [Functor.map])
    (fun a f => by simp [Bind.bind, Pure.pure])
    (fun x f g => by simp [Bind.bind, List.append_assoc])

theorem mapM_val (f : Node → Logged Node) (ns : List Node) :
    (ns.mapM f).val = ns.map fun n => (f n).val := by
  induction ns with
  | nil => rfl
  | cons n ns ih =>
    rw [List.mapM_cons, List.map_cons, ← ih]
    rfl

theorem wrapAll_eq_mapM (rule : FieldRule) (up edge : Edge) (ns : List Node) :
    wrapAll rule up edge ns = ns.mapM (wrap rule up edge) := by
  induction ns with
  | nil => rw [wrapAll, List.mapM_nil]
  | cons n ns ih => rw [wrapAll, List.mapM_cons, ih]

theorem wrapAll_val (rule : FieldRule) (up edge : Edge) (ns : List Node) :
    (wrapAll rule up edge ns).val = ns.map fun n => (wrap rule up edge n).val := by
  rw [wrapAll_eq_mapM, mapM_val]

/-- A walk keeps the kind of a node. -/
theorem kind_wrap (rule : FieldRule) (up edge : Edge) (n : Node) :
    (wrap rule up edge n).val.kind = n.kind := by
  cases n with
  | property pos key value computed shorthand =>
    rw [wrap]
    split
    · split <;> rfl
    · rfl
  | _ => rw [wrap]; rfl

/-- A walk comes to a property with a plain name. -/
theorem wrap_field_val (rule : FieldRule) (up edge : Edge) (pos kpos : Position) (name : Text)
    (value : Node) (shorthand : Bool) :
    (wrap rule up edge (.property pos (.identifier kpos name) value false shorthand)).val =
      if rule.applies name up && !value.isAbsent then
        .property pos (.identifier kpos name) (.deferred (value.identifiers rule.resolve)
          value.position (wrap rule .propertyValue .functionBody value).val) false false
      else
        .property pos (.identifier kpos name) (wrap rule edge .propertyValue value).val false
          shorthand := by
  rw [wrap]
  simp only [keyName?]
  split <;> rfl

/-- A walk comes to another property. -/
theorem wrap_property_val (rule : FieldRule) (up edge : Edge) {pos : Position} {key value : Node}
    {computed shorthand : Bool}
    (h : keyName? (.property pos key value computed shorthand) = none ∨ value.isAbsent = true) :
    (wrap rule up edge (.property pos key value computed shorthand)).val =
      .property pos (wrap rule edge .propertyKey key).val (wrap rule edge .propertyValue value).val
        computed shorthand := by
  rw [wrap]
  cases hname : keyName? (.property pos key value computed shorthand) with
  | none => rfl
  | some name =>
    have habsent : value.isAbsent = true := h.resolve_left (by simp [hname])
    simp only [habsent, Bool.not_true, Bool.and_false, Bool.false_eq_true, if_false]
    rfl

/-- A walk goes through an added function to the value. -/
theorem wrap_deferred (rule : FieldRule) (up edge : Edge) (params : List Text) (pos : Position)
    (x : Node) : wrap rule up edge (.deferred params pos x) = do
      return .deferred params pos (← wrap rule edge .functionBody x) := by
  have hparams : ∀ names : List Text,
      (names.map fun p => Node.identifier .unknown p).mapM (wrap rule edge .functionParam) =
        pure (names.map fun p => Node.identifier .unknown p) := by
    intro names
    induction names with
    | nil => rfl
    | cons p names ih => rw [List.map_cons, List.mapM_cons, ih, wrap, pure_bind, pure_bind]
  rw [deferred, wrap, wrapAll_eq_mapM, hparams, pure_bind]
  rfl

theorem wrap_deferred_val (rule : FieldRule) (up edge : Edge) (params : List Text) (pos : Position)
    (x : Node) : (wrap rule up edge (.deferred params pos x)).val =
      .deferred params pos (wrap rule edge .functionBody x).val := by
  rw [wrap_deferred]
  rfl

/-- Only a property asks for the edge that leads to its parent. -/
theorem wrap_up {n : Node} (h : n.kind ≠ .property) (rule : FieldRule) (up up' edge : Edge) :
    wrap rule up edge n = wrap rule up' edge n := by
  cases n <;> first | (simp [kind] at h; done) | rw [wrap, wrap]

/-- A walk leaves alone what has no children. -/
theorem wrap_leaf_val {n : Node} (h : n.isLeaf = true) (rule : FieldRule) (up edge : Edge) :
    (wrap rule up edge n).val = n := by
  cases n <;> first | (simp [isLeaf] at h; done) | (rw [wrap]; rfl)

/-- Two edges are both those of an argument, or neither is. -/
def SameRole (e e' : Edge) : Prop := e = .callArgument ↔ e' = .callArgument

theorem SameRole.refl (e : Edge) : SameRole e e := Iff.rfl

theorem sameRole_of_ne {e e' : Edge} (h : e ≠ .callArgument) (h' : e' ≠ .callArgument) :
    SameRole e e' := ⟨fun he => absurd he h, fun he => absurd he h'⟩

/-- Layers keep the place of a value. -/
theorem Layered.position {ok : ParamRule} {key : Text} {up : Edge} {value x y : Node}
    {ds : List Declaration} (h : Layered ok key up value ds x y)
    (hx : x.position = value.position) : y.position = value.position := by
  induction h with
  | nil => exact hx
  | skip _ _ ih => exact ih hx
  | wrap _ _ _ _ => rfl

/-- Around a value there is nothing or a function. -/
theorem Layered.kind {ok : ParamRule} {key : Text} {up : Edge} {value x y : Node}
    {ds : List Declaration} (h : Layered ok key up value ds x y) :
    y.kind = x.kind ∨ y.kind = .function := by
  induction h with
  | nil => exact .inl rfl
  | skip _ _ ih => exact ih
  | wrap _ _ _ _ => exact .inr rfl

theorem Layered.isExpression {ok : ParamRule} {key : Text} {up : Edge} {value x y : Node}
    {ds : List Declaration} (h : Layered ok key up value ds x y) (hx : x.isExpression = true) :
    y.isExpression = true := by
  rcases h.kind with hkind | hkind
  · rwa [Node.isExpression, hkind]
  · rw [Node.isExpression, hkind]

/-- A walk goes through the layers around a value. -/
theorem Layered.wrap_val {ok : ParamRule} {key : Text} {up : Edge} {value x y : Node}
    {ds : List Declaration} (h : Layered ok key up value ds x y) (rule : FieldRule) {u e : Edge}
    (hu : u ≠ .callArgument) (he : e ≠ .callArgument) :
    ∃ u' e', u' ≠ .callArgument ∧ e' ≠ .callArgument ∧
      Layered ok key up value ds (Deferral.wrap rule u' e' x).val (Deferral.wrap rule u e y).val := by
  induction h generalizing u e with
  | nil => exact ⟨u, e, hu, he, .nil⟩
  | skip hd _ ih =>
    obtain ⟨u', e', hu', he', h⟩ := ih hu he
    exact ⟨u', e', hu', he', .skip hd h⟩
  | wrap hd hparams _ ih =>
    obtain ⟨u', e', hu', he', h⟩ := ih (e := .functionBody) he (by decide)
    exact ⟨u', e', hu', he', by rw [wrap_deferred_val]; exact .wrap hd hparams h⟩

theorem Placed.kind {ok : ParamRule} {deep : Bool} {ds : List Declaration} {up edge : Edge}
    {n m : Node} (h : Placed ok deep ds up edge n m) : m.kind = n.kind := by
  cases h <;> rfl

theorem Placed.isExpression {ok : ParamRule} {deep : Bool} {ds : List Declaration} {up edge : Edge}
    {n m : Node} (h : Placed ok deep ds up edge n m) : m.isExpression = n.isExpression := by
  rw [Node.isExpression, Node.isExpression, h.kind]

theorem Placed.isAbsent {ok : ParamRule} {deep : Bool} {ds : List Declaration} {up edge : Edge}
    {n m : Node} (h : Placed ok deep ds up edge n m) : m.isAbsent = n.isAbsent := by
  cases h <;> rfl

/-- A key keeps its name. -/
theorem Placed.keyName {ok : ParamRule} {deep : Bool} {ds : List Declaration} {up edge : Edge}
    {key key' : Node} (h : Placed ok deep ds up edge key key') (pos : Position) (value value' : Node)
    (computed shorthand : Bool) : keyName? (.property pos key' value' computed shorthand) =
      keyName? (.property pos key value computed shorthand) := by
  cases h with
  | leaf _ => cases key <;> cases computed <;> rfl
  | _ => cases computed <;> rfl

theorem Placed.position {ok : ParamRule} {deep : Bool} {ds : List Declaration} {up edge : Edge}
    {n m : Node} (h : Placed ok deep ds up edge n m) : m.position = n.position := by
  induction h <;> simp_all [Node.position]

/-- A walk by a rule puts the functions in place that `ds'` asks for beyond `ds`. -/
structure Adds (ok : ParamRule) (rule : FieldRule) (ds ds' : List Declaration) : Prop where
  /-- The rule does not tell apart edges that are not those of an argument. -/
  edge : ∀ key e e', SameRole e e' → rule.applies key e = rule.applies key e'
  /-- A property is deferred when it was before, or when the rule says so. -/
  defers : ∀ key up, (ds'.any fun d => d.defers key up) =
    ((ds.any fun d => d.defers key up) || rule.applies key up)
  /-- Where the rule does not apply, nothing is added. -/
  keeps : ∀ key up value x y, rule.applies key up = false → Layered ok key up value ds x y →
    Layered ok key up value ds' x y
  /-- Where the rule applies, a function of the names in the value so far is added. -/
  adds : ∀ key up edge value x₀ y₀ x y, rule.applies key up = true →
    Placed ok false ds edge .propertyValue value x₀ → Layered ok key up value ds x₀ y₀ →
    Layered ok key up value ds x y →
    Layered ok key up value ds' x (.deferred (y₀.identifiers rule.resolve) value.position y)

/-- One walk adds the functions of its rule. -/
theorem wrap_placed {ok : ParamRule} {rule : FieldRule} {ds ds' : List Declaration}
    {up edge : Edge} {n m : Node} (h : Placed ok false ds up edge n m)
    (hadds : Adds ok rule ds ds') {up' edge' : Edge} (hup : SameRole up' up)
    (hedge : SameRole edge' edge) : Placed ok false ds' up edge n (wrap rule up' edge' m).val := by
  induction h generalizing up' edge' with
  | leaf hleaf =>
    rw [wrap_leaf_val hleaf]
    exact .leaf hleaf
  | program hlength _ ih =>
    rw [wrap]
    show Placed ok false ds' _ _ _ (.program _ (wrapAll rule edge' .programBody _).val)
    rw [wrapAll_val]
    exact .program (by rw [List.length_map, hlength])
      (forall_zip_map fun p hp => ih p hp hadds hedge (.refl _))
  | varDecl _ _ ihname ihinit =>
    rw [wrap]
    exact .varDecl (ihname hadds hedge (.refl _)) (ihinit hadds hedge (.refl _))
  | exprStmt _ ih =>
    rw [wrap]
    exact .exprStmt (ih hadds hedge (.refl _))
  | templateLiteral hlength _ ih =>
    rw [wrap]
    show Placed ok false ds' _ _ _ (.templateLiteral _ _ (wrapAll rule edge' .templateExpr _).val)
    rw [wrapAll_val]
    exact .templateLiteral (by rw [List.length_map, hlength])
      (forall_zip_map fun p hp => ih p hp hadds hedge (.refl _))
  | array hlength _ ih =>
    rw [wrap]
    show Placed ok false ds' _ _ _ (.array _ (wrapAll rule edge' .arrayElement _).val)
    rw [wrapAll_val]
    exact .array (by rw [List.length_map, hlength])
      (forall_zip_map fun p hp => ih p hp hadds hedge (.refl _))
  | object hlength _ ih =>
    rw [wrap]
    show Placed ok false ds' _ _ _ (.object _ (wrapAll rule edge' .objectProperty _).val)
    rw [wrapAll_val]
    exact .object (by rw [List.length_map, hlength])
      (forall_zip_map fun p hp => ih p hp hadds hedge (.refl _))
  | @field ds up edge pos kpos name value x value' shorthand hexpr hvalue hlayers ih =>
    have hx : x.isExpression = true := by rw [hvalue.isExpression, hexpr]
    have hvalue' : value'.isExpression = true := hlayers.isExpression hx
    have hdefers := hadds.defers name up
    rw [wrap_field_val, isAbsent_of_isExpression hvalue', hadds.edge name _ _ hup]
    cases hrule : rule.applies name up with
    | true =>
      -- A function is put around the layers that are there, and the walk goes on below it.
      obtain ⟨u, e, -, he, hbody⟩ :=
        hlayers.wrap_val rule (u := .propertyValue) (e := .functionBody) (by decide) (by decide)
      rw [wrap_up (kind_ne_property_of_isExpression hx) rule u edge' e] at hbody
      have hplaced := ih hadds hedge (sameRole_of_ne he (by decide))
      have hadded := hadds.adds name up edge value x value' _ _ hrule hvalue hlayers hbody
      rw [hrule, Bool.or_true] at hdefers
      rw [hlayers.position hvalue.position]
      have hfield : Placed ok false ds' up edge
          (.property pos (.identifier kpos name) value false shorthand) _ :=
        .field hexpr hplaced hadded
      simpa [hdefers] using hfield
    | false =>
      obtain ⟨u, e, -, he, hbody⟩ :=
        hlayers.wrap_val rule (u := .propertyValue) (e := .propertyValue) (by decide) (by decide)
      rw [wrap_up (kind_ne_property_of_isExpression hx) rule u edge' e] at hbody
      have hplaced := ih hadds hedge (sameRole_of_ne he (by decide))
      have hkept := hadds.keeps name up value _ _ hrule hbody
      rw [hrule, Bool.or_false] at hdefers
      have hfield : Placed ok false ds' up edge
          (.property pos (.identifier kpos name) value false shorthand) _ :=
        .field hexpr hplaced hkept
      rw [hdefers,
        wrap_up (kind_ne_property_of_isExpression hvalue') rule .propertyValue edge'] at hfield
      simpa using hfield
  | property hnone hkey hvalue ihkey ihvalue =>
    rw [wrap_property_val rule _ _ (by rwa [hkey.keyName, hvalue.isAbsent])]
    exact .property hnone (ihkey hadds hedge (.refl _)) (ihvalue hadds hedge (.refl _))
  | spread _ ih =>
    rw [wrap]
    exact .spread (ih hadds hedge (.refl _))
  | member _ _ ihobj ihprop =>
    rw [wrap]
    exact .member (ihobj hadds hedge (.refl _)) (ihprop hadds hedge (.refl _))
  | call hnone _ hlength _ ihcallee ihargs =>
    rw [wrap]
    show Placed ok false ds' _ _ _ (.call _ (wrapAll rule edge' .callArgument _).val _)
    rw [wrapAll_val]
    exact .call hnone (ihcallee hadds hedge (.refl _)) (by rw [List.length_map, hlength])
      (forall_zip_map fun p hp => ihargs p hp hadds hedge (.refl _))
  | declaration hsome _ hlength _ hkind _ ihcallee ihargs ihbody =>
    rw [wrap]
    show Placed ok false ds' _ _ _ (.call _ (wrapAll rule edge' .callArgument _).val _)
    rw [wrapAll_val, List.map_append]
    exact .declaration hsome (ihcallee hadds hedge (.refl _)) (by rw [List.length_map, hlength])
      (forall_zip_map fun p hp => ihargs p hp hadds hedge (.refl _)) hkind
      (ihbody hadds hedge (.refl _))
  | function hlength _ _ ihparams ihbody =>
    rw [wrap]
    show Placed ok false ds' _ _ _ (.function _ (wrapAll rule edge' .functionParam _).val _ _)
    rw [wrapAll_val]
    exact .function (by rw [List.length_map, hlength])
      (forall_zip_map fun p hp => ihparams p hp hadds hedge (.refl _))
      (ihbody hadds hedge (.refl _))
  | binary _ _ ihl ihr =>
    rw [wrap]
    exact .binary (ihl hadds hedge (.refl _)) (ihr hadds hedge (.refl _))
  | unary _ ih =>
    rw [wrap]
    exact .unary (ih hadds hedge (.refl _))
  | paren _ ih =>
    rw [wrap]
    exact .paren (ih hadds hedge (.refl _))

/-! ## The walks of a declaration -/

/-- The names that are collected meet a condition on parameters. They may be collected when other
walks over the same declaration have been made, if the property is that of an extended cube. -/
structure Collects (r : Resolvers) (ok : ParamRule) : Prop where
  /-- The condition does not depend on whether the declaration may extend another one. -/
  extending : ∀ ds scope key value params, ok ds ⟨scope, false⟩ key value params →
    ok ds ⟨scope, true⟩ key value params
  /-- The names collected meet the condition. -/
  collects : ∀ before ds d key up edge value x y, before = ds ∨ key = extendsField →
    Placed ok false before edge .propertyValue value x → Layered ok key up value before x y →
    ok ds d key value (y.identifiers (d.accepts r key))

theorem bodyRule_applies (r : Resolvers) (scope key : Text) (up : Edge) :
    (bodyRule r scope).applies key up = (Declaration.mk scope false).defers key up := by
  simp [bodyRule, Declaration.defers]

theorem extendsField_not_body (scope : Text) (up : Edge) :
    (Declaration.mk scope false).defers extendsField up = false := by
  cases up <;> rfl

theorem accepts_of_ne {key : Text} (h : key ≠ extendsField) (r : Resolvers) (d : Declaration) :
    d.accepts r key = r.scope d.scope := by
  funext name
  rw [Declaration.accepts, if_neg h]

theorem accepts_extends (r : Resolvers) (d : Declaration) : d.accepts r extendsField = r.cube := by
  funext name
  rw [Declaration.accepts, if_pos rfl]

/-- The first walk over a declaration. -/
theorem adds_body {r : Resolvers} {ok : ParamRule} (hok : Collects r ok) (scope : Text)
    (ds : List Declaration) : Adds ok (bodyRule r scope) ds (⟨scope, false⟩ :: ds) where
  edge key e e' h := by
    have hdecide : decide (e ≠ .callArgument) = decide (e' ≠ .callArgument) :=
      decide_eq_decide.2 (not_congr h)
    simp only [bodyRule, hdecide]
  defers key up := by rw [List.any_cons, bodyRule_applies, Bool.or_comm]
  keeps key up value x y happlies h := by
    rw [bodyRule_applies] at happlies
    exact .skip happlies h
  adds key up edge value x₀ y₀ x y happlies hplaced hlayers h := by
    rw [bodyRule_applies] at happlies
    have hne : key ≠ extendsField := by
      rintro rfl
      rw [extendsField_not_body] at happlies
      simp at happlies
    have hparams := hok.collects ds ds ⟨scope, false⟩ key up edge value x₀ y₀ (.inl rfl) hplaced
      hlayers
    rw [accepts_of_ne hne] at hparams
    exact .wrap happlies hparams h

/-- The second walk over a cube or a view. -/
theorem adds_extends {r : Resolvers} {ok : ParamRule} (hok : Collects r ok) (scope : Text)
    (ds : List Declaration) :
    Adds ok (extendsRule r) (⟨scope, false⟩ :: ds) (⟨scope, true⟩ :: ds) where
  edge _ _ _ _ := rfl
  defers key up := by
    simp only [List.any_cons, Declaration.defers, extendsRule, Bool.false_and, Bool.or_false,
      Bool.true_and]
    rw [Bool.or_right_comm]
  keeps key up value x y happlies h := by
    have hne : key ≠ extendsField := by simpa [extendsRule] using happlies
    have hsame : (Declaration.mk scope true).defers key up =
        (Declaration.mk scope false).defers key up := by simp [Declaration.defers, hne]
    cases h with
    | skip hd h => exact .skip (by rw [hsame, hd]) h
    | wrap hd hparams h => exact .wrap (by rw [hsame, hd]) (hok.extending _ _ _ _ _ hparams) h
  adds key up edge value x₀ y₀ x y happlies hplaced hlayers h := by
    obtain rfl : key = extendsField := by simpa [extendsRule] using happlies
    have hparams := hok.collects _ ds ⟨scope, true⟩ extendsField up edge value x₀ y₀ (.inr rfl)
      hplaced hlayers
    rw [accepts_extends] at hparams
    cases h with
    | skip _ h => exact .wrap (by simp [Declaration.defers]) hparams h
    | wrap hd _ _ => rw [extendsField_not_body] at hd; simp at hd

/-- The rules of a call are those of the declaration that it is. -/
theorem rulesOf_eq (r : Resolvers) (callee : Node) (args : List Node) : rulesOf r callee args =
    match declaration? callee args with
    | none => []
    | some d => bodyRule r d.scope :: if d.extending then [extendsRule r] else [] := by
  cases callee with
  | identifier pos name =>
    cases args with
    | nil => rfl
    | cons first rest =>
      rw [rulesOf, declaration?]
      by_cases hcube : (name = lit "cube" || name = lit "view") = true
      · rw [if_pos hcube, if_pos hcube]
        rfl
      · rw [if_neg hcube, if_neg hcube]
        by_cases hcontext : name = lit "context"
        · rw [if_pos hcontext, if_pos hcontext]
          rfl
        · rw [if_neg hcontext, if_neg hcontext]
  | _ => rfl

/-- All walks over the body of a declaration. -/
theorem wrapBody_placed {r : Resolvers} {ok : ParamRule} (hok : Collects r ok)
    {callee : Node} {args : List Node} {d : Declaration} (hd : declaration? callee args = some d)
    {ds : List Declaration} {up : Edge} {n m : Node} (hn : n.kind ≠ .property)
    (h : Placed ok false ds up .callArgument n m) :
    Placed ok false (d :: ds) up .callArgument n (wrapBody (rulesOf r callee args) m).val := by
  obtain ⟨scope, extending⟩ := d
  have hwalk : ∀ {rule : FieldRule} {ds ds' : List Declaration} {m : Node}, Adds ok rule ds ds' →
      Placed ok false ds up .callArgument n m →
      Placed ok false ds' up .callArgument n (wrap rule .none .callArgument m).val := by
    intro rule ds ds' m hadds h
    rw [wrap_up (by rwa [h.kind]) rule .none up]
    exact wrap_placed h hadds (.refl _) (.refl _)
  have hbody := hwalk (adds_body hok scope ds) h
  rw [rulesOf_eq, hd]
  cases extending with
  | false => exact hbody
  | true => exact hwalk (adds_extends hok scope ds) hbody

/-! ## The whole pass -/

theorem outermostAll_eq_mapM (r : Resolvers) (inner : Node → Logged Node) (ns : List Node) :
    outermostAll r inner ns = ns.mapM (outermost r inner) := by
  induction ns with
  | nil => rw [outermostAll, List.mapM_nil]
  | cons n ns ih => rw [outermostAll, List.mapM_cons, ih]

theorem outermostAll_val (r : Resolvers) (inner : Node → Logged Node) (ns : List Node) :
    (outermostAll r inner ns).val = ns.map fun n => (outermost r inner n).val := by
  rw [outermostAll_eq_mapM, mapM_val]

theorem wrapLast_snoc (rules : List FieldRule) (args : List Node) (body : Node) :
    wrapLast rules (args ++ [body]) = do return args ++ [← wrapBody rules body] := by
  induction args with
  | nil => rfl
  | cons arg args ih =>
    have hstep : wrapLast rules (arg :: (args ++ [body])) = do
        return arg :: (← wrapLast rules (args ++ [body])) := by
      cases args <;> rfl
    rw [List.cons_append, hstep, ih]
    simp

theorem wrapLast_val (rules : List FieldRule) (args : List Node) (body : Node) :
    (wrapLast rules (args ++ [body])).val = args ++ [(wrapBody rules body).val] := by
  rw [wrapLast_snoc]
  rfl

/-- The pass goes through the layers around a value. -/
theorem Layered.outermost_val {ok : ParamRule} {key : Text} {up : Edge} {value x y : Node}
    {ds : List Declaration} (h : Layered ok key up value ds x y) (r : Resolvers)
    (inner : Node → Logged Node) :
    Layered ok key up value ds (outermost r inner x).val (outermost r inner y).val := by
  induction h with
  | nil => exact .nil
  | skip hd _ ih => exact .skip hd ih
  | @wrap d ds x y params hd hparams _ ih =>
    have hnames : (params.map fun p => Node.identifier .unknown p).map
        (fun n => (outermost r inner n).val) = params.map fun p => Node.identifier .unknown p := by
      rw [List.map_map]
      refine List.map_congr_left fun p _ => ?_
      rw [Function.comp, outermost]
      rfl
    rw [deferred, outermost]
    show Layered ok key up value _ _ (.function _ (outermostAll r inner _).val _ false)
    rw [outermostAll_val, hnames]
    exact .wrap hd hparams ih

theorem outermost_leaf_val {n : Node} (h : n.isLeaf = true) (r : Resolvers)
    (inner : Node → Logged Node) : (outermost r inner n).val = n := by
  cases n <;> first | (simp [isLeaf] at h; done) | (rw [outermost]; rfl)

/-- A walk keeps the name that a declaration gives itself. -/
theorem Placed.scopeName {ok : ParamRule} {deep : Bool} {ds : List Declaration} {up edge : Edge}
    {n m : Node} (h : Placed ok deep ds up edge n m) :
    Deferral.scopeName m = Deferral.scopeName n := by
  cases h with
  | @templateLiteral _ _ _ _ quasis _ _ _ _ => cases quasis <;> rfl
  | _ => rfl

/-- What a call declares depends on the name of its callee and on its first argument. -/
theorem declaration_congr {callee callee' : Node} {args args' : List Node}
    (hname : callee'.name? = callee.name?)
    (hscope : args'.map scopeName = args.map scopeName) :
    declaration? callee' args' = declaration? callee args := by
  have hnone : ∀ {c : Node} {as : List Node}, c.name? = none → declaration? c as = none := by
    intro c as hc
    cases c <;> first | rfl | simp [name?] at hc
  cases hc : callee.name? with
  | none => rw [hnone hc, hnone (hname.trans hc)]
  | some name =>
    rw [hc] at hname
    cases callee <;> simp only [name?, reduceCtorEq] at hc
    cases callee' <;> simp only [name?, reduceCtorEq] at hname
    obtain rfl := Option.some.inj hc
    obtain rfl := Option.some.inj hname
    cases args with
    | nil =>
      rw [List.map_eq_nil_iff.1 hscope]
      rfl
    | cons first rest =>
      cases args' with
      | nil => cases hscope
      | cons first' rest' =>
        have hfirst : scopeName first' = scopeName first := (List.cons.inj hscope).1
        rw [declaration?, declaration?, hfirst]

/-- A walk keeps what a call declares. -/
theorem Placed.declaration_eq {ok : ParamRule} {deep : Bool} {ds : List Declaration} {edge : Edge}
    {callee callee' : Node} {args args' : List Node}
    (hcallee : Placed ok deep ds edge .callCallee callee callee')
    (hlength : args'.length = args.length)
    (hargs : ∀ p ∈ args.zip args', Deferral.scopeName p.2 = Deferral.scopeName p.1) :
    declaration? callee' args' = declaration? callee args :=
  declaration_congr (by cases hcallee <;> rfl) (map_eq_of_zip hlength hargs)

/-- The pass comes to a call that is no declaration. -/
theorem outermost_call_val {r : Resolvers} {callee : Node} {args : List Node}
    (h : declaration? callee args = none) (inner : Node → Logged Node) (optional : Bool) :
    (outermost r inner (.call callee args optional)).val =
      .call (outermost r inner callee).val (args.map fun n => (outermost r inner n).val)
        optional := by
  have hrules : rulesOf r callee args = [] := by rw [rulesOf_eq, h]
  rw [outermost, hrules, ← outermostAll_val]
  rfl

/-- The pass comes to a declaration: it walks over the body and then goes on inside. -/
theorem outermost_declaration_val {r : Resolvers} {callee body : Node} {args : List Node}
    {d : Declaration} (h : declaration? callee (args ++ [body]) = some d)
    (inner : Node → Logged Node) (optional : Bool) :
    (outermost r inner (.call callee (args ++ [body]) optional)).val =
      .call (inner callee).val ((args.map fun n => (inner n).val) ++
        [(inner (wrapBody (rulesOf r callee (args ++ [body])) body).val).val]) optional := by
  have hargs :
      ((wrapLast (rulesOf r callee (args ++ [body])) (args ++ [body])).val.mapM inner).val =
      (args.map fun n => (inner n).val) ++
        [(inner (wrapBody (rulesOf r callee (args ++ [body])) body).val).val] := by
    rw [mapM_val, wrapLast_val, List.map_append]
    rfl
  rw [outermost, ← hargs]
  cases hrules : rulesOf r callee (args ++ [body]) with
  | nil => rw [rulesOf_eq, h] at hrules; simp at hrules
  | cons rule rules => rfl

/-- Going into the outermost declarations of a tree puts all functions in place, if going on inside
of them does so for trees with fewer calls. -/
theorem outermost_placed {r : Resolvers} {ok : ParamRule} (hok : Collects r ok)
    {inner : Node → Logged Node} {bound : Nat}
    (hinner : ∀ ds up edge n m, n.calls < bound → Placed ok false ds up edge n m →
      Placed ok true ds up edge n (inner m).val)
    {ds : List Declaration} {up edge : Edge} {n m : Node} (h : Placed ok false ds up edge n m)
    (hbound : n.calls ≤ bound) : Placed ok true ds up edge n (outermost r inner m).val := by
  -- The induction is on what earlier walks have left, and the bound on calls is handed down to
  -- every part; it is used up at a declaration, where `inner` goes on.
  have hlist : ∀ {ns ms : List Node} {p : Node × Node}, p ∈ ns.zip ms →
      p.1.calls ≤ callsAll ns := fun hp => calls_le_callsAll (List.of_mem_zip hp).1
  induction h with
  | leaf hleaf =>
    rw [outermost_leaf_val hleaf]
    exact .leaf hleaf
  | program hlength _ ih =>
    rw [outermost]
    show Placed ok true _ _ _ _ (.program _ (outermostAll r inner _).val)
    rw [calls] at hbound
    rw [outermostAll_val]
    exact .program (by rw [List.length_map, hlength])
      (forall_zip_map fun p hp => ih p hp (Nat.le_trans (hlist hp) hbound))
  | varDecl _ _ ihname ihinit =>
    rw [calls] at hbound
    rw [outermost]
    exact .varDecl (ihname (by omega)) (ihinit (by omega))
  | exprStmt _ ih =>
    rw [outermost]
    exact .exprStmt (ih hbound)
  | templateLiteral hlength _ ih =>
    rw [outermost]
    show Placed ok true _ _ _ _ (.templateLiteral _ _ (outermostAll r inner _).val)
    rw [calls] at hbound
    rw [outermostAll_val]
    exact .templateLiteral (by rw [List.length_map, hlength])
      (forall_zip_map fun p hp => ih p hp (Nat.le_trans (hlist hp) hbound))
  | array hlength _ ih =>
    rw [outermost]
    show Placed ok true _ _ _ _ (.array _ (outermostAll r inner _).val)
    rw [calls] at hbound
    rw [outermostAll_val]
    exact .array (by rw [List.length_map, hlength])
      (forall_zip_map fun p hp => ih p hp (Nat.le_trans (hlist hp) hbound))
  | object hlength _ ih =>
    rw [outermost]
    show Placed ok true _ _ _ _ (.object _ (outermostAll r inner _).val)
    rw [calls] at hbound
    rw [outermostAll_val]
    exact .object (by rw [List.length_map, hlength])
      (forall_zip_map fun p hp => ih p hp (Nat.le_trans (hlist hp) hbound))
  | field hexpr _ hlayers ih =>
    rw [calls] at hbound
    rw [outermost]
    show Placed ok true _ _ _ _
      (.property _ (outermost r inner _).val (outermost r inner _).val _ _)
    rw [outermost_leaf_val rfl]
    exact .field hexpr (ih (by omega)) (hlayers.outermost_val r inner)
  | property hnone _ _ ihkey ihvalue =>
    rw [calls] at hbound
    rw [outermost]
    exact .property hnone (ihkey (by omega)) (ihvalue (by omega))
  | spread _ ih =>
    rw [outermost]
    exact .spread (ih hbound)
  | member _ _ ihobj ihprop =>
    rw [calls] at hbound
    rw [outermost]
    exact .member (ihobj (by omega)) (ihprop (by omega))
  | call hnone hcallee hlength hargs ihcallee ihargs =>
    rw [calls] at hbound
    have hnone' := (hcallee.declaration_eq hlength fun p hp => (hargs p hp).scopeName).trans hnone
    rw [outermost_call_val hnone']
    exact .call hnone (ihcallee (by omega)) (by rw [List.length_map, hlength])
      (forall_zip_map fun p hp => ihargs p hp (by have := hlist hp; omega))
  | @declaration ds up edge callee callee' body body' args args' optional d hsome hcallee hlength
      hargs hkind hbody ihcallee ihargs ihbody =>
    rw [calls] at hbound
    have hcalls : ∀ x ∈ args ++ [body], x.calls < bound := by
      intro x hx
      have := calls_le_callsAll hx
      omega
    -- The call still is the same declaration, so the walk over its body uses the same rules.
    have hscopes : ∀ p ∈ (args ++ [body]).zip (args' ++ [body']), scopeName p.2 = scopeName p.1 :=
      forall_zip_snoc (p := fun x y => scopeName y = scopeName x) hlength
        (fun p hp => (hargs p hp).scopeName) hbody.scopeName
    have hsome' := (hcallee.declaration_eq (by simp [hlength]) hscopes).trans hsome
    rw [outermost_declaration_val hsome']
    refine .declaration hsome (hinner _ _ _ _ _ (by omega) hcallee) ?_ ?_ hkind ?_
    · rw [List.length_map, hlength]
    · refine forall_zip_map fun p hp => hinner _ _ _ _ _ (hcalls _ ?_) (hargs p hp)
      exact List.mem_append_left _ (List.of_mem_zip hp).1
    · refine hinner _ _ _ _ _ (hcalls _ (by simp)) ?_
      exact wrapBody_placed hok hsome' hkind hbody
  | function hlength _ _ ihparams ihbody =>
    rw [calls] at hbound
    rw [outermost]
    show Placed ok true _ _ _ _ (.function _ (outermostAll r inner _).val _ _)
    rw [outermostAll_val]
    exact .function (by rw [List.length_map, hlength])
      (forall_zip_map fun p hp => ihparams p hp (by have := hlist hp; omega)) (ihbody (by omega))
  | binary _ _ ihl ihr =>
    rw [calls] at hbound
    rw [outermost]
    exact .binary (ihl (by omega)) (ihr (by omega))
  | unary _ ih =>
    rw [outermost]
    exact .unary (ih hbound)
  | paren _ ih =>
    rw [outermost]
    exact .paren (ih hbound)

/-- Declarations that are nested no deeper than `depth` are all reached. -/
theorem nested_placed {r : Resolvers} {ok : ParamRule} (hok : Collects r ok) (depth : Nat)
    {ds : List Declaration} {up edge : Edge} {n m : Node} (hdepth : n.calls < depth)
    (h : Placed ok false ds up edge n m) : Placed ok true ds up edge n (nested r depth m).val := by
  induction depth generalizing ds up edge n m with
  | zero => omega
  | succ depth ih =>
    rw [nested]
    exact outermost_placed hok (fun _ _ _ _ _ hcalls h => ih hcalls h) h (by omega)

/-- A pass puts all functions in place. -/
theorem run_placed {r : Resolvers} {ok : ParamRule} (hok : Collects r ok) {n : Node}
    (h : n.all isTyped = true) : Placed ok true [] .none .none n (run r n).val := by
  rw [run, callCount_eq]
  exact nested_placed hok _ (Nat.lt_succ_self _) (placed_self ok .none .none n h)

/-! ## A view in a cube -/

/-- Accepts every name. -/
def acceptingAll : Resolvers :=
  { symbol := fun _ _ => true, current := fun _ => true, cube := fun _ => true }

/-- A property of a plain name. -/
def Node.entry (key : String) (value : Node) : Node :=
  .property .unknown (.identifier .unknown (lit key)) value false false

/-- A view inside of a cube, with deferred properties in both. -/
def viewInCube : Node :=
  let named (s : String) : Node := .identifier .unknown (lit s)
  let joined : Node := .binary (.member (named "a") (named "id") false false) (lit "===") (named "b")
  let view : Node := .call (named "view")
    [.stringLiteral .unknown (lit "V") [],
      .object .unknown [.entry "extends" (named "Base"), .entry "sql" joined]] false
  .program .unknown [.exprStmt (.call (named "cube")
    [.stringLiteral .unknown (lit "C") [],
      .object .unknown [.entry "sql" joined, .entry "joins" view]] false)]

end CubeSchema
