import CubeSchema.Proofs.Deferral.Placement
import CubeSchema.Proofs.Tree.Parentheses

/-!
# Walks over a tree without its parentheses

A node in parentheses is of another kind than the node, so a pass may not recognise it. `Sheds`
relates a tree to the same tree without parentheses, when the same declarations are recognised in
both, and the same blocks of members. Every walk keeps this, and so the results are the same without
parentheses (`Sheds.run_unpinned_eq`). Only the places of added functions differ, as a function
stands where its value starts.
-/

namespace CubeSchema

open Deferral Node

namespace Node

mutual

/-- The tree with the places of its functions forgotten. -/
def unpinned : Node → Node
  | absent => absent
  | program pos body => program pos (unpinnedAll body)
  | varDecl pos keyword name init => varDecl pos keyword name.unpinned init.unpinned
  | exprStmt x => exprStmt x.unpinned
  | identifier pos name => identifier pos name
  | stringLiteral pos value raw => stringLiteral pos value raw
  | templateLiteral pos quasis exprs => templateLiteral pos quasis (unpinnedAll exprs)
  | numberLiteral pos raw => numberLiteral pos raw
  | keywordLiteral pos value => keywordLiteral pos value
  | array pos elements => array pos (unpinnedAll elements)
  | object pos properties => object pos (unpinnedAll properties)
  | property pos key value computed shorthand =>
    property pos key.unpinned value.unpinned computed shorthand
  | spread pos x => spread pos x.unpinned
  | member obj prop computed optional => member obj.unpinned prop.unpinned computed optional
  | call callee args optional => call callee.unpinned (unpinnedAll args) optional
  | function _ params body async => function .unknown (unpinnedAll params) body.unpinned async
  | binary left op right => binary left.unpinned op right.unpinned
  | unary pos op x => unary pos op x.unpinned
  | paren pos x => paren pos x.unpinned

/-- The trees of a list with the places of their functions forgotten. -/
def unpinnedAll : List Node → List Node
  | [] => []
  | n :: rest => n.unpinned :: unpinnedAll rest

end

theorem unpinnedAll_eq_map (ns : List Node) : unpinnedAll ns = ns.map unpinned := by
  induction ns with
  | nil => rfl
  | cons n ns ih => rw [unpinnedAll, ih, List.map_cons]

end Node

/-! ## A tree and the same tree without parentheses -/

/-- How a node stands in its parent, with parentheses and without. -/
inductive Stance where
  /-- It is no argument of a call. -/
  | operand
  /-- It is an argument of a call. -/
  | argument
  /-- It is in the parentheses of an argument. -/
  | hidden
  deriving DecidableEq, Repr

namespace Stance

/-- How a node in parentheses stands. -/
def inParens : Stance → Stance
  | operand => operand
  | argument => hidden
  | hidden => hidden

/-- The edges that lead to a node, with parentheses and without. -/
def Fits : Stance → Edge → Edge → Prop
  | operand, e, e' => e ≠ .callArgument ∧ e' ≠ .callArgument
  | argument, e, e' => e = .callArgument ∧ e' = .callArgument
  | hidden, e, e' => e ≠ .callArgument ∧ e' = .callArgument

theorem fits_self {e : Edge} (h : e ≠ .callArgument) : operand.Fits e e := ⟨h, h⟩

theorem Fits.inParens {s : Stance} {e e' : Edge} (h : s.Fits e e') :
    s.inParens.Fits .parenExpr e' := by
  cases s <;> exact ⟨by decide, h.2⟩

theorem Fits.sameRole {s : Stance} {e e' : Edge} (h : s.Fits e e') (hs : s ≠ .hidden) :
    SameRole e e' := by
  cases s with
  | operand => exact sameRole_of_ne h.1 h.2
  | argument => exact ⟨fun _ => h.2, fun _ => h.1⟩
  | hidden => exact absurd rfl hs

end Stance

/-- The second tree is the first one without its parentheses, except for the places of functions.
The node stands as `stance` says, and its parent as `up` does. `inside` of a declaration no block is
hidden, and a call is the same declaration in both trees. -/
inductive Sheds : (inside : Bool) → (up stance : Stance) → Node → Node → Prop
  | leaf {inside : Bool} {up s : Stance} {n : Node} (hleaf : n.isLeaf = true) :
      Sheds inside up s n n
  | program {inside : Bool} {up s : Stance} {pos : Position} {body body' : List Node}
      (hlength : body'.length = body.length)
      (hbody : ∀ p ∈ body.zip body', Sheds inside s .operand p.1 p.2) :
      Sheds inside up s (.program pos body) (.program pos body')
  | varDecl {inside : Bool} {up s : Stance} {pos : Position} {keyword : Text}
      {name name' init init' : Node} (hname : Sheds inside s .operand name name')
      (hinit : Sheds inside s .operand init init') :
      Sheds inside up s (.varDecl pos keyword name init) (.varDecl pos keyword name' init')
  | exprStmt {inside : Bool} {up s : Stance} {x x' : Node} (hx : Sheds inside s .operand x x') :
      Sheds inside up s (.exprStmt x) (.exprStmt x')
  | templateLiteral {inside : Bool} {up s : Stance} {pos : Position} {quasis : List Quasi}
      {exprs exprs' : List Node} (hlength : exprs'.length = exprs.length)
      (hexprs : ∀ p ∈ exprs.zip exprs', Sheds inside s .operand p.1 p.2) :
      Sheds inside up s (.templateLiteral pos quasis exprs) (.templateLiteral pos quasis exprs')
  | array {inside : Bool} {up s : Stance} {pos : Position} {elements elements' : List Node}
      (hlength : elements'.length = elements.length)
      (helements : ∀ p ∈ elements.zip elements', Sheds inside s .operand p.1 p.2) :
      Sheds inside up s (.array pos elements) (.array pos elements')
  | object {inside : Bool} {up s : Stance} {pos : Position} {properties properties' : List Node}
      (hlength : properties'.length = properties.length)
      (hproperties : ∀ p ∈ properties.zip properties', Sheds inside s .operand p.1 p.2) :
      Sheds inside up s (.object pos properties) (.object pos properties')
  | field {inside : Bool} {up s : Stance} {pos kpos : Position} {name : Text} {value value' : Node}
      {shorthand : Bool}
      (hshown : inside = true → complexFields.contains name = true → up ≠ .hidden)
      (hexpr : value.isExpression = true) (hvalue : Sheds inside s .operand value value') :
      Sheds inside up s (.property pos (.identifier kpos name) value false shorthand)
        (.property pos (.identifier kpos name) value' false shorthand)
  | property {inside : Bool} {up s : Stance} {pos : Position} {key key' value value' : Node}
      {computed shorthand : Bool}
      (hunnamed : computed = true ∨ key.kind ≠ .identifier ∧ key'.kind ≠ .identifier)
      (hkey : Sheds inside s .operand key key') (hvalue : Sheds inside s .operand value value') :
      Sheds inside up s (.property pos key value computed shorthand)
        (.property pos key' value' computed shorthand)
  | spread {inside : Bool} {up s : Stance} {pos : Position} {x x' : Node}
      (hx : Sheds inside s .operand x x') : Sheds inside up s (.spread pos x) (.spread pos x')
  | member {inside : Bool} {up s : Stance} {obj obj' : Node} {ppos : Position} {name : Text}
      {optional : Bool} (hobj : Sheds inside s .operand obj obj') :
      Sheds inside up s (.member obj (.identifier ppos name) false optional)
        (.member obj' (.identifier ppos name) false optional)
  | index {inside : Bool} {up s : Stance} {obj obj' prop prop' : Node} {optional : Bool}
      (hobj : Sheds inside s .operand obj obj') (hprop : Sheds inside s .operand prop prop') :
      Sheds inside up s (.member obj prop true optional) (.member obj' prop' true optional)
  | call {inside : Bool} {up s : Stance} {callee callee' : Node} {args args' : List Node}
      {optional : Bool} (hnone : declaration? callee args = none)
      (hnone' : declaration? callee' args' = none)
      (hcallee : Sheds inside s .operand callee callee') (hlength : args'.length = args.length)
      (hargs : ∀ p ∈ args.zip args', Sheds inside s .argument p.1 p.2) :
      Sheds inside up s (.call callee args optional) (.call callee' args' optional)
  | declaration {inside : Bool} {up s : Stance} {callee callee' body body' : Node}
      {args args' : List Node} {optional : Bool} {d : Declaration}
      (hsome : declaration? callee (args ++ [body]) = some d)
      (hsome' : declaration? callee' (args' ++ [body']) = some d)
      (hcallee : Sheds inside s .operand callee callee') (hlength : args'.length = args.length)
      (hargs : ∀ p ∈ args.zip args', Sheds inside s .argument p.1 p.2)
      (hexpr : body.isExpression = true) (hbody : Sheds true s .argument body body') :
      Sheds inside up s (.call callee (args ++ [body]) optional)
        (.call callee' (args' ++ [body']) optional)
  | function {inside : Bool} {up s : Stance} {pos pos' : Position} {params params' : List Node}
      {body body' : Node} {async : Bool} (hlength : params'.length = params.length)
      (hparams : ∀ p ∈ params.zip params', Sheds inside s .operand p.1 p.2)
      (hbody : Sheds inside s .operand body body') :
      Sheds inside up s (.function pos params body async) (.function pos' params' body' async)
  | binary {inside : Bool} {up s : Stance} {left left' right right' : Node} {op : Text}
      (hleft : Sheds inside s .operand left left')
      (hright : Sheds inside s .operand right right') :
      Sheds inside up s (.binary left op right) (.binary left' op right')
  | unary {inside : Bool} {up s : Stance} {pos : Position} {op : Text} {x x' : Node}
      (hx : Sheds inside s .operand x x') : Sheds inside up s (.unary pos op x) (.unary pos op x')
  | paren {inside : Bool} {up s : Stance} {pos : Position} {x x' : Node}
      (hexpr : x.isExpression = true) (hx : Sheds inside up s.inParens x x') :
      Sheds inside up s (.paren pos x) x'

namespace Sheds

variable {inside : Bool} {up s : Stance} {n m : Node}

theorem isExpression_eq (h : Sheds inside up s n m) : m.isExpression = n.isExpression := by
  induction h with
  | paren hexpr _ ih => rw [ih, hexpr]; rfl
  | _ => rfl

/-- Only for a property it matters how the parent stands. -/
theorem moved (h : Sheds inside up s n m) (hkind : n.kind ≠ .property) (up' : Stance) :
    Sheds inside up' s n m := by
  induction h generalizing up' with
  | leaf hleaf => exact .leaf hleaf
  | program hlength hbody _ => exact .program hlength hbody
  | varDecl hname hinit _ _ => exact .varDecl hname hinit
  | exprStmt hx _ => exact .exprStmt hx
  | templateLiteral hlength hexprs _ => exact .templateLiteral hlength hexprs
  | array hlength helements _ => exact .array hlength helements
  | object hlength hproperties _ => exact .object hlength hproperties
  | field _ _ _ _ => exact absurd rfl hkind
  | property _ _ _ _ _ => exact absurd rfl hkind
  | spread hx _ => exact .spread hx
  | member hobj _ => exact .member hobj
  | index hobj hprop _ _ => exact .index hobj hprop
  | call hnone hnone' hcallee hlength hargs _ _ => exact .call hnone hnone' hcallee hlength hargs
  | declaration hsome hsome' hcallee hlength hargs hexpr hbody _ _ _ =>
    exact .declaration hsome hsome' hcallee hlength hargs hexpr hbody
  | function hlength hparams hbody _ _ => exact .function hlength hparams hbody
  | binary hleft hright _ _ => exact .binary hleft hright
  | unary hx _ => exact .unary hx
  | paren hexpr _ ih =>
    exact .paren hexpr (ih (kind_ne_property_of_isExpression hexpr) up')

theorem mentionsAll_eq {ns ms : List Node} (hlength : ms.length = ns.length)
    (h : ∀ p ∈ ns.zip ms, p.2.mentions = p.1.mentions) : mentionsAll ms = mentionsAll ns := by
  rw [mentionsAll_eq_flatMap, mentionsAll_eq_flatMap, List.flatMap_def, List.flatMap_def,
    map_eq_of_zip hlength h]

/-- Both trees mention the same names. -/
theorem mentions_eq (h : Sheds inside up s n m) : m.mentions = n.mentions := by
  induction h with
  | leaf _ => rfl
  | program hlength _ ih => exact mentionsAll_eq hlength ih
  | varDecl _ _ ihname ihinit => rw [mentions, mentions, ihname, ihinit]
  | exprStmt _ ih => exact ih
  | templateLiteral hlength _ ih => exact mentionsAll_eq hlength ih
  | array hlength _ ih => exact mentionsAll_eq hlength ih
  | object hlength _ ih => exact mentionsAll_eq hlength ih
  | field _ _ _ ih => exact congrArg ([_] ++ ·) ih
  | property _ _ _ ihkey ihvalue => rw [mentions, mentions, ihkey, ihvalue]
  | spread _ ih => exact ih
  | member _ ih => exact congrArg (· ++ _) ih
  | index _ _ ihobj ihprop => rw [mentions, mentions, ihobj, ihprop]; rfl
  | call _ _ _ hlength _ ihcallee ihargs =>
    rw [mentions, mentions, ihcallee, mentionsAll_eq hlength ihargs]
  | declaration _ _ _ hlength _ _ _ ihcallee ihargs ihbody =>
    rw [mentions, mentions, ihcallee, mentionsAll_eq (by simp [hlength])
      (forall_zip_snoc (p := fun x y => y.mentions = x.mentions) hlength ihargs ihbody)]
  | function hlength _ _ ihparams ihbody =>
    rw [mentions, mentions, mentionsAll_eq hlength ihparams, ihbody]
  | binary _ _ ihl ihr => rw [mentions, mentions, ihl, ihr]
  | unary _ ih => exact ih
  | paren _ _ ih => exact ih

theorem callsAll_eq {ns ms : List Node} (hlength : ms.length = ns.length)
    (h : ∀ p ∈ ns.zip ms, p.2.calls = p.1.calls) : callsAll ms = callsAll ns := by
  have hsum : ∀ ns : List Node, callsAll ns = (ns.map calls).sum := by
    intro ns
    induction ns with
    | nil => rfl
    | cons n ns ih => rw [callsAll, ih, List.map_cons, List.sum_cons]
  rw [hsum, hsum, map_eq_of_zip hlength h]

/-- Both trees have as many calls. -/
theorem calls_eq (h : Sheds inside up s n m) : m.calls = n.calls := by
  induction h with
  | leaf _ => rfl
  | program hlength _ ih => exact callsAll_eq hlength ih
  | varDecl _ _ ihname ihinit => rw [calls, calls, ihname, ihinit]
  | exprStmt _ ih => exact ih
  | templateLiteral hlength _ ih => exact callsAll_eq hlength ih
  | array hlength _ ih => exact callsAll_eq hlength ih
  | object hlength _ ih => exact callsAll_eq hlength ih
  | field _ _ _ ih => exact congrArg (0 + ·) ih
  | property _ _ _ ihkey ihvalue => rw [calls, calls, ihkey, ihvalue]
  | spread _ ih => exact ih
  | member _ ih => exact congrArg (· + 0) ih
  | index _ _ ihobj ihprop => rw [calls, calls, ihobj, ihprop]
  | call _ _ _ hlength _ ihcallee ihargs =>
    rw [calls, calls, ihcallee, callsAll_eq hlength ihargs]
  | declaration _ _ _ hlength _ _ _ ihcallee ihargs ihbody =>
    rw [calls, calls, ihcallee, callsAll_eq (by simp [hlength])
      (forall_zip_snoc (p := fun x y => y.calls = x.calls) hlength ihargs ihbody)]
  | function hlength _ _ ihparams ihbody =>
    rw [calls, calls, callsAll_eq hlength ihparams, ihbody]
  | binary _ _ ihl ihr => rw [calls, calls, ihl, ihr]
  | unary _ ih => exact ih
  | paren _ _ ih => exact ih

end Sheds

/-! ## Walks -/

section Wrap

variable (rule : FieldRule) (up edge : Edge) (n : Node)

theorem isExpression_wrap : (wrap rule up edge n).val.isExpression = n.isExpression := by
  rw [isExpression, isExpression, kind_wrap]

theorem name?_wrap : (wrap rule up edge n).val.name? = n.name? := by
  have hkind := kind_wrap rule up edge n
  cases n with
  | identifier pos name => rw [wrap]; rfl
  | _ =>
    revert hkind
    generalize (wrap rule up edge _).val = m
    intro hkind
    cases m <;> first | rfl | simp [kind] at hkind

theorem scopeName_wrap : scopeName (wrap rule up edge n).val = scopeName n := by
  have hkind := kind_wrap rule up edge n
  cases n with
  | stringLiteral pos value raw => rw [wrap]; rfl
  | templateLiteral pos quasis exprs =>
    rw [wrap]
    cases quasis <;> rfl
  | _ =>
    revert hkind
    generalize (wrap rule up edge _).val = m
    intro hkind
    cases m <;> first | rfl | simp [kind] at hkind

/-- A walk keeps what a call declares. -/
theorem declaration_wrap (rule : FieldRule) (up edge up' edge' : Edge) (callee : Node)
    (args : List Node) :
    declaration? (wrap rule up edge callee).val (args.map fun n => (wrap rule up' edge' n).val) =
      declaration? callee args := by
  refine declaration_congr (name?_wrap ..) ?_
  rw [List.map_map]
  exact List.map_congr_left fun n _ => scopeName_wrap ..

end Wrap

theorem forall_zip_map₂ {α β γ δ : Type} {f : α → γ} {g : β → δ} {as : List α} {bs : List β}
    {p : γ → δ → Prop} (h : ∀ x ∈ as.zip bs, p (f x.1) (g x.2)) :
    ∀ x ∈ (as.map f).zip (bs.map g), p x.1 x.2 := by
  rw [List.zip_map]
  intro x hx
  obtain ⟨y, hy, rfl⟩ := List.mem_map.1 hx
  exact h y hy

/-- A rule tells the edges of arguments from others only by the blocks of members. -/
def Deferral.FieldRule.Steady (rule : FieldRule) : Prop :=
  ∀ key e e', (complexFields.contains key = true → SameRole e e') →
    rule.applies key e = rule.applies key e'

theorem steady_bodyRule (r : Resolvers) (scope : Text) : (bodyRule r scope).Steady := by
  intro key e e' h
  simp only [bodyRule]
  cases hkey : complexFields.contains key with
  | false => rfl
  | true => rw [decide_eq_decide.2 (not_congr (h hkey))]

theorem steady_extendsRule (r : Resolvers) : (extendsRule r).Steady := fun _ _ _ _ => rfl

namespace Sheds

open Stance

variable {inside : Bool} {up s : Stance} {n m : Node}

/-- A walk keeps the two trees alike, inside of a declaration. -/
theorem wrap {rule : FieldRule} (hrule : rule.Steady) (h : Sheds inside up s n m)
    (hinside : inside = true) {u u' e e' : Edge} (hu : up.Fits u u') (he : s.Fits e e') :
    Sheds inside up s (Deferral.wrap rule u e n).val (Deferral.wrap rule u' e' m).val := by
  -- The two walks come to the same parts by different edges: only parentheses make them differ, and
  -- how a part stands says by how much.
  induction h generalizing u u' e e' with
  | leaf hleaf =>
    rw [wrap_leaf_val hleaf, wrap_leaf_val hleaf]
    exact .leaf hleaf
  | program hlength _ ih =>
    rw [Deferral.wrap, Deferral.wrap]
    show Sheds _ _ _ (.program _ (wrapAll rule e .programBody _).val)
      (.program _ (wrapAll rule e' .programBody _).val)
    rw [wrapAll_val, wrapAll_val]
    exact .program (by simp [hlength])
      (forall_zip_map₂ fun p hp => ih p hp hinside he (fits_self (by decide)))
  | varDecl _ _ ihname ihinit =>
    rw [Deferral.wrap, Deferral.wrap]
    exact .varDecl (ihname hinside he (fits_self (by decide)))
      (ihinit hinside he (fits_self (by decide)))
  | exprStmt _ ih =>
    rw [Deferral.wrap, Deferral.wrap]
    exact .exprStmt (ih hinside he (fits_self (by decide)))
  | templateLiteral hlength _ ih =>
    rw [Deferral.wrap, Deferral.wrap]
    show Sheds _ _ _ (.templateLiteral _ _ (wrapAll rule e .templateExpr _).val)
      (.templateLiteral _ _ (wrapAll rule e' .templateExpr _).val)
    rw [wrapAll_val, wrapAll_val]
    exact .templateLiteral (by simp [hlength])
      (forall_zip_map₂ fun p hp => ih p hp hinside he (fits_self (by decide)))
  | array hlength _ ih =>
    rw [Deferral.wrap, Deferral.wrap]
    show Sheds _ _ _ (.array _ (wrapAll rule e .arrayElement _).val)
      (.array _ (wrapAll rule e' .arrayElement _).val)
    rw [wrapAll_val, wrapAll_val]
    exact .array (by simp [hlength])
      (forall_zip_map₂ fun p hp => ih p hp hinside he (fits_self (by decide)))
  | object hlength _ ih =>
    rw [Deferral.wrap, Deferral.wrap]
    show Sheds _ _ _ (.object _ (wrapAll rule e .objectProperty _).val)
      (.object _ (wrapAll rule e' .objectProperty _).val)
    rw [wrapAll_val, wrapAll_val]
    exact .object (by simp [hlength])
      (forall_zip_map₂ fun p hp => ih p hp hinside he (fits_self (by decide)))
  | @field inside up s pos kpos name value value' shorthand hshown hexpr hvalue ih =>
    have hexpr' : value'.isExpression = true := hvalue.isExpression_eq.trans hexpr
    have hvalues : ∀ (above : Edge) (edge : Edge), edge ≠ .callArgument →
        Sheds inside s .operand (Deferral.wrap rule above edge value).val
          (Deferral.wrap rule above edge value').val := by
      intro above edge hedge
      rw [wrap_up (kind_ne_property_of_isExpression hexpr) rule above e,
        wrap_up (kind_ne_property_of_isExpression hexpr') rule above e']
      exact ih hinside he (fits_self hedge)
    -- The walks agree on whether the property is wrapped, as its block is not hidden.
    have happlies : rule.applies name u = rule.applies name u' :=
      hrule _ _ _ fun hblock => hu.sameRole (hshown hinside hblock)
    rw [wrap_field_val, wrap_field_val, happlies, isAbsent_of_isExpression hexpr,
      isAbsent_of_isExpression hexpr']
    split
    · rw [identifiers_eq, identifiers_eq, hvalue.mentions_eq, deferred, deferred]
      refine .field hshown rfl (.function rfl (fun p hp => ?_) ?_)
      · -- The same parameters stand in both trees.
        rw [List.zip_map', List.mem_map] at hp
        obtain ⟨name, -, rfl⟩ := hp
        exact .leaf rfl
      · refine (hvalues .propertyValue .functionBody (by decide)).moved ?_ .operand
        rw [kind_wrap]
        exact kind_ne_property_of_isExpression hexpr
    · refine .field hshown (by rw [isExpression_wrap, hexpr]) ?_
      rw [wrap_up (kind_ne_property_of_isExpression hexpr) rule e u,
        wrap_up (kind_ne_property_of_isExpression hexpr') rule e' u]
      exact hvalues _ _ (by decide)
  | @property inside up s pos key key' value value' computed shorthand hunnamed hkey hvalue ihkey
      ihvalue =>
    have hnone : ∀ {k v : Node}, computed = true ∨ k.kind ≠ .identifier →
        keyName? (.property pos k v computed shorthand) = none := by
      intro k v hk
      rcases hk with rfl | hk
      · cases k <;> rfl
      · cases k <;> first | rfl | exact absurd rfl hk
    rw [wrap_property_val rule _ _ (.inl (hnone (hunnamed.imp_right And.left))),
      wrap_property_val rule _ _ (.inl (hnone (hunnamed.imp_right And.right)))]
    exact .property (by rwa [kind_wrap, kind_wrap]) (ihkey hinside he (fits_self (by decide)))
      (ihvalue hinside he (fits_self (by decide)))
  | spread _ ih =>
    rw [Deferral.wrap, Deferral.wrap]
    exact .spread (ih hinside he (fits_self (by decide)))
  | member _ ih =>
    rw [Deferral.wrap, Deferral.wrap, Deferral.wrap, Deferral.wrap]
    exact .member (ih hinside he (fits_self (by decide)))
  | index _ _ ihobj ihprop =>
    rw [Deferral.wrap, Deferral.wrap]
    exact .index (ihobj hinside he (fits_self (by decide)))
      (ihprop hinside he (fits_self (by decide)))
  | call hnone hnone' _ hlength _ ihcallee ihargs =>
    rw [Deferral.wrap, Deferral.wrap]
    show Sheds _ _ _ (.call _ (wrapAll rule e .callArgument _).val _)
      (.call _ (wrapAll rule e' .callArgument _).val _)
    rw [wrapAll_val, wrapAll_val]
    exact .call ((declaration_wrap ..).trans hnone) ((declaration_wrap ..).trans hnone')
      (ihcallee hinside he (fits_self (by decide))) (by simp [hlength])
      (forall_zip_map₂ fun p hp => ihargs p hp hinside he ⟨rfl, rfl⟩)
  | declaration hsome hsome' _ hlength _ hexpr _ ihcallee ihargs ihbody =>
    rw [Deferral.wrap, Deferral.wrap]
    show Sheds _ _ _ (.call _ (wrapAll rule e .callArgument _).val _)
      (.call _ (wrapAll rule e' .callArgument _).val _)
    rw [wrapAll_val, wrapAll_val]
    have hsome := (declaration_wrap rule e .callCallee e .callArgument ..).trans hsome
    have hsome' := (declaration_wrap rule e' .callCallee e' .callArgument ..).trans hsome'
    rw [List.map_append] at hsome hsome' ⊢
    rw [List.map_append]
    exact .declaration hsome hsome' (ihcallee hinside he (fits_self (by decide)))
      (by simp [hlength])
      (forall_zip_map₂ fun p hp => ihargs p hp hinside he ⟨rfl, rfl⟩)
      (by rw [isExpression_wrap, hexpr]) (ihbody rfl he ⟨rfl, rfl⟩)
  | function hlength _ _ ihparams ihbody =>
    rw [Deferral.wrap, Deferral.wrap]
    show Sheds _ _ _ (.function _ (wrapAll rule e .functionParam _).val _ _)
      (.function _ (wrapAll rule e' .functionParam _).val _ _)
    rw [wrapAll_val, wrapAll_val]
    exact .function (by simp [hlength])
      (forall_zip_map₂ fun p hp => ihparams p hp hinside he (fits_self (by decide)))
      (ihbody hinside he (fits_self (by decide)))
  | binary _ _ ihl ihr =>
    rw [Deferral.wrap, Deferral.wrap]
    exact .binary (ihl hinside he (fits_self (by decide)))
      (ihr hinside he (fits_self (by decide)))
  | unary _ ih =>
    rw [Deferral.wrap, Deferral.wrap]
    exact .unary (ih hinside he (fits_self (by decide)))
  | paren hexpr _ ih =>
    -- Only the first walk takes a step here; an argument is hidden from then on.
    rw [Deferral.wrap]
    refine .paren (by rw [isExpression_wrap, hexpr]) ?_
    rw [wrap_up (kind_ne_property_of_isExpression hexpr) rule e u]
    exact ih hinside hu he.inParens

/-- The walks over the body of a declaration keep the two trees alike. -/
theorem wrapBody {rules : List FieldRule} (hrules : ∀ rule ∈ rules, rule.Steady)
    (hexpr : n.isExpression = true) (h : Sheds true .operand .argument n m) :
    Sheds true .operand .argument (Deferral.wrapBody rules n).val
      (Deferral.wrapBody rules m).val := by
  induction rules generalizing n m with
  | nil => exact h
  | cons rule rules ih =>
    have hup : Stance.operand.Fits .none .none := fits_self (by decide)
    have hedge : Stance.argument.Fits .callArgument .callArgument := ⟨rfl, rfl⟩
    have hwrap := h.wrap (hrules rule (List.mem_cons_self ..)) rfl hup hedge
    exact ih (fun rule h => hrules rule (List.mem_cons_of_mem _ h))
      (by rw [isExpression_wrap, hexpr]) hwrap

/-! ## The whole pass -/

theorem unpinnedAll_stripAll_eq {ns ms : List Node} (hlength : ms.length = ns.length)
    (h : ∀ p ∈ ns.zip ms, p.1.strip.unpinned = p.2.unpinned) :
    unpinnedAll (stripAll ns) = unpinnedAll ms := by
  rw [unpinnedAll_eq_map, unpinnedAll_eq_map, stripAll_eq_map, List.map_map]
  exact (map_eq_of_zip hlength fun p hp => (h p hp).symm).symm

/-- Without parentheses the first tree is the second one, except for the places of functions. -/
theorem unpinned_eq (h : Sheds inside up s n m) : n.strip.unpinned = m.unpinned := by
  induction h with
  | @leaf _ _ _ n hleaf => cases n <;> first | rfl | simp [isLeaf] at hleaf
  | program hlength _ ih => rw [strip, unpinned, unpinned, unpinnedAll_stripAll_eq hlength ih]
  | varDecl _ _ ihname ihinit => rw [strip, unpinned, unpinned, ihname, ihinit]
  | exprStmt _ ih => rw [strip, unpinned, unpinned, ih]
  | templateLiteral hlength _ ih =>
    rw [strip, unpinned, unpinned, unpinnedAll_stripAll_eq hlength ih]
  | array hlength _ ih => rw [strip, unpinned, unpinned, unpinnedAll_stripAll_eq hlength ih]
  | object hlength _ ih => rw [strip, unpinned, unpinned, unpinnedAll_stripAll_eq hlength ih]
  | field _ _ _ ih => rw [strip, strip, unpinned, unpinned, unpinned, unpinned, ih]
  | property _ _ _ ihkey ihvalue => rw [strip, unpinned, unpinned, ihkey, ihvalue]
  | spread _ ih => rw [strip, unpinned, unpinned, ih]
  | member _ ih => rw [strip, strip, unpinned, unpinned, unpinned, unpinned, ih]
  | index _ _ ihobj ihprop => rw [strip, unpinned, unpinned, ihobj, ihprop]
  | call _ _ _ hlength _ ihcallee ihargs =>
    rw [strip, unpinned, unpinned, ihcallee, unpinnedAll_stripAll_eq hlength ihargs]
  | declaration _ _ _ hlength _ _ _ ihcallee ihargs ihbody =>
    rw [strip, unpinned, unpinned, ihcallee, unpinnedAll_stripAll_eq (by simp [hlength])
      (forall_zip_snoc (p := fun x y => x.strip.unpinned = y.unpinned) hlength ihargs ihbody)]
  | function hlength _ _ ihparams ihbody =>
    rw [strip, unpinned, unpinned, unpinnedAll_stripAll_eq hlength ihparams, ihbody]
  | binary _ _ ihl ihr => rw [strip, unpinned, unpinned, ihl, ihr]
  | unary _ ih => rw [strip, unpinned, unpinned, ih]
  | paren _ _ ih => rw [strip, ih]

/-- Going into the outermost declarations keeps the two trees the same, if going on inside of them
does. -/
theorem outermost_unpinned_eq {r : Resolvers} {inner : Node → Logged Node}
    (hinner : ∀ {inside up s n m}, Sheds inside up s n m →
      (inner n).val.strip.unpinned = (inner m).val.unpinned) (h : Sheds inside up s n m) :
    (Deferral.outermost r inner n).val.strip.unpinned =
      (Deferral.outermost r inner m).val.unpinned := by
  have hlist : ∀ {ns ms : List Node}, ms.length = ns.length →
      (∀ p ∈ ns.zip ms, (Deferral.outermost r inner p.1).val.strip.unpinned =
        (Deferral.outermost r inner p.2).val.unpinned) →
      unpinnedAll (stripAll (outermostAll r inner ns).val) =
        unpinnedAll (outermostAll r inner ms).val := by
    intro ns ms hlength hall
    rw [outermostAll_val, outermostAll_val]
    exact unpinnedAll_stripAll_eq (by simp [hlength])
      (forall_zip_map₂ (p := fun x y : Node => x.strip.unpinned = y.unpinned) hall)
  induction h with
  | @leaf _ _ _ n hleaf =>
    rw [outermost_leaf_val hleaf]
    exact (Sheds.leaf hleaf : Sheds false .operand .operand n n).unpinned_eq
  | program hlength _ ih =>
    rw [Deferral.outermost, Deferral.outermost]
    exact congrArg (Node.program _) (hlist hlength ih)
  | varDecl _ _ ihname ihinit =>
    rw [Deferral.outermost, Deferral.outermost]
    exact congrArg₂ (Node.varDecl _ _) ihname ihinit
  | exprStmt _ ih =>
    rw [Deferral.outermost, Deferral.outermost]
    exact congrArg Node.exprStmt ih
  | templateLiteral hlength _ ih =>
    rw [Deferral.outermost, Deferral.outermost]
    exact congrArg (Node.templateLiteral _ _) (hlist hlength ih)
  | array hlength _ ih =>
    rw [Deferral.outermost, Deferral.outermost]
    exact congrArg (Node.array _) (hlist hlength ih)
  | object hlength _ ih =>
    rw [Deferral.outermost, Deferral.outermost]
    exact congrArg (Node.object _) (hlist hlength ih)
  | field _ _ _ ih =>
    rw [Deferral.outermost, Deferral.outermost]
    exact congrArg (Node.property _ _ · _ _) ih
  | property _ _ _ ihkey ihvalue =>
    rw [Deferral.outermost, Deferral.outermost]
    exact congrArg₂ (Node.property _ · · _ _) ihkey ihvalue
  | spread _ ih =>
    rw [Deferral.outermost, Deferral.outermost]
    exact congrArg (Node.spread _) ih
  | member _ ih =>
    rw [Deferral.outermost, Deferral.outermost]
    exact congrArg (Node.member · _ _ _) ih
  | index _ _ ihobj ihprop =>
    rw [Deferral.outermost, Deferral.outermost]
    exact congrArg₂ (Node.member · · _ _) ihobj ihprop
  | call hnone hnone' _ hlength _ ihcallee ihargs =>
    rw [outermost_call_val hnone, outermost_call_val hnone', ← outermostAll_val, ← outermostAll_val]
    exact congrArg₂ (Node.call · · _) ihcallee (hlist hlength ihargs)
  | @declaration _ _ s callee callee' body body' args args' _ d hsome hsome' hcallee hlength hargs
      hexpr hbody _ _ _ =>
    rw [outermost_declaration_val hsome, outermost_declaration_val hsome']
    -- Both calls are the same declaration, so the same walks are made over their bodies.
    have hrules : rulesOf r callee' (args' ++ [body']) = rulesOf r callee (args ++ [body]) := by
      rw [rulesOf_eq, rulesOf_eq, hsome, hsome']
    have hsteady : ∀ rule ∈ rulesOf r callee (args ++ [body]), rule.Steady := by
      rw [rulesOf_eq, hsome]
      obtain ⟨scope, _ | _⟩ := d <;> simp [steady_bodyRule, steady_extendsRule]
    have hwalks := (hbody.moved (kind_ne_property_of_isExpression hexpr) .operand).wrapBody hsteady
      hexpr
    rw [hrules]
    refine congrArg₂ (Node.call · · _) (hinner hcallee) (unpinnedAll_stripAll_eq ?_ ?_)
    · simp [hlength]
    · refine forall_zip_snoc (p := fun x y : Node => x.strip.unpinned = y.unpinned)
        (by simp [hlength]) ?_ (hinner hwalks)
      exact forall_zip_map₂ (p := fun x y : Node => x.strip.unpinned = y.unpinned)
        fun p hp => hinner (hargs p hp)
  | function hlength _ _ ihparams ihbody =>
    rw [Deferral.outermost, Deferral.outermost]
    exact congrArg₂ (Node.function _ · · _) (hlist hlength ihparams) ihbody
  | binary _ _ ihl ihr =>
    rw [Deferral.outermost, Deferral.outermost]
    exact congrArg₂ (Node.binary · _ ·) ihl ihr
  | unary _ ih =>
    rw [Deferral.outermost, Deferral.outermost]
    exact congrArg (Node.unary _ _) ih
  | paren _ _ ih =>
    rw [Deferral.outermost]
    exact ih

/-- A pass keeps the two trees the same. -/
theorem run_unpinned_eq (r : Resolvers) (h : Sheds inside up s n m) :
    (Deferral.run r n).val.strip.unpinned = (Deferral.run r m).val.unpinned := by
  -- Both trees have as many calls, so the pass goes equally deep into them.
  have hnested : ∀ (depth : Nat) {inside up s n m}, Sheds inside up s n m →
      (nested r depth n).val.strip.unpinned = (nested r depth m).val.unpinned := by
    intro depth
    induction depth with
    | zero => exact fun h => h.unpinned_eq
    | succ depth ih => exact fun h => h.outermost_unpinned_eq ih
  rw [Deferral.run, Deferral.run, callCount_eq, callCount_eq, h.calls_eq]
  exact hnested _ h

end Sheds

end CubeSchema
