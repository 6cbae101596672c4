import CubeSchema.Proofs.Deferral.Forming
import CubeSchema.Proofs.Deferral.Shedding

/-!
# What parentheses hide from a pass

The pass finds declarations, their names and the blocks of their members by the kinds of nodes.
`Node.showsDeclaration` says that parentheses hide none of these. A tree that has been read and in
which nothing is hidden sheds its parentheses (`sheds_strip_program`).
-/

namespace CubeSchema

open Deferral Node

/-! ## What parentheses hide -/

namespace Node

/-- Whether a node is an object with a block that declares members in an argument of a call, and is
deferred elsewhere. -/
def hasBlock : Node → Bool
  | object _ properties => properties.any fun p => p.keyName?.any complexFields.contains
  | _ => false

/-- Whether a node is such an object in parentheses. -/
def hidesBlock (n : Node) : Bool := n.kind = .paren && n.peeled.hasBlock

/-- Whether no argument of a call hides a block. -/
def showsBlocks : Node → Bool
  | call _ args _ => args.all fun x => !x.hidesBlock
  | _ => true

/-- Whether parentheses hide nothing of a declaration: a call is a declaration of a name exactly if
it is one without the parentheses around its parts, and no block is hidden in its body. -/
def showsDeclaration : Node → Bool
  | call callee args _ =>
    CubeSchema.declaration? callee.peeled (args.map peeled) = CubeSchema.declaration? callee args &&
      ((CubeSchema.declaration? callee args).isNone ||
        args.getLast?.all fun body => !body.hidesBlock && body.all showsBlocks)
  | _ => true

end Node

/-! ## Trees that have been read -/

theorem scopeName_strip (n : Node) : scopeName n.strip = scopeName n.peeled := by
  refine strip_eq_peeled (fun n h => ?_) n
  cases n with
  | paren pos x => exact absurd rfl h
  | templateLiteral pos quasis exprs => cases quasis <;> rfl
  | _ => rfl

theorem declaration_strip (callee : Node) (args : List Node) :
    declaration? callee.strip (stripAll args) = declaration? callee.peeled (args.map peeled) := by
  refine declaration_congr callee.name?_strip ?_
  rw [stripAll_eq_map, List.map_map, List.map_map]
  exact List.map_congr_left fun n _ => scopeName_strip n

theorem forall_zip_strip {p : Node → Node → Prop} {ns : List Node} (h : ∀ n ∈ ns, p n n.strip) :
    ∀ x ∈ ns.zip (stripAll ns), p x.1 x.2 := by
  rw [stripAll_eq_map, ← List.map_prod_left_eq_zip]
  intro x hx
  obtain ⟨n, hn, rfl⟩ := List.mem_map.1 hx
  exact h n hn

/-- What parentheses must not hide in a part of a tree. -/
structure Shown (inside : Bool) (up s : Stance) (n : Node) : Prop where
  /-- No declaration is hidden. -/
  declarations : ∀ m ∈ n.nodes, m.showsDeclaration = true
  /-- Inside of a declaration no argument hides a block. -/
  blocks : inside = true → ∀ m ∈ n.nodes, m.showsBlocks = true
  /-- The node is no block of an object that is hidden itself. -/
  field : inside = true → up = .hidden → n.keyName?.any complexFields.contains = false
  /-- The node has no block if it is hidden itself. -/
  object : inside = true → s = .hidden → n.peeled.hasBlock = false
  /-- The node hides no block if it is an argument. -/
  argument : inside = true → s = .argument → n.hidesBlock = false

namespace Shown

variable {inside : Bool} {up s up' : Stance} {n x : Node}

theorem field_of_kind_ne (hkind : n.kind ≠ .property) :
    n.keyName?.any complexFields.contains = false := by
  cases n <;> first | rfl | exact absurd rfl hkind

/-- A part that is no argument. -/
theorem operand (h : Shown inside up s n) (hkind : x.kind ≠ .property)
    (hsub : ∀ m ∈ x.nodes, m ∈ n.nodes) : Shown inside up' .operand x where
  declarations m hm := h.declarations m (hsub m hm)
  blocks hinside m hm := h.blocks hinside m (hsub m hm)
  field _ _ := field_of_kind_ne hkind
  object := nofun
  argument := nofun

/-- A member of an object. -/
theorem entry {pos : Position} {properties : List Node}
    (h : Shown inside up s (.object pos properties)) (hx : x ∈ properties) :
    Shown inside s .operand x where
  declarations m hm := h.declarations m (List.mem_cons_of_mem _ (mem_nodesAll hx hm))
  blocks hinside m hm := h.blocks hinside m (List.mem_cons_of_mem _ (mem_nodesAll hx hm))
  field hinside hs := by
    have hblock : properties.any (fun p => p.keyName?.any complexFields.contains) = false :=
      h.object hinside hs
    exact List.any_eq_false.1 hblock x hx |> eq_false_of_ne_true
  object := nofun
  argument := nofun

/-- The content of parentheses. -/
theorem content {pos : Position} (h : Shown inside up s (.paren pos x))
    (hkind : x.kind ≠ .property) : Shown inside up s.inParens x where
  declarations m hm := h.declarations m (List.mem_cons_of_mem _ hm)
  blocks hinside m hm := h.blocks hinside m (List.mem_cons_of_mem _ hm)
  field _ _ := field_of_kind_ne hkind
  object hinside hs := by
    cases s with
    | operand => cases hs
    | argument => exact h.argument hinside rfl
    | hidden => exact h.object hinside rfl
  argument _ hs := by cases s <;> cases hs

variable {callee last : Node} {args : List Node} {optional : Bool}

/-- An argument of a call. -/
theorem arg (h : Shown inside up s (.call callee args optional)) (hkind : x.kind ≠ .property)
    (hx : x ∈ args) : Shown inside up' .argument x where
  declarations m hm := h.declarations m (by simp [nodes, mem_nodesAll hx hm])
  blocks hinside m hm := h.blocks hinside m (by simp [nodes, mem_nodesAll hx hm])
  field _ _ := field_of_kind_ne hkind
  object := nofun
  argument hinside _ := by
    have hshows : args.all (fun x => !x.hidesBlock) = true :=
      h.blocks hinside _ (List.mem_cons_self ..)
    simpa using List.all_eq_true.1 hshows x hx

/-- The body of a declaration. -/
theorem body (h : Shown inside up s (.call callee (args ++ [last]) optional))
    (hkind : last.kind ≠ .property) {d : Declaration}
    (hd : declaration? callee (args ++ [last]) = some d) : Shown true up' .argument last := by
  have hshows := h.declarations _ (List.mem_cons_self ..)
  rw [showsDeclaration, hd, List.getLast?_concat, Bool.and_eq_true] at hshows
  obtain ⟨hhides, hblocks⟩ : last.hidesBlock = false ∧ last.all showsBlocks = true := by
    simpa using hshows.2
  have hlast : ∀ m ∈ last.nodes, m ∈ nodesAll (args ++ [last]) := fun m hm =>
    mem_nodesAll (List.mem_append_right args (List.mem_singleton.2 rfl)) hm
  exact
    { declarations := fun m hm => h.declarations m (by simp [nodes, hlast m hm])
      blocks := fun _ => all_eq_true.1 hblocks
      field := fun _ _ => field_of_kind_ne hkind
      object := nofun
      argument := fun _ _ => hhides }

/-- Parentheses do not decide whether a call is a declaration. -/
theorem declaration_eq (h : Shown inside up s (.call callee args optional)) :
    declaration? callee.strip (stripAll args) = declaration? callee args := by
  have hshows := h.declarations _ (List.mem_cons_self ..)
  rw [showsDeclaration, Bool.and_eq_true, decide_eq_true_eq] at hshows
  rw [declaration_strip, hshows.1]

end Shown

/-- A tree that has been read sheds its parentheses. -/
theorem sheds_strip {n : Node} (h : Formed n) {inside : Bool} {up s : Stance}
    (hshown : Shown inside up s n) : Sheds inside up s n n.strip := by
  have hentire : ∀ {x : Node}, x.isEntire = true → x.kind ≠ .property :=
    fun h => kind_ne_property_of_isExpression (isExpression_of_isEntire h)
  have helement : ∀ {x : Node}, x.isElement = true → x.kind ≠ .property :=
    fun h => kind_ne_property_of_isExpression (isExpression_of_isElement h)
  have hchain : ∀ {x : Node}, x.isChain = true → x.kind ≠ .property :=
    fun h => kind_ne_property_of_isExpression (isExpression_of_isChain h)
  have hoperand : ∀ {x : Node}, x.isOperand = true → x.kind ≠ .property :=
    fun h => hchain (by rw [isChain, h, Bool.true_or])
  have hsuffixed : ∀ {x : Node}, x.isSuffixed = true → x.kind ≠ .property :=
    fun h => hoperand (by rw [isOperand, h, Bool.true_or])
  induction h generalizing inside up s with
  | identifier _ _ => exact .leaf rfl
  | stringLiteral _ _ => exact .leaf rfl
  | numberLiteral _ => exact .leaf rfl
  | keywordLiteral _ => exact .leaf rfl
  | templateLiteral _ _ _ hx ih =>
    refine .templateLiteral (by simp [stripAll_eq_map]) (forall_zip_strip fun x hmem => ?_)
    exact ih x hmem (hshown.operand (hentire (hx x hmem))
      fun m hm => by simp [nodes, mem_nodesAll hmem hm])
  | array _ hx ih =>
    refine .array (by simp [stripAll_eq_map]) (forall_zip_strip fun x hmem => ?_)
    exact ih x hmem (hshown.operand (helement (hx x hmem))
      fun m hm => by simp [nodes, mem_nodesAll hmem hm])
  | object _ _ ih =>
    exact .object (by simp [stripAll_eq_map])
      (forall_zip_strip fun x hmem => ih x hmem (hshown.entry hmem))
  | @shorthand pos kpos vpos name _ =>
    refine .field (fun hinside hblock hup => ?_) rfl (.leaf rfl)
    have hfield : complexFields.contains name = false := hshown.field hinside hup
    rw [hfield] at hblock
    cases hblock
  | @property pos key value hkey _ hx ih =>
    have hvalue : Sheds inside s .operand value value.strip :=
      ih (hshown.operand (hentire hx) fun m hm => by simp [nodes, hm])
    cases hkey with
    | @name kpos name _ =>
      refine .field (fun hinside hblock hup => ?_) (isExpression_of_isEntire hx) hvalue
      have hfield : complexFields.contains name = false := hshown.field hinside hup
      rw [hfield] at hblock
      cases hblock
    | string _ _ => exact .property (.inr (by simp [strip, kind])) (.leaf rfl) hvalue
    | number _ => exact .property (.inr (by simp [strip, kind])) (.leaf rfl) hvalue
  | computed _ hk _ hx ihkey ihvalue =>
    exact .property (.inl rfl)
      (ihkey (hshown.operand (hentire hk) fun m hm => by simp [nodes, hm]))
      (ihvalue (hshown.operand (hentire hx) fun m hm => by simp [nodes, hm]))
  | spread _ hx ih =>
    exact .spread (ih (hshown.operand (hentire hx) fun m hm => by simp [nodes, hm]))
  | member _ hx _ ih =>
    exact .member (ih (hshown.operand (hsuffixed hx) fun m hm => by simp [nodes, hm]))
  | index _ hx _ hp _ ihobj ihprop =>
    exact .index (ihobj (hshown.operand (hsuffixed hx) fun m hm => by simp [nodes, hm]))
      (ihprop (hshown.operand (hentire hp) fun m hm => by simp [nodes, hm]))
  | @call callee args optional _ hx _ hargs ihcallee ihargs =>
    have hcallee : Sheds inside s .operand callee callee.strip :=
      ihcallee (hshown.operand (hsuffixed hx) fun m hm => by simp [nodes, hm])
    -- The call is the same declaration without parentheses, and from its body on we are inside.
    have hsame := hshown.declaration_eq
    rw [strip]
    cases hdecl : declaration? callee args with
    | none =>
      refine .call hdecl (hsame.trans hdecl) hcallee (by simp [stripAll_eq_map])
        (forall_zip_strip fun x hmem => ?_)
      exact ihargs x hmem (hshown.arg (helement (hargs x hmem)) hmem)
    | some d =>
      obtain ⟨front, body, rfl⟩ := exists_body hdecl
      have hlast : body ∈ front ++ [body] := by simp
      have hexpr := isExpression_of_isElement (hargs body hlast)
      have hstrip : stripAll (front ++ [body]) = stripAll front ++ [body.strip] := by
        simp [stripAll_eq_map]
      have hsome := hsame.trans hdecl
      rw [hstrip] at hsome ⊢
      refine .declaration hdecl hsome hcallee (by simp [stripAll_eq_map])
        (forall_zip_strip fun x hmem => ?_) hexpr
        (ihargs body hlast (hshown.body (kind_ne_property_of_isExpression hexpr) hdecl))
      have hmem' := List.mem_append_left [body] hmem
      exact ihargs x hmem' (hshown.arg (helement (hargs x hmem')) hmem')
  | function hparams _ hx ih =>
    refine .function (by simp [stripAll_eq_map]) (forall_zip_strip fun x hmem => ?_)
      (ih (hshown.operand (hentire hx) fun m hm => by simp [nodes, hm]))
    obtain ⟨pos, name, rfl, -⟩ := hparams x hmem
    exact .leaf rfl
  | binary _ _ _ hl hr _ _ _ ihl ihr =>
    exact .binary (ihl (hshown.operand (hchain hl) fun m hm => by simp [nodes, hm]))
      (ihr (hshown.operand (hchain hr) fun m hm => by simp [nodes, hm]))
  | unary _ _ hx ih =>
    exact .unary (ih (hshown.operand (hoperand hx) fun m hm => by simp [nodes, hm]))
  | paren _ hx ih =>
    exact .paren (isExpression_of_isEntire hx) (ih (hshown.content (hentire hx)))

/-- A program that has been read sheds its parentheses. -/
theorem sheds_strip_program {n : Node} (h : FormedProgram n)
    (hall : n.all showsDeclaration = true) : Sheds false .operand .operand n n.strip := by
  have hshown : Shown false .operand .operand n :=
    ⟨all_eq_true.1 hall, nofun, nofun, nofun, nofun⟩
  obtain ⟨hbody⟩ := h
  refine .program (by simp [stripAll_eq_map]) (forall_zip_strip fun x hmem => ?_)
  have hx : ∀ y : Node, (∀ m ∈ y.nodes, m ∈ x.nodes) → y.kind ≠ .property →
      Shown false .operand .operand y := fun y hsub hkind =>
    hshown.operand hkind fun m hm => List.mem_cons_of_mem _ (mem_nodesAll hmem (hsub m hm))
  cases hbody x hmem with
  | bareDecl _ _ => exact .varDecl (.leaf rfl) (.leaf rfl)
  | varDecl _ _ hinit hentire =>
    exact .varDecl (.leaf rfl) (sheds_strip hinit (hx _ (fun m hm => by simp [nodes, hm])
      (kind_ne_property_of_isExpression (isExpression_of_isEntire hentire))))
  | exprStmt hstmt hentire _ =>
    exact .exprStmt (sheds_strip hstmt (hx _ (fun m hm => by simp [nodes, hm])
      (kind_ne_property_of_isExpression (isExpression_of_isEntire hentire))))

end CubeSchema
