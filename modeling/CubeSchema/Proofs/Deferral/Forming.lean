import CubeSchema.Proofs.Deferral.Parameters
import CubeSchema.Proofs.Tree.Lead

/-!
# Passes keep trees that can be read

A pass over the tree of a source gives a tree that could have been read from a source itself. What
the conditions of `Formed` ask about the nodes around a node is the same before and after the pass:
`Alike` lists it. The parameters of an added function are names of the value, so they are lexemes.
-/

namespace CubeSchema

open Deferral Node Operator Lexeme

/-! ## Trees that have been read have their children in place -/

theorem isExpression_of_isChain {n : Node} (h : n.isChain = true) : n.isExpression = true := by
  cases n <;> first | rfl | simp [isChain, isOperand, isSuffixed, Node.kind] at h

theorem isExpression_of_isEntire {n : Node} (h : n.isEntire = true) : n.isExpression = true := by
  rcases (isEntire_iff.1 h).1 with hchain | hkind
  · exact isExpression_of_isChain hchain
  · rw [isExpression, hkind]

theorem isExpression_of_isElement {n : Node} (h : n.isElement = true) : n.isExpression = true := by
  rcases isElement_iff.1 h with hentire | hkind
  · exact isExpression_of_isEntire hentire
  · rw [isExpression, hkind]

theorem mayFill_expression {n : Node} (h : n.isExpression = true) :
    n.mayFill .expression = true := by
  rw [mayFill, Node.fits, h, Bool.or_true]

theorem PlainKey.isLeaf {key : Node} (h : PlainKey key) : key.isLeaf = true := by
  cases h <;> rfl

theorem all_of_isLeaf {p : Node → Bool} {n : Node} (h : n.isLeaf = true) (hp : p n = true) :
    n.all p = true := by
  cases n <;> first | exact hp | rfl | simp [Node.isLeaf] at h

section Nodes

variable {p : Node → Bool} (hleaf : ∀ m : Node, m.isLeaf = true → p m = true)
  (hformed : ∀ m, Formed m → p m = true)

include hleaf hformed

/-- The nodes of an expression that has been read have been read themselves or have no children. -/
theorem Formed.all_nodes {n : Node} (h : Formed n) : n.all p = true := by
  have hp := hformed n h
  -- Names, literals and parameters have no children, and neither has a key that is not computed.
  have hword : ∀ pos name, p (.identifier pos name) = true := fun _ _ => hleaf _ rfl
  induction h with
  | identifier _ _ => exact hp
  | stringLiteral _ _ => exact hp
  | numberLiteral _ => exact hp
  | keywordLiteral _ => exact hp
  | templateLiteral _ _ hexprs _ ih =>
    rw [all, Bool.and_eq_true, allOf_eq_true]
    exact ⟨hp, fun x hx => ih x hx (hformed x (hexprs x hx))⟩
  | array helements _ ih =>
    rw [all, Bool.and_eq_true, allOf_eq_true]
    exact ⟨hp, fun x hx => ih x hx (hformed x (helements x hx))⟩
  | object hproperties _ ih =>
    rw [all, Bool.and_eq_true, allOf_eq_true]
    exact ⟨hp, fun x hx => ih x hx (hformed x (hproperties x hx))⟩
  | shorthand _ => simp only [all, hp, hword, Bool.and_true]
  | property hkey hvalue _ ih =>
    have hk := all_of_isLeaf hkey.isLeaf (hleaf _ hkey.isLeaf)
    simp only [all, hp, hk, ih (hformed _ hvalue), Bool.and_true]
  | computed hkey _ hvalue _ ihkey ih =>
    simp only [all, hp, ihkey (hformed _ hkey), ih (hformed _ hvalue), Bool.and_true]
  | spread hx _ ih => simp only [all, hp, ih (hformed _ hx), Bool.and_true]
  | member hobj _ _ ih => simp only [all, hp, ih (hformed _ hobj), hword, Bool.and_true]
  | index hobj _ hprop _ _ ihobj ihprop =>
    simp only [all, hp, ihobj (hformed _ hobj), ihprop (hformed _ hprop), Bool.and_true]
  | call hcallee _ hargs _ ihcallee ihargs =>
    rw [all, hp, ihcallee (hformed _ hcallee), Bool.true_and, Bool.true_and, allOf_eq_true]
    exact fun x hx => ihargs x hx (hformed x (hargs x hx))
  | function hparams hbody _ ih =>
    rw [all, hp, ih (hformed _ hbody), Bool.true_and, Bool.and_true, allOf_eq_true]
    intro x hx
    obtain ⟨pos, name, rfl, -⟩ := hparams x hx
    exact hleaf _ rfl
  | binary _ hleft hright _ _ _ _ _ ihl ihr =>
    simp only [all, hp, ihl (hformed _ hleft), ihr (hformed _ hright), Bool.and_true]
  | unary _ hx _ ih => simp only [all, hp, ih (hformed _ hx), Bool.and_true]
  | paren hx _ ih => simp only [all, hp, ih (hformed _ hx), Bool.and_true]

theorem FormedStatement.all_nodes {n : Node} (h : FormedStatement n) (hp : p n = true) :
    n.all p = true := by
  have hword : ∀ pos name, p (.identifier pos name) = true := fun _ _ => hleaf _ rfl
  cases h with
  | bareDecl _ _ => simp only [all, hp, hword, Bool.and_true]
  | varDecl _ _ hinit _ =>
    simp only [all, hp, hword, hinit.all_nodes hleaf hformed, Bool.and_true]
  | exprStmt hx _ _ => simp only [all, hp, hx.all_nodes hleaf hformed, Bool.and_true]

/-- The nodes of a program that has been read pass a test, if all that stand in such a program
do. -/
theorem FormedProgram.all_nodes (hstatement : ∀ m, FormedStatement m → p m = true)
    (hprogram : ∀ m, FormedProgram m → p m = true) {n : Node} (h : FormedProgram n) :
    n.all p = true := by
  have hp := hprogram n h
  cases h with
  | program hbody =>
    rw [all, Bool.and_eq_true, allOf_eq_true]
    exact ⟨hp, fun s hs => (hbody s hs).all_nodes hleaf hformed (hstatement s (hbody s hs))⟩

end Nodes

theorem isTyped_of_isLeaf {n : Node} (h : n.isLeaf = true) : n.isTyped = true := by
  cases n <;> first | rfl | simp [Node.isLeaf] at h

/-- The children of a node that has been read are of the kinds that their places admit. -/
theorem Formed.isTyped {n : Node} (h : Formed n) : n.isTyped = true := by
  have hentire : ∀ {x : Node}, x.isEntire = true → x.mayFill .expression = true :=
    fun h => mayFill_expression (isExpression_of_isEntire h)
  have hchain : ∀ {x : Node}, x.isChain = true → x.mayFill .expression = true :=
    fun h => mayFill_expression (isExpression_of_isChain h)
  cases h with
  | identifier _ _ => rfl
  | stringLiteral _ _ => rfl
  | numberLiteral _ => rfl
  | keywordLiteral _ => rfl
  | shorthand _ => rfl
  | templateLiteral _ _ _ he =>
    exact List.all_eq_true.2 fun x hx => isExpression_of_isEntire (he x hx)
  | array _ hkind =>
    exact List.all_eq_true.2 fun x hx =>
      mayFill_expression (isExpression_of_isElement (hkind x hx))
  | object _ hkind => exact List.all_eq_true.2 hkind
  | property hkey _ he => cases hkey <;> exact hentire he
  | computed _ hk _ he => rw [Node.isTyped, hentire hk, hentire he]; rfl
  | spread _ he => exact hentire he
  | member _ hsuffixed _ =>
    rw [Node.isTyped, hchain (isChain_of_isSuffixed hsuffixed)]
    rfl
  | index _ hsuffixed _ he _ =>
    rw [Node.isTyped, hchain (isChain_of_isSuffixed hsuffixed), hentire he]
    rfl
  | call _ hsuffixed _ hkind =>
    rw [Node.isTyped, hchain (isChain_of_isSuffixed hsuffixed), Bool.true_and]
    exact List.all_eq_true.2 fun x hx => isExpression_of_isElement (hkind x hx)
  | function hparams _ he =>
    rw [Node.isTyped, hentire he, Bool.and_true]
    refine List.all_eq_true.2 fun x hx => ?_
    obtain ⟨pos, name, rfl, -⟩ := hparams x hx
    rfl
  | binary _ _ _ hl hr _ _ _ => rw [Node.isTyped, hchain hl, hchain hr]; rfl
  | unary _ _ ho => exact hchain (by rw [isChain, ho, Bool.true_or])
  | paren _ he => exact hentire he

theorem FormedStatement.isTyped {n : Node} (h : FormedStatement n) : n.isTyped = true := by
  cases h with
  | bareDecl _ _ => rfl
  | varDecl _ _ _ hentire =>
    rw [Node.isTyped, mayFill_expression (isExpression_of_isEntire hentire)]
    rfl
  | exprStmt _ hentire _ => exact mayFill_expression (isExpression_of_isEntire hentire)

theorem FormedProgram.isTyped {n : Node} (h : FormedProgram n) : n.isTyped = true := by
  cases h with
  | program hbody =>
    refine List.all_eq_true.2 fun s hs => ?_
    cases hbody s hs <;> rfl

/-! ## Names that are mentioned -/

theorem isName_of_mem_mentionsAll {ns : List Node} {x : Text} (hx : x ∈ mentionsAll ns)
    (h : ∀ n ∈ ns, x ∈ n.mentions → IsName x) : IsName x := by
  rw [mentionsAll_eq_flatMap, List.mem_flatMap] at hx
  obtain ⟨n, hn, hx⟩ := hx
  exact h n hn hx

/-- What a tree that has been read mentions are names. -/
theorem Formed.isName_of_mem_mentions {n : Node} (h : Formed n) {x : Text}
    (hx : x ∈ n.mentions) : IsName x := by
  induction h with
  | identifier hname _ => rwa [List.mem_singleton.1 hx]
  | stringLiteral _ _ => cases hx
  | numberLiteral _ => cases hx
  | keywordLiteral _ => cases hx
  | templateLiteral _ _ _ _ ih => exact isName_of_mem_mentionsAll hx ih
  | array _ _ ih => exact isName_of_mem_mentionsAll hx ih
  | object _ _ ih => exact isName_of_mem_mentionsAll hx ih
  | shorthand hname =>
    rcases List.mem_append.1 hx with hx | hx <;> rwa [List.mem_singleton.1 hx]
  | property hkey _ _ ih =>
    rcases List.mem_append.1 hx with hx | hx
    · cases hkey with
      | name hname => rwa [List.mem_singleton.1 hx]
      | string _ _ => cases hx
      | number _ => cases hx
    · exact ih hx
  | computed _ _ _ _ ihkey ih => exact (List.mem_append.1 hx).elim ihkey ih
  | spread _ _ ih => exact ih hx
  -- A field that is named directly is not mentioned.
  | member _ _ _ ih => exact (List.mem_append.1 hx).elim ih fun hx => by cases hx
  | index _ _ _ _ _ ihobj ihprop => exact (List.mem_append.1 hx).elim ihobj ihprop
  | call _ _ _ _ ihcallee ihargs =>
    exact (List.mem_append.1 hx).elim ihcallee fun hx => isName_of_mem_mentionsAll hx ihargs
  | function hparams _ _ ih =>
    rcases List.mem_append.1 hx with hx | hx
    · refine isName_of_mem_mentionsAll hx fun p hp hx => ?_
      obtain ⟨pos, name, rfl, hname⟩ := hparams p hp
      rwa [List.mem_singleton.1 hx]
    · exact ih hx
  | binary _ _ _ _ _ _ _ _ ihl ihr => exact (List.mem_append.1 hx).elim ihl ihr
  | unary _ _ _ ih => exact ih hx
  | paren _ _ ih => exact ih hx

/-! ## What a node shows to the nodes around it -/

/-- The second node may stand where the first one does. -/
structure Alike (n m : Node) : Prop where
  /-- They are of one kind. -/
  kind : m.kind = n.kind
  /-- Both or none are a name that is a unary operator in front of an operand. -/
  operatorWord : m.isOperatorWord = n.isOperatorWord
  /-- Both or none end in such a name. -/
  bare : m.endsBare = n.endsBare
  /-- Both or none are a single word. -/
  word : m.isWord = n.isWord
  /-- Both or none start with a word. -/
  starts : m.startsWithWord = n.startsWithWord
  /-- The search for an arrow goes equally far. -/
  reach : m.arrowReach = n.arrowReach
  /-- The first operand of both is the same name, if it is one. -/
  head : m.headName? = n.headName?
  /-- The first operator of both is the same. -/
  sign : m.headOperator? = n.headOperator?
  /-- Both may be the left operand of the same operators. -/
  admits : ∀ op, admitsLeft op m = admitsLeft op n
  /-- Both bind at the same levels. -/
  binds : ∀ level, bindsAt level m = bindsAt level n

namespace Alike

theorem refl (n : Node) : Alike n n :=
  ⟨rfl, rfl, rfl, rfl, rfl, rfl, rfl, rfl, fun _ => rfl, fun _ => rfl⟩

theorem isSuffixed {n m : Node} (h : Alike n m) : m.isSuffixed = n.isSuffixed := by
  rw [Node.isSuffixed, Node.isSuffixed, h.kind]

theorem isOperand {n m : Node} (h : Alike n m) : m.isOperand = n.isOperand := by
  rw [Node.isOperand, Node.isOperand, h.isSuffixed, h.kind]

theorem isChain {n m : Node} (h : Alike n m) : m.isChain = n.isChain := by
  rw [Node.isChain, Node.isChain, h.isOperand, h.kind]

theorem isEntire {n m : Node} (h : Alike n m) : m.isEntire = n.isEntire := by
  rw [Node.isEntire, Node.isEntire, h.isChain, h.kind, h.reach]

theorem isElement {n m : Node} (h : Alike n m) : m.isElement = n.isElement := by
  rw [Node.isElement, Node.isElement, h.isEntire, h.kind]

theorem fits {n m : Node} (h : Alike n m) (slot : Slot) : m.fits slot = n.fits slot := by
  cases slot <;> simp only [Node.fits, isExpression, h.kind]

theorem opensStatement {n m : Node} (h : Alike n m) : m.opensStatement = n.opensStatement := by
  rw [Node.opensStatement, Node.opensStatement, h.head, h.sign]

end Alike

theorem headOperator?_binary (left right : Node) (op : Text) :
    (Node.binary left op right).headOperator? = left.headOperator?.or (some op) := by
  rw [headOperator?, headOperator?, chainLinks]
  cases left.chainLinks <;> rfl

theorem all_isWord_of_alike {ns ms : List Node} (hlength : ms.length = ns.length)
    (h : ∀ p ∈ ns.zip ms, Alike p.1 p.2) : ms.all isWord = ns.all isWord := by
  induction ns generalizing ms with
  | nil => rw [List.eq_nil_of_length_eq_zero hlength]
  | cons n ns ih =>
    cases ms with
    | nil => simp at hlength
    | cons m ms =>
      have hm := h (n, m) (List.mem_cons_self ..)
      have hms := ih (Nat.succ.inj hlength) fun p hp => h p (List.mem_cons_of_mem _ hp)
      rw [List.all_cons, List.all_cons, hm.word, hms]

theorem listReach_of_alike {ns ms : List Node} (hlength : ms.length = ns.length)
    (h : ∀ p ∈ ns.zip ms, Alike p.1 p.2) : listReach ms = listReach ns := by
  induction ns generalizing ms with
  | nil => rw [List.eq_nil_of_length_eq_zero hlength]
  | cons n ns ih =>
    cases ms with
    | nil => simp at hlength
    | cons m ms =>
      have hm := h (n, m) (List.mem_cons_self ..)
      have hlength := Nat.succ.inj hlength
      have hms := ih hlength fun p hp => h p (List.mem_cons_of_mem _ hp)
      cases ns with
      | nil =>
        rw [List.eq_nil_of_length_eq_zero hlength, listReach, listReach, hm.word, hm.starts]
      | cons n' ns =>
        cases ms with
        | nil => simp at hlength
        | cons m' ms => rw [listReach, listReach, hm.word, hm.starts, hms]

/-- A call of something else than a name starts as what is called. -/
theorem arrowReach_call {callee : Node} (h : callee.kind ≠ .identifier) (args : List Node)
    (optional : Bool) : (Node.call callee args optional).arrowReach = callee.arrowReach := by
  cases callee <;> first | rfl | exact absurd rfl h

theorem Placed.eq_of_isLeaf {ok : ParamRule} {deep : Bool} {ds : List Declaration} {up edge : Edge}
    {n m : Node} (h : Placed ok deep ds up edge n m) (hn : n.isLeaf = true) : m = n := by
  cases h <;> first | rfl | simp [Node.isLeaf] at hn

theorem alike_call {ok : ParamRule} {deep : Bool} {ds : List Declaration} {up edge : Edge}
    {callee callee' : Node} {args args' : List Node}
    (hplaced : Placed ok deep ds up edge callee callee') (hcallee : Alike callee callee')
    (hlength : args'.length = args.length) (hargs : ∀ p ∈ args.zip args', Alike p.1 p.2)
    (optional : Bool) : Alike (.call callee args optional) (.call callee' args' optional) := by
  refine ⟨rfl, rfl, rfl, rfl, hcallee.starts, ?_, rfl, rfl, fun _ => rfl, fun _ => rfl⟩
  by_cases hkind : callee.kind = .identifier
  · obtain ⟨pos, name, rfl⟩ : ∃ pos name, callee = .identifier pos name := by
      cases callee <;> simp [Node.kind] at hkind
      exact ⟨_, _, rfl⟩
    rw [hplaced.eq_of_isLeaf rfl]
    cases optional with
    | true => rfl
    | false =>
      rw [arrowReach, arrowReach, all_isWord_of_alike hlength hargs,
        listReach_of_alike hlength hargs]
  · rw [arrowReach_call hkind, arrowReach_call (by rwa [hcallee.kind]), hcallee.reach]

/-- What a node shows to the nodes around it stays when functions are put in place inside of it. -/
theorem Placed.alike {ok : ParamRule} {deep : Bool} {ds : List Declaration} {up edge : Edge}
    {n m : Node} (h : Placed ok deep ds up edge n m) : Alike n m := by
  induction h with
  | leaf _ => exact .refl _
  | member _ _ ihobj _ =>
    exact ⟨rfl, rfl, rfl, rfl, ihobj.starts, ihobj.reach, rfl, rfl, fun _ => rfl, fun _ => rfl⟩
  | call _ hcallee hlength _ ihcallee ihargs => exact alike_call hcallee ihcallee hlength ihargs _
  | declaration _ hcallee hlength _ _ _ ihcallee ihargs ihbody =>
    exact alike_call hcallee ihcallee (by simp [hlength]) (forall_zip_snoc hlength ihargs ihbody) _
  | binary _ _ ihl ihr =>
    refine ⟨rfl, rfl, ihr.bare, rfl, ihl.starts, ihl.reach, ihl.head, ?_, fun _ => rfl,
      fun _ => rfl⟩
    rw [headOperator?_binary, headOperator?_binary, ihl.sign]
  | unary _ ih =>
    exact ⟨rfl, rfl, ih.bare, rfl, rfl, rfl, rfl, rfl, fun _ => rfl, fun _ => rfl⟩
  | _ => exact ⟨rfl, rfl, rfl, rfl, rfl, rfl, rfl, rfl, fun _ => rfl, fun _ => rfl⟩

/-! ## The pass -/

/-- A property that is deferred is not named as a value is written. -/
theorem not_mem_keywordValues_of_defers {d : Declaration} {key : Text} {up : Edge}
    (h : d.defers key up = true) : key ∉ keywordValues.map lit := by
  have hfields : ∀ name ∈ extendsField :: (simpleFields ++ complexFields),
      name ∉ keywordValues.map lit := by decide
  refine hfields key ?_
  simp only [Declaration.defers, Bool.or_eq_true, Bool.and_eq_true, List.contains_iff_mem,
    decide_eq_true_eq] at h
  rcases h with (h | ⟨h, -⟩) | ⟨-, rfl⟩
  · exact List.mem_cons_of_mem _ (List.mem_append_left _ h)
  · exact List.mem_cons_of_mem _ (List.mem_append_right _ h)
  · exact List.mem_cons_self ..

/-- Where no declaration defers a property, its value has no layers. -/
theorem Layered.eq_of_none {ok : ParamRule} {key : Text} {up : Edge} {value x y : Node}
    {ds : List Declaration} (h : Layered ok key up value ds x y)
    (hnone : (ds.any fun d => d.defers key up) = false) : y = x := by
  induction h with
  | nil => rfl
  | skip _ _ ih =>
    rw [List.any_cons, Bool.or_eq_false_iff] at hnone
    exact ih hnone.2
  | wrap hd _ _ _ =>
    rw [List.any_cons, hd] at hnone
    cases hnone

section Pass

variable {ok : ParamRule}
  (hok : ∀ ds d key value params, ok ds d key value params → ∀ x ∈ params, x ∈ value.mentions)

include hok

/-- A value that has been read stays one under its layers. -/
theorem Layered.formed {key : Text} {up : Edge} {value x y : Node} {ds : List Declaration}
    (h : Layered ok key up value ds x y) (hnames : ∀ name ∈ value.mentions, IsName name)
    (hx : Formed x) (hentire : x.isEntire = true) : Formed y ∧ y.isEntire = true := by
  induction h with
  | nil => exact ⟨hx, hentire⟩
  | skip _ _ ih => exact ih hx hentire
  | @wrap d ds x y params _ hparams _ ih =>
    obtain ⟨hy, hyentire⟩ := ih hx hentire
    refine ⟨.function (fun p hp => ?_) hy hyentire, rfl⟩
    obtain ⟨name, hname, rfl⟩ := List.mem_map.1 hp
    exact ⟨_, _, rfl, hnames name (hok _ _ _ _ _ hparams name hname)⟩

/-- A property with a plain name stays one that has been read. A shorthand that is deferred is
written out, with its name as the value below the functions. -/
theorem formed_field {pos kpos : Position} {name : Text} {value x value' : Node}
    {shorthand : Bool} {ds : List Declaration} {up : Edge}
    (hn : Formed (.property pos (.identifier kpos name) value false shorthand))
    (hleaf : value.isLeaf = true → x = value) (hx : Formed value → Formed x)
    (halike : Alike value x) (hlayers : Layered ok name up value ds x value') :
    Formed (.property pos (.identifier kpos name) value' false
      (shorthand && !ds.any fun d => d.defers name up)) := by
  cases hn with
  | property hkey hvalue hentire =>
    obtain ⟨hvalue', hentire'⟩ := hlayers.formed hok (fun _ h => hvalue.isName_of_mem_mentions h)
      (hx hvalue) (by rwa [halike.isEntire])
    exact .property hkey hvalue' hentire'
  | @shorthand _ _ vpos _ hname =>
    obtain rfl := hleaf rfl
    cases hdefers : ds.any fun d => d.defers name up with
    | false =>
      rw [hlayers.eq_of_none hdefers]
      exact .shorthand hname
    | true =>
      obtain ⟨d, -, hd⟩ := List.any_eq_true.1 hdefers
      have hvalue : Formed (.identifier vpos name) :=
        .identifier hname (not_mem_keywordValues_of_defers hd)
      obtain ⟨hvalue', hentire'⟩ := hlayers.formed hok (fun _ h => hvalue.isName_of_mem_mentions h)
        hvalue rfl
      exact .property (.name hname) hvalue' hentire'

end Pass

/-- Each member of the second list is what the member of the first one becomes. -/
theorem forall_of_zip {ns ms : List Node} {p q : Node → Prop} (hlength : ms.length = ns.length)
    (h : ∀ x ∈ ns.zip ms, p x.1 → q x.2) (hns : ∀ n ∈ ns, p n) : ∀ m ∈ ms, q m := by
  intro m hm
  obtain ⟨i, hi, rfl⟩ := List.mem_iff_getElem.1 hm
  have hi' : i < (ns.zip ms).length := by rw [List.length_zip]; omega
  have hx := List.getElem_mem hi'
  rw [List.getElem_zip] at hx
  exact h _ hx (hns _ (List.getElem_mem _))

/-- A call stays one that has been read when its callee and its arguments do. -/
theorem Formed.call_of_alike {callee callee' : Node} {args args' : List Node} {optional : Bool}
    (hn : Formed (.call callee args optional)) (hlength : args'.length = args.length)
    (hcallee : Formed callee → Formed callee') (halike : Alike callee callee')
    (hargs : ∀ p ∈ args.zip args', (Formed p.1 → Formed p.2) ∧ Alike p.1 p.2) :
    Formed (.call callee' args' optional) := by
  cases hn with
  | call hformed hsuffixed hformeds hkind =>
    refine .call (hcallee hformed) (by rwa [halike.isSuffixed]) ?_ ?_
    · exact forall_of_zip hlength (fun p hp => (hargs p hp).1) hformeds
    · exact forall_of_zip hlength (fun p hp h => by rwa [(hargs p hp).2.isElement]) hkind

/-- An expression that has been read stays one when functions are put in place inside of it. -/
theorem Placed.formed {ok : ParamRule}
    (hok : ∀ ds d key value params, ok ds d key value params → ∀ x ∈ params, x ∈ value.mentions)
    {deep : Bool} {ds : List Declaration} {up edge : Edge} {n m : Node}
    (h : Placed ok deep ds up edge n m) (hn : Formed n) : Formed m := by
  -- Each node keeps the parts it had, and `Alike` carries over what the grammar asks of them.
  induction h with
  | leaf _ => exact hn
  | program _ _ _ => cases hn
  | varDecl _ _ _ _ => cases hn
  | exprStmt _ _ => cases hn
  | templateLiteral hlength hexprs ih =>
    cases hn with
    | templateLiteral hquasis hread hformed hentire =>
      refine .templateLiteral (by rw [hquasis, hlength]) hread (forall_of_zip hlength ih hformed) ?_
      exact forall_of_zip hlength (fun p hp h => by rwa [(hexprs p hp).alike.isEntire]) hentire
  | array hlength helements ih =>
    cases hn with
    | array hformed hkind =>
      refine .array (forall_of_zip hlength ih hformed) ?_
      exact forall_of_zip hlength (fun p hp h => by rwa [(helements p hp).alike.isElement]) hkind
  | object hlength hproperties ih =>
    cases hn with
    | object hformed hkind =>
      refine .object (forall_of_zip hlength ih hformed) ?_
      exact forall_of_zip hlength (fun p hp h => by rwa [(hproperties p hp).alike.fits]) hkind
  | field _ hvalue hlayers ih =>
    exact formed_field hok hn hvalue.eq_of_isLeaf ih hvalue.alike hlayers
  | property hnone hkey hvalue ihkey ihvalue =>
    cases hn with
    | shorthand _ => rcases hnone with hnone | hnone <;> cases hnone
    | computed hkformed hkentire hvformed hentire =>
      exact .computed (ihkey hkformed) (by rwa [hkey.alike.isEntire]) (ihvalue hvformed)
        (by rwa [hvalue.alike.isEntire])
    | property hplain hvformed hentire =>
      rw [hkey.eq_of_isLeaf hplain.isLeaf]
      exact .property hplain (ihvalue hvformed) (by rwa [hvalue.alike.isEntire])
  | spread hx ih =>
    cases hn with
    | spread hformed hentire => exact .spread (ih hformed) (by rwa [hx.alike.isEntire])
  | member hobj hprop ihobj ihprop =>
    cases hn with
    | member hformed hsuffixed hname =>
      rw [hprop.eq_of_isLeaf rfl]
      exact .member (ihobj hformed) (by rwa [hobj.alike.isSuffixed]) hname
    | index hformed hsuffixed hpformed hentire hword =>
      refine .index (ihobj hformed) (by rwa [hobj.alike.isSuffixed]) (ihprop hpformed)
        (by rwa [hprop.alike.isEntire]) fun h => ?_
      rw [hobj.alike.operatorWord, hword h]
  | call _ hcallee hlength hargs ihcallee ihargs =>
    exact hn.call_of_alike hlength ihcallee hcallee.alike
      fun p hp => ⟨ihargs p hp, (hargs p hp).alike⟩
  | declaration _ hcallee hlength hargs _ hbody ihcallee ihargs ihbody =>
    refine hn.call_of_alike (by simp [hlength]) ihcallee hcallee.alike ?_
    exact forall_zip_snoc (p := fun x y => (Formed x → Formed y) ∧ Alike x y) hlength
      (fun p hp => ⟨ihargs p hp, (hargs p hp).alike⟩) ⟨ihbody, hbody.alike⟩
  | function hlength hparams hbody _ ihbody =>
    cases hn with
    | function hnames hformed hentire =>
      -- Parameters are names, in which no function can be put.
      refine .function ?_ (ihbody hformed) (by rwa [hbody.alike.isEntire])
      refine forall_of_zip hlength (fun p hp h => ?_) hnames
      obtain ⟨pos, name, heq, hname⟩ := h
      exact ⟨pos, name, by rw [(hparams p hp).eq_of_isLeaf (by rw [heq]; rfl), heq], hname⟩
  | binary hleft hright ihl ihr =>
    cases hn with
    | binary hop hlformed hrformed hlchain hrchain hadmits hbinds hclash =>
      refine .binary hop (ihl hlformed) (ihr hrformed) (by rwa [hleft.alike.isChain])
        (by rwa [hright.alike.isChain]) (by rwa [hleft.alike.admits]) (by rwa [hright.alike.binds])
        fun hbare => hclash ?_
      rwa [← hleft.alike.bare]
  | unary hx ih =>
    cases hn with
    | unary hop hformed hoperand =>
      exact .unary hop (ih hformed) (by rwa [hx.alike.isOperand])
  | paren hx ih =>
    cases hn with
    | paren hformed hentire => exact .paren (ih hformed) (by rwa [hx.alike.isEntire])

/-- A statement that has been read stays one when functions are put in place inside of it. -/
theorem Placed.formedStatement {ok : ParamRule}
    (hok : ∀ ds d key value params, ok ds d key value params → ∀ x ∈ params, x ∈ value.mentions)
    {deep : Bool} {ds : List Declaration} {up edge : Edge} {n m : Node}
    (h : Placed ok deep ds up edge n m) (hn : FormedStatement n) : FormedStatement m := by
  cases hn with
  | bareDecl hkeyword hname =>
    cases h with
    | leaf hleaf => cases hleaf
    | varDecl hplaced hinit =>
      rw [hplaced.eq_of_isLeaf rfl, hinit.eq_of_isLeaf rfl]
      exact .bareDecl hkeyword hname
  | varDecl hkeyword hname hformed hentire =>
    cases h with
    | leaf hleaf => cases hleaf
    | varDecl hplaced hinit =>
      rw [hplaced.eq_of_isLeaf rfl]
      exact .varDecl hkeyword hname (hinit.formed hok hformed) (by rwa [hinit.alike.isEntire])
  | exprStmt hformed hentire hopens =>
    cases h with
    | leaf hleaf => cases hleaf
    | exprStmt hx =>
      exact .exprStmt (hx.formed hok hformed) (by rwa [hx.alike.isEntire])
        (by rwa [hx.alike.opensStatement])

/-- A pass over a program that has been read gives one that could have been read. -/
theorem FormedProgram.run {n : Node} (h : FormedProgram n) (r : Resolvers) :
    FormedProgram (run r n).val := by
  have htyped := h.all_nodes (fun _ => isTyped_of_isLeaf) (fun _ => Formed.isTyped)
    (fun _ => FormedStatement.isTyped) (fun _ => FormedProgram.isTyped)
  have hplaced := run_placed (collects_exactParams r) htyped
  have hok : ∀ ds d key value params, ExactParams r ds d key value params →
      ∀ x ∈ params, x ∈ value.mentions := fun _ _ _ _ _ h x hx => ((h.mem x).1 hx).1
  generalize (Deferral.run r n).val = m at hplaced ⊢
  cases h with
  | program hbody =>
    cases hplaced with
    | leaf hleaf => cases hleaf
    | program hlength hplaced =>
      exact .program (forall_of_zip hlength (fun p hp => (hplaced p hp).formedStatement hok) hbody)

end CubeSchema
