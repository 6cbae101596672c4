import CubeSchema.Proofs.Deferral.Forming
import CubeSchema.Proofs.Tree.Source
import CubeSchema.Proofs.Tree.Traversal

/-!
# Well-formed trees

`Node.isWellFormed` collects what every reader of a tree relies on at a node: its children are there
and fit their places, literals agree with what they were written as, and no operand would have to be
put in parentheses. Main statement: trees of sources are well-formed, passes keep them so, and
neither a walk nor the printer fails on such a tree. The printer and the walks need only that no
child is missing; the rest is what makes the printed text mean the tree.
-/

namespace CubeSchema

open Deferral Node Operator Lexeme

namespace Node

/-- An expression that may stand by itself, which a spread may not. -/
def isPlain (n : Node) : Bool := n.isExpression && n.kind ≠ .spread

/-- Whether a node is a key that is not computed. -/
def isKey (n : Node) : Bool :=
  n.kind = .identifier || n.kind = .stringLiteral || n.kind = .numberLiteral

/-- Whether a node may be the object of a member access or a callee without parentheses. -/
def isBound (n : Node) : Bool :=
  n.isPlain && n.kind ≠ .function && n.kind ≠ .binary && n.kind ≠ .unary

/-- Whether a chunk of a template has its escapes decoded. -/
def isCooked (q : Quasi) : Bool := q.raw.unescape = some q.cooked

/-- What holds at every node of a tree that can be walked and printed. -/
def isWellFormed : Node → Bool
  | absent => false
  | identifier .. | numberLiteral .. | keywordLiteral .. => true
  | program _ body => body.all (·.fits .statement)
  | varDecl _ _ name init => name.fits .name && (init.isAbsent || init.isPlain)
  | exprStmt x => x.isPlain
  | stringLiteral _ value raw => Text.unescape (raw.drop 1).dropLast = some value
  | templateLiteral _ quasis exprs =>
    quasis.length = exprs.length + 1 && quasis.all isCooked && exprs.all isPlain
  | array _ elements => elements.all isExpression
  | object _ properties => properties.all (·.fits .objectMember)
  | property _ key value computed shorthand =>
    key.isPlain && value.isPlain && (computed || key.isKey) &&
      (!shorthand || (!computed && key.name?.isSome && key.name? = value.name?))
  | spread _ x => x.isPlain
  | member obj prop computed _ =>
    obj.isBound && prop.isPlain && (computed || prop.kind = .identifier)
  | call callee args _ => callee.isBound && args.all isExpression
  | function _ params body _ => params.all (·.fits .name) && body.isPlain
  | binary left _ right =>
    left.isPlain && right.isPlain && left.kind ≠ .function && right.kind ≠ .function
  | unary _ _ x => x.isPlain && x.kind ≠ .function && x.kind ≠ .binary
  | paren _ x => x.isPlain

end Node

/-- A program all of whose nodes are well-formed. -/
def WellFormed (t : Node) : Prop := t.kind = .program ∧ t.all isWellFormed = true

/-! ## Trees of sources -/

theorem isPlain_of_isEntire {n : Node} (h : n.isEntire = true) : n.isPlain = true := by
  have hkind : n.kind ≠ .spread := by
    intro heq
    have hchain := (isEntire_iff.1 h).1
    rw [isChain, isOperand, isSuffixed, heq] at hchain
    simp at hchain
  simp [isPlain, isExpression_of_isEntire h, hkind]

theorem isBound_of_isSuffixed {n : Node} (h : n.isSuffixed = true) : n.isBound = true := by
  cases n <;> first | rfl | simp [isSuffixed, kind] at h

theorem isPlain_of_isChain {n : Node} (h : n.isChain = true) :
    n.isPlain = true ∧ n.kind ≠ .function := by
  cases n <;> simp_all [isChain, isOperand, isSuffixed, isPlain, isExpression, kind]

theorem isPlain_of_isOperand {n : Node} (h : n.isOperand = true) :
    n.isPlain = true ∧ n.kind ≠ .function ∧ n.kind ≠ .binary := by
  cases n <;> simp_all [isOperand, isSuffixed, isPlain, isExpression, kind]

theorem PlainKey.all_isWellFormed {key : Node} (h : PlainKey key) :
    key.all isWellFormed = true ∧ key.isPlain = true ∧ key.isKey = true := by
  cases h with
  | name _ => exact ⟨rfl, rfl, rfl⟩
  | string _ hvalue => exact ⟨by simpa [all, isWellFormed] using hvalue, rfl, rfl⟩
  | number _ => exact ⟨rfl, rfl, rfl⟩

/-- An expression, element or member that has been read is well-formed. -/
theorem Formed.all_isWellFormed {n : Node} (h : Formed n) : n.all isWellFormed = true := by
  induction h with
  | identifier _ _ => rfl
  | stringLiteral _ hvalue => simpa [all, isWellFormed] using hvalue
  | numberLiteral _ => rfl
  | keywordLiteral _ => rfl
  -- Of a list the node itself is checked first and then each part, as the induction gives it.
  | templateLiteral hlength hquasis _ hentire ih =>
    simp only [all, isWellFormed, Bool.and_eq_true, allOf_eq_true, List.all_eq_true,
      decide_eq_true_eq]
    refine ⟨⟨⟨hlength, fun q hq => ?_⟩, fun x hx => isPlain_of_isEntire (hentire x hx)⟩, ih⟩
    simpa [isCooked] using (hquasis q hq).2
  | array _ hkind ih =>
    simp only [all, isWellFormed, Bool.and_eq_true, allOf_eq_true, List.all_eq_true]
    exact ⟨fun x hx => isExpression_of_isElement (hkind x hx), ih⟩
  | object _ hkind ih =>
    simp only [all, isWellFormed, Bool.and_eq_true, allOf_eq_true, List.all_eq_true]
    exact ⟨hkind, ih⟩
  | shorthand _ => simp [all, isWellFormed, isPlain, isExpression, kind, isKey, name?]
  | property hkey _ hentire ih =>
    obtain ⟨hall, hplain, hkind⟩ := hkey.all_isWellFormed
    simp [all, isWellFormed, hall, hplain, hkind, isPlain_of_isEntire hentire, ih]
  | computed _ hkentire _ hentire ihk ihv =>
    simp [all, isWellFormed, isPlain_of_isEntire hkentire, isPlain_of_isEntire hentire, ihk, ihv]
  | spread _ hentire ih => simp [all, isWellFormed, isPlain_of_isEntire hentire, ih]
  | member _ hsuffixed _ ih =>
    simp [all, isWellFormed, isBound_of_isSuffixed hsuffixed, ih, isPlain, isExpression, kind]
  | index _ hsuffixed _ hentire _ iho ihp =>
    simp [all, isWellFormed, isBound_of_isSuffixed hsuffixed, isPlain_of_isEntire hentire, iho, ihp]
  | call _ hsuffixed _ hkind ihc iha =>
    simp only [all, isWellFormed, Bool.and_eq_true, allOf_eq_true, List.all_eq_true]
    exact ⟨⟨⟨isBound_of_isSuffixed hsuffixed, fun x hx => isExpression_of_isElement (hkind x hx)⟩,
      ihc⟩, iha⟩
  | function hparams _ hentire ih =>
    simp only [all, isWellFormed, Bool.and_eq_true, allOf_eq_true, List.all_eq_true]
    refine ⟨⟨⟨fun p hp => ?_, isPlain_of_isEntire hentire⟩, fun p hp => ?_⟩, ih⟩
    · obtain ⟨pos, name, rfl, -⟩ := hparams p hp
      rfl
    · obtain ⟨pos, name, rfl, -⟩ := hparams p hp
      rfl
  | binary _ _ _ hlchain hrchain _ _ _ ihl ihr =>
    obtain ⟨hlplain, hlkind⟩ := isPlain_of_isChain hlchain
    obtain ⟨hrplain, hrkind⟩ := isPlain_of_isChain hrchain
    simp [all, isWellFormed, hlplain, hlkind, hrplain, hrkind, ihl, ihr]
  | unary _ _ hoperand ih =>
    obtain ⟨hplain, hfunction, hbinary⟩ := isPlain_of_isOperand hoperand
    simp [all, isWellFormed, hplain, hfunction, hbinary, ih]
  | paren _ hentire ih => simp [all, isWellFormed, isPlain_of_isEntire hentire, ih]

theorem FormedStatement.all_isWellFormed {n : Node} (h : FormedStatement n) :
    n.all isWellFormed = true ∧ n.fits .statement = true := by
  cases h with
  | bareDecl _ _ => exact ⟨rfl, rfl⟩
  | varDecl _ _ hinit hentire =>
    refine ⟨?_, rfl⟩
    simp [all, isWellFormed, Node.fits, kind, isPlain_of_isEntire hentire, hinit.all_isWellFormed]
  | exprStmt hx hentire _ =>
    refine ⟨?_, rfl⟩
    simp [all, isWellFormed, isPlain_of_isEntire hentire, hx.all_isWellFormed]

/-- The tree of a source is well-formed. -/
theorem wellFormed_of_parse {file src : Text} {t : Node} (h : parse file src = .ok t) :
    WellFormed t := by
  cases formedProgram_of_parse h with
  | program hbody =>
    refine ⟨rfl, ?_⟩
    simp only [all, isWellFormed, Bool.and_eq_true, allOf_eq_true, List.all_eq_true]
    exact ⟨fun s hs => (hbody s hs).all_isWellFormed.2, fun s hs => (hbody s hs).all_isWellFormed.1⟩

/-! ## Passes -/

theorem isTyped_of_isWellFormed {n : Node} (h : n.isWellFormed = true) : n.isTyped = true := by
  -- Being well-formed asks for the kind and for more: it is enough to forget the rest.
  have hplain : ∀ {x : Node}, x.isPlain = true → x.mayFill .expression = true := fun hx =>
    mayFill_expression (by simp only [isPlain, Bool.and_eq_true] at hx; exact hx.1)
  have hbound : ∀ {x : Node}, x.isBound = true → x.mayFill .expression = true := fun hx =>
    hplain (by simp only [isBound, Bool.and_eq_true] at hx; exact hx.1.1.1)
  cases n <;> simp only [isWellFormed, Bool.and_eq_true] at h
  case absent => cases h
  case identifier | stringLiteral | numberLiteral | keywordLiteral => rfl
  case program | object => exact h
  case varDecl pos keyword name init =>
    have hinit : init.mayFill .expression = true := by
      rcases Bool.or_eq_true_iff.1 h.2 with hinit | hinit
      · simp [mayFill, hinit]
      · exact hplain hinit
    simp [isTyped, mayFill, h.1] at hinit ⊢
    exact hinit
  case exprStmt | spread | paren => exact hplain h
  case templateLiteral pos quasis exprs =>
    refine List.all_eq_true.2 fun x hx => ?_
    have := List.all_eq_true.1 h.2 x hx
    simp only [isPlain, Bool.and_eq_true] at this
    exact this.1
  case array pos elements =>
    exact List.all_eq_true.2 fun x hx => mayFill_expression (List.all_eq_true.1 h x hx)
  case property => simp [isTyped, hplain h.1.1.1, hplain h.1.1.2]
  case member => simp [isTyped, hbound h.1.1, hplain h.1.2]
  case call => simp only [isTyped, hbound h.1, h.2, Bool.and_self]
  case function => simp only [isTyped, h.1, hplain h.2, Bool.and_self]
  case binary => simp [isTyped, hplain h.1.1.1, hplain h.1.1.2]
  case unary => exact hplain h.1.1

section Kinds

variable {n m : Node} (h : Alike n m)

include h

theorem Alike.isExpression : m.isExpression = n.isExpression := by
  rw [Node.isExpression, Node.isExpression, h.kind]

theorem Alike.isPlain : m.isPlain = n.isPlain := by
  rw [Node.isPlain, Node.isPlain, h.isExpression, h.kind]

theorem Alike.isBound : m.isBound = n.isBound := by
  rw [Node.isBound, Node.isBound, h.isPlain, h.kind]

end Kinds

theorem Layered.all_isWellFormed {ok : ParamRule} {key : Text} {up : Edge} {value x y : Node}
    {ds : List Declaration} (h : Layered ok key up value ds x y)
    (hx : x.all isWellFormed = true) (hplain : x.isPlain = true) :
    y.all isWellFormed = true ∧ y.isPlain = true := by
  induction h with
  | nil => exact ⟨hx, hplain⟩
  | skip _ _ ih => exact ih hx hplain
  | wrap _ _ _ ih =>
    obtain ⟨hall, hy⟩ := ih hx hplain
    refine ⟨?_, rfl⟩
    simp only [deferred, all, isWellFormed, Bool.and_eq_true, allOf_eq_true, List.all_eq_true,
      List.forall_mem_map]
    exact ⟨⟨⟨fun _ _ => rfl, hy⟩, fun _ _ => trivial⟩, hall⟩

theorem isLeaf_of_isAbsent {n : Node} (h : n.isAbsent = true) : n.isLeaf = true := by
  cases n <;> first | rfl | cases h

theorem isLeaf_of_name? {n : Node} (h : n.name?.isSome = true) : n.isLeaf = true := by
  cases n <;> first | rfl | simp [name?] at h

theorem isLeaf_of_isKey {n : Node} (h : n.isKey = true) : n.isLeaf = true := by
  cases n <;> first | rfl | simp [isKey, kind] at h

/-- Putting functions in place keeps a tree well-formed. -/
theorem Placed.all_isWellFormed {ok : ParamRule} {deep : Bool} {ds : List Declaration}
    {up edge : Edge} {n m : Node} (h : Placed ok deep ds up edge n m)
    (hn : n.all isWellFormed = true) : m.all isWellFormed = true := by
  induction h with
  | leaf _ => exact hn
  | program hlength hbody ih =>
    simp only [all, isWellFormed, Bool.and_eq_true, allOf_eq_true, List.all_eq_true] at hn ⊢
    refine ⟨forall_of_zip hlength (fun p hp h => ?_) hn.1, forall_of_zip hlength ih hn.2⟩
    rwa [(hbody p hp).alike.fits]
  | varDecl hname hinit ihn ihi =>
    simp only [all, isWellFormed, Bool.and_eq_true, Bool.or_eq_true] at hn ⊢
    obtain ⟨⟨⟨hfits, hplain⟩, hnall⟩, hiall⟩ := hn
    refine ⟨⟨⟨by rwa [hname.alike.fits], ?_⟩, ihn hnall⟩, ihi hiall⟩
    rcases hplain with habsent | hplain
    · left
      rwa [hinit.eq_of_isLeaf (isLeaf_of_isAbsent habsent)]
    · exact .inr (by rwa [hinit.alike.isPlain])
  | exprStmt hx ih =>
    simp only [all, isWellFormed, Bool.and_eq_true] at hn ⊢
    exact ⟨by rw [hx.alike.isPlain]; exact hn.1, ih hn.2⟩
  | templateLiteral hlength hexprs ih =>
    simp only [all, isWellFormed, Bool.and_eq_true, allOf_eq_true, List.all_eq_true,
      decide_eq_true_eq] at hn ⊢
    obtain ⟨⟨⟨hquasis, hcooked⟩, hplain⟩, hall⟩ := hn
    refine ⟨⟨⟨by rw [hquasis, hlength], hcooked⟩, ?_⟩, forall_of_zip hlength ih hall⟩
    exact forall_of_zip hlength (fun p hp h => by rwa [(hexprs p hp).alike.isPlain]) hplain
  | array hlength helements ih =>
    simp only [all, isWellFormed, Bool.and_eq_true, allOf_eq_true, List.all_eq_true] at hn ⊢
    refine ⟨forall_of_zip hlength (fun p hp h => ?_) hn.1, forall_of_zip hlength ih hn.2⟩
    rwa [(helements p hp).alike.isExpression]
  | object hlength hproperties ih =>
    simp only [all, isWellFormed, Bool.and_eq_true, allOf_eq_true, List.all_eq_true] at hn ⊢
    refine ⟨forall_of_zip hlength (fun p hp h => ?_) hn.1, forall_of_zip hlength ih hn.2⟩
    rwa [(hproperties p hp).alike.fits]
  | @field ds up edge pos kpos name value x value' shorthand _ hvalue hlayers ih =>
    simp only [all, isWellFormed, Bool.and_eq_true] at hn
    obtain ⟨⟨⟨⟨⟨-, hplain⟩, -⟩, hshort⟩, -⟩, hall⟩ := hn
    obtain ⟨hall', hplain'⟩ := hlayers.all_isWellFormed (ih hall) (by rwa [hvalue.alike.isPlain])
    have hshort' : (shorthand && !ds.any fun d => d.defers name up) = true →
        value'.name? = some name := by
      -- A property is left in short form only where nothing was put around its value.
      intro hkept
      simp only [Bool.and_eq_true, Bool.not_eq_true'] at hkept
      rw [hkept.1, Bool.not_true, Bool.false_or, Bool.and_eq_true] at hshort
      have hname : value.name? = some name := (of_decide_eq_true hshort.2).symm
      have hleaf : value.isLeaf = true := isLeaf_of_name? (by rw [hname]; rfl)
      rw [hlayers.eq_of_none hkept.2, hvalue.eq_of_isLeaf hleaf, hname]
    simp only [all, isWellFormed, Bool.and_eq_true, Bool.or_eq_true, Bool.not_eq_true',
      decide_eq_true_eq]
    refine ⟨⟨⟨⟨⟨rfl, hplain'⟩, .inr rfl⟩, ?_⟩, trivial⟩, hall'⟩
    cases hkept : shorthand && !ds.any fun d => d.defers name up with
    | false => exact .inl rfl
    | true => exact .inr ⟨⟨trivial, rfl⟩, (hshort' hkept).symm⟩
  | @property ds up edge pos key key' value value' computed shorthand hnone hkey hvalue ihk ihv =>
    simp only [all, isWellFormed, Bool.and_eq_true, Bool.or_eq_true, Bool.not_eq_true',
      decide_eq_true_eq] at hn ⊢
    obtain ⟨⟨⟨⟨⟨hkplain, hvplain⟩, hkind⟩, hshort⟩, hkall⟩, hvall⟩ := hn
    refine ⟨⟨⟨⟨⟨?_, ?_⟩, ?_⟩, ?_⟩, ihk hkall⟩, ihv hvall⟩
    · rwa [hkey.alike.isPlain]
    · rwa [hvalue.alike.isPlain]
    · rcases hkind with hcomputed | hkind
      · exact .inl hcomputed
      · exact .inr (by rwa [hkey.eq_of_isLeaf (isLeaf_of_isKey hkind)])
    · rcases hshort with hshort | ⟨⟨hcomputed, hsome⟩, hname⟩
      · exact .inl hshort
      · have hvleaf : value.isLeaf = true := isLeaf_of_name? (by rw [← hname]; exact hsome)
        rw [hkey.eq_of_isLeaf (isLeaf_of_name? hsome), hvalue.eq_of_isLeaf hvleaf]
        exact .inr ⟨⟨hcomputed, hsome⟩, hname⟩
  | spread hx ih =>
    simp only [all, isWellFormed, Bool.and_eq_true] at hn ⊢
    exact ⟨by rw [hx.alike.isPlain]; exact hn.1, ih hn.2⟩
  | member hobj hprop iho ihp =>
    simp only [all, isWellFormed, Bool.and_eq_true] at hn ⊢
    obtain ⟨⟨⟨⟨hbound, hplain⟩, hkind⟩, hoall⟩, hpall⟩ := hn
    refine ⟨⟨⟨⟨?_, ?_⟩, ?_⟩, iho hoall⟩, ihp hpall⟩
    · rwa [hobj.alike.isBound]
    · rwa [hprop.alike.isPlain]
    · rwa [hprop.alike.kind]
  | call _ hcallee hlength hargs ihc iha =>
    simp only [all, isWellFormed, Bool.and_eq_true, allOf_eq_true, List.all_eq_true] at hn ⊢
    obtain ⟨⟨⟨hbound, hkind⟩, hcall⟩, haall⟩ := hn
    refine ⟨⟨⟨by rwa [hcallee.alike.isBound], ?_⟩, ihc hcall⟩, forall_of_zip hlength iha haall⟩
    exact forall_of_zip hlength (fun p hp h => by rwa [(hargs p hp).alike.isExpression]) hkind
  | declaration _ hcallee hlength hargs _ hbody ihc iha ihb =>
    simp only [all, isWellFormed, Bool.and_eq_true, allOf_eq_true, List.all_eq_true,
      List.forall_mem_append, List.forall_mem_singleton] at hn ⊢
    obtain ⟨⟨⟨hbound, hkind, hbkind⟩, hcall⟩, haall, hball⟩ := hn
    refine ⟨⟨⟨by rwa [hcallee.alike.isBound], ?_, by rwa [hbody.alike.isExpression]⟩, ihc hcall⟩,
      forall_of_zip hlength iha haall, ihb hball⟩
    exact forall_of_zip hlength (fun p hp h => by rwa [(hargs p hp).alike.isExpression]) hkind
  | function hlength hparams hbody ihp ihb =>
    simp only [all, isWellFormed, Bool.and_eq_true, allOf_eq_true, List.all_eq_true] at hn ⊢
    obtain ⟨⟨⟨hfits, hplain⟩, hpall⟩, hball⟩ := hn
    refine ⟨⟨⟨?_, by rwa [hbody.alike.isPlain]⟩, forall_of_zip hlength ihp hpall⟩, ihb hball⟩
    exact forall_of_zip hlength (fun p hp h => by rwa [(hparams p hp).alike.fits]) hfits
  | binary hleft hright ihl ihr =>
    simp only [all, isWellFormed, Bool.and_eq_true] at hn ⊢
    obtain ⟨⟨⟨⟨⟨hlplain, hrplain⟩, hlkind⟩, hrkind⟩, hlall⟩, hrall⟩ := hn
    refine ⟨⟨⟨⟨⟨?_, ?_⟩, ?_⟩, ?_⟩, ihl hlall⟩, ihr hrall⟩
    · rwa [hleft.alike.isPlain]
    · rwa [hright.alike.isPlain]
    · rwa [hleft.alike.kind]
    · rwa [hright.alike.kind]
  | unary hx ih =>
    simp only [all, isWellFormed, Bool.and_eq_true] at hn ⊢
    obtain ⟨⟨⟨hplain, hfunction⟩, hbinary⟩, hall⟩ := hn
    refine ⟨⟨⟨?_, ?_⟩, ?_⟩, ih hall⟩
    · rwa [hx.alike.isPlain]
    · rwa [hx.alike.kind]
    · rwa [hx.alike.kind]
  | paren hx ih =>
    simp only [all, isWellFormed, Bool.and_eq_true] at hn ⊢
    exact ⟨by rw [hx.alike.isPlain]; exact hn.1, ih hn.2⟩

/-- A pass keeps a tree well-formed. -/
theorem WellFormed.run {t : Node} (h : WellFormed t) (r : Resolvers) :
    WellFormed (Deferral.run r t).val := by
  have htyped : t.all isTyped = true :=
    all_eq_true.2 fun m hm => isTyped_of_isWellFormed (all_eq_true.1 h.2 m hm)
  have hplaced := run_placed (collects_exactParams r) htyped
  exact ⟨hplaced.alike.kind.trans h.1, hplaced.all_isWellFormed h.2⟩

/-! ## Walking and printing -/

theorem isFull_of_isWellFormed {n : Node} (h : n.isWellFormed = true) : n.isFull = true := by
  have hany : ∀ {ns : List Node} {p : Node → Bool}, (∀ x, p x = true → x.isAbsent = false) →
      ns.all p = true → ns.any isAbsent = false := by
    intro ns p hp hns
    refine List.any_eq_false.2 fun x hx => ?_
    simp [hp x (List.all_eq_true.1 hns x hx)]
  have hfits : ∀ (slot : Slot) (x : Node), x.fits slot = true → x.isAbsent = false := by
    intro slot x hx
    cases x <;> first | rfl | (cases slot <;> simp [Node.fits, isExpression, kind] at hx)
  have hplain : ∀ x : Node, x.isPlain = true → x.isAbsent = false := fun x hx => by
    cases x <;> first | rfl | simp [isPlain, isExpression, kind] at hx
  cases n <;> simp only [isWellFormed, Bool.and_eq_true] at h
  case program => simp [isFull, hasGap, hany (hfits _) h]
  case object => simp [isFull, hasGap, hany (hfits _) h]
  case templateLiteral => simp [isFull, hasGap, hany hplain h.2]
  case call => simp [isFull, hasGap, hany (hfits .expression) h.2]
  case function => simp [isFull, hasGap, hany (hfits _) h.1]
  case array pos elements =>
    refine List.all_eq_true.2 fun x hx => ?_
    rw [hfits .expression x (List.all_eq_true.1 h x hx)]
    rfl
  case absent => cases h
  all_goals rfl

theorem lacksName_of_isWellFormed {n : Node} (h : n.isWellFormed = true) :
    n.lacksName = false := by
  have hname : ∀ x : Node, x.fits .name = true → x.isAbsent = false := fun x hx => by
    cases x <;> first | rfl | simp [Node.fits, kind] at hx
  cases n <;> first | rfl | skip
  case varDecl =>
    simp only [isWellFormed, Bool.and_eq_true] at h
    exact hname _ h.1
  case function =>
    simp only [isWellFormed, Bool.and_eq_true] at h
    refine List.any_eq_false.2 fun x hx => ?_
    simp [hname x (List.all_eq_true.1 h.1 x hx)]

theorem WellFormed.isSolid {t : Node} (h : WellFormed t) : t.IsSolid := by
  refine ⟨?_, all_eq_true.2 fun m hm => isFull_of_isWellFormed (all_eq_true.1 h.2 m hm)⟩
  have hkind := h.1
  cases t <;> first | rfl | cases hkind

theorem WellFormed.format_eq {t : Node} (h : WellFormed t) : t.format = .ok t.print := by
  have hnamed : t.all (fun m => !m.lacksName) = true := all_eq_true.2 fun m hm => by
    rw [lacksName_of_isWellFormed (all_eq_true.1 h.2 m hm)]
    rfl
  rw [format, isNamed, List.all_eq_true.2 ((all_eq_true_iff _ [] t).1 hnamed), if_pos rfl]

/-- Trees of sources are well-formed, and passes keep them so, however names are resolved. A
well-formed tree is walked to the end by every careful visitor, its visits can be listed, and it can
be printed. -/
theorem trees_stay_wellFormed :
    (∀ file src t, parse file src = .ok t → WellFormed t) ∧
    (∀ r t, WellFormed t → WellFormed (Deferral.run r t).val) ∧
    ∀ t, WellFormed t →
      (∀ (σ : Type) (visit : Visitor σ), Careful visit → ∀ fuel s,
        ∃ c' s', Cursor.traverse visit fuel (.root t) s = .ok (c', s')) ∧
      (∀ kinds, ∃ visits m, Traversal.run kinds none t = .ok (visits, m)) ∧
      t.format = .ok t.print := by
  refine ⟨fun _ _ _ h => wellFormed_of_parse h, fun r _ h => h.run r, fun t h => ?_⟩
  refine ⟨fun σ visit hvisit fuel s => ?_, Traversal.run_ok h.isSolid, h.format_eq⟩
  obtain ⟨c', s', hwalk, -, -⟩ := Cursor.traverse_ok hvisit fuel (Cursor.isSolid_root h.isSolid) s
  exact ⟨c', s', hwalk⟩

/-- A cube with a property in short form that a pass writes out, keys of every sort, and operators
around calls and member accesses. -/
def assortedCube : Text :=
  lit "cube(`A$\x7bx\x7d`, \x7b sql, 'k': -a[b] + c?.d(...e), " ++
    lit "[f]: (g) => \x7b1: 's\\n'\x7d, ...h \x7d)"

/-- Its tree is well-formed before and after a pass, and can be walked and printed. -/
theorem assortedCube_stays_wellFormed : ∃ t, parse [] assortedCube = .ok t ∧ WellFormed t ∧
    WellFormed (Deferral.run acceptingAll t).val ∧
    (Deferral.run acceptingAll t).val.format = .ok (Deferral.run acceptingAll t).val.print ∧
    Careful (Traversal.recording none none) ∧
    ∃ c s, Cursor.traverse (Traversal.recording none none) 40
      (.root (Deferral.run acceptingAll t).val) ([], 0) = .ok (c, s) := by
  have hok : (parse [] assortedCube).isOk = true := by decide +kernel
  cases h : parse [] assortedCube with
  | error e => simp [h, Except.isOk, Except.toBool] at hok
  | ok t =>
    have hread := trees_stay_wellFormed.1 [] assortedCube t h
    have hpassed := trees_stay_wellFormed.2.1 acceptingAll t hread
    obtain ⟨hwalk, -, hformat⟩ := trees_stay_wellFormed.2.2 _ hpassed
    exact ⟨t, rfl, hread, hpassed, hformat, careful_recording none,
      hwalk _ _ (careful_recording none) 40 ([], 0)⟩

end CubeSchema
