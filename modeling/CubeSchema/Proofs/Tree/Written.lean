import CubeSchema.Proofs.Token.Modes
import CubeSchema.Proofs.Tree.Source

/-!
# Trees as they are written

`Written` is the grammar as a relation between trees and the tokens that spell them, with the place
of every node given by its first token. It says nothing about alternatives that are tried in vain.
`written_of_parse` says that the tree of a source is written as the tokens of that source: none is
left over and none is used twice. What is shown of a written tree by induction over `Written` then
holds of every tree that has been read.
-/

namespace CubeSchema

open Lexeme Lexer Grammar Node ParseTree Operator

/-- What a stretch of tokens spells. -/
inductive Phrase where
  /-- A node. -/
  | node (n : Node)
  /-- Nodes with a comma between each two; there is at least one. -/
  | items (ns : List Node)
  /-- What stands between the brackets of a list. -/
  | list (ns : List Node)
  /-- The parameters of a function. -/
  | params (ns : List Node)
  /-- The rest of a template whose current chunk has been read up to `raw`. -/
  | chunks (raw : Text) (quasis : List Quasi) (exprs : List Node)
  /-- Statements. -/
  | body (ns : List Node)

/-- The tokens of a mark or word that need not be there. -/
def Flagged (b : BareToken) (flag : Bool) (ts : List Token) : Prop :=
  ts.map Token.bare = if flag then [b] else []

/-- The tokens spell the phrase. -/
inductive Written : Phrase → List Token → Prop
  | name {t : Token} (hcls : t.cls = .ident) : Written (.node (.identifier t.pos t.text)) [t]
  | keyword {t : Token} (hcls : t.cls = .ident) (htext : t.text ∈ keywordValues.map lit) :
      Written (.node (.keywordLiteral t.pos t.text)) [t]
  | number {t : Token} (hcls : t.cls = .number) : Written (.node (.numberLiteral t.pos t.text)) [t]
  | string {t : Token} {value : Text} (hcls : t.cls = .string) :
      Written (.node (.stringLiteral t.pos value t.text)) [t]
  | template {first last : Token} {us : List Token} {quasis : List Quasi} {exprs : List Node}
      (hfirst : first.bare = ⟨.backtick, [96]⟩) (hchunks : Written (.chunks [] quasis exprs) us)
      (hlast : last.bare = ⟨.templateEnd, [96]⟩) :
      Written (.node (.templateLiteral first.pos quasis exprs)) (first :: us ++ [last])
  | array {first last : Token} {us : List Token} {elements : List Node}
      (hfirst : first.bare = mark "[") (helements : Written (.list elements) us)
      (hlast : last.bare = mark "]") :
      Written (.node (.array first.pos elements)) (first :: us ++ [last])
  | object {first last : Token} {us : List Token} {members : List Node}
      (hfirst : first.bare = ⟨.lbrace, [123]⟩) (hmembers : Written (.list members) us)
      (hlast : last.bare = ⟨.rbrace, [125]⟩) :
      Written (.node (.object first.pos members)) (first :: us ++ [last])
  | shorthand {t : Token} (hcls : t.cls = .ident) :
      Written (.node (.property t.pos (.identifier t.pos t.text) (.identifier t.pos t.text)
        false true)) [t]
  | property {t colon : Token} {vs : List Token} {key value : Node}
      (hkey : Written (.node key) [t]) (hcolon : colon.bare = mark ":")
      (hvalue : Written (.node value) vs) :
      Written (.node (.property t.pos key value false false)) (t :: colon :: vs)
  | computed {first last colon : Token} {us vs : List Token} {key value : Node}
      (hfirst : first.bare = mark "[") (hkey : Written (.node key) us)
      (hlast : last.bare = mark "]") (hcolon : colon.bare = mark ":")
      (hvalue : Written (.node value) vs) :
      Written (.node (.property first.pos key value true false))
        (first :: us ++ last :: colon :: vs)
  | spread {dots : Token} {us : List Token} {x : Node} (hdots : dots.bare = mark "...")
      (hx : Written (.node x) us) : Written (.node (.spread dots.pos x)) (dots :: us)
  | member {point t : Token} {us : List Token} {obj : Node} {optional : Bool}
      (hobj : Written (.node obj) us)
      (hpoint : point.bare = mark (if optional then "?." else ".")) (hcls : t.cls = .ident) :
      Written (.node (.member obj (.identifier t.pos t.text) false optional)) (us ++ [point, t])
  | index {first last : Token} {us ms vs : List Token} {obj prop : Node} {optional : Bool}
      (hobj : Written (.node obj) us) (hmark : Flagged (mark "?.") optional ms)
      (hfirst : first.bare = mark "[") (hprop : Written (.node prop) vs)
      (hlast : last.bare = mark "]") :
      Written (.node (.member obj prop true optional)) (us ++ ms ++ first :: vs ++ [last])
  | call {first last : Token} {us ms vs : List Token} {callee : Node} {args : List Node}
      {optional : Bool} (hcallee : Written (.node callee) us)
      (hmark : Flagged (mark "?.") optional ms) (hfirst : first.bare = mark "(")
      (hargs : Written (.list args) vs) (hlast : last.bare = mark ")") :
      Written (.node (.call callee args optional)) (us ++ ms ++ first :: vs ++ [last])
  | function {arrow : Token} {ms us vs : List Token} {params : List Node} {body : Node}
      {async : Bool} (hasync : Flagged ⟨.ident, asyncWord⟩ async ms)
      (hparams : Written (.params params) us) (harrow : arrow.bare = mark "=>")
      (hbody : Written (.node body) vs) :
      Written (.node (.function (startOf (ms ++ us)) params body async)) (ms ++ us ++ arrow :: vs)
  | param {t : Token} (hcls : t.cls = .ident) : Written (.params [.identifier t.pos t.text]) [t]
  | params {first last : Token} {us : List Token} {ns : List Node}
      (hfirst : first.bare = mark "(") (hnames : Written (.list ns) us)
      (hlast : last.bare = mark ")") : Written (.params ns) (first :: us ++ [last])
  | binary {t : Token} {us vs : List Token} {left right : Node}
      (hop : t.text ∈ binaryOperators.map lit) (hsign : t.bare = sign t.text)
      (hleft : Written (.node left) us) (hright : Written (.node right) vs) :
      Written (.node (.binary left t.text right)) (us ++ t :: vs)
  | unary {t : Token} {us : List Token} {x : Node} (hop : t.text ∈ unaryOperators.map lit)
      (hsign : t.bare = sign t.text) (hx : Written (.node x) us) :
      Written (.node (.unary t.pos t.text x)) (t :: us)
  | paren {first last : Token} {us : List Token} {x : Node} (hfirst : first.bare = mark "(")
      (hx : Written (.node x) us) (hlast : last.bare = mark ")") :
      Written (.node (.paren first.pos x)) (first :: us ++ [last])
  | item {us : List Token} {n : Node} (hn : Written (.node n) us) : Written (.items [n]) us
  | items {comma : Token} {us vs : List Token} {n : Node} {ns : List Node}
      (hn : Written (.node n) us) (hcomma : comma.bare = mark ",") (hns : Written (.items ns) vs) :
      Written (.items (n :: ns)) (us ++ comma :: vs)
  | noList : Written (.list []) []
  | list {us : List Token} {ns : List Node} (hns : Written (.items ns) us) : Written (.list ns) us
  | listComma {comma : Token} {us : List Token} {ns : List Node} (hns : Written (.items ns) us)
      (hcomma : comma.bare = mark ",") : Written (.list ns) (us ++ [comma])
  | lastChunk {q : Quasi} : Written (.chunks q.raw [q] []) []
  | chars {raw : Text} {t : Token} {us : List Token} {quasis : List Quasi} {exprs : List Node}
      (hcls : t.cls = .templateChars ∨ t.cls = .dollar) (hne : t.text ≠ [])
      (more : Written (.chunks (raw ++ t.text) quasis exprs) us) :
      Written (.chunks raw quasis exprs) (t :: us)
  | hole {q : Quasi} {first last : Token} {us vs : List Token} {x : Node} {quasis : List Quasi}
      {exprs : List Node} (hfirst : first.bare = ⟨.exprStart, [36, 123]⟩)
      (hx : Written (.node x) us) (hlast : last.bare = ⟨.exprEnd, [125]⟩)
      (more : Written (.chunks [] quasis exprs) vs) :
      Written (.chunks q.raw (q :: quasis) (x :: exprs)) (first :: us ++ last :: vs)
  | bareDecl {word t : Token} (hword : word.cls = .ident)
      (hkeyword : word.text ∈ declarationWords.map lit) (hcls : t.cls = .ident) :
      Written (.node (.varDecl word.pos word.text (.identifier t.pos t.text) .absent)) [word, t]
  | varDecl {word t equals : Token} {vs : List Token} {init : Node} (hword : word.cls = .ident)
      (hkeyword : word.text ∈ declarationWords.map lit) (hcls : t.cls = .ident)
      (hequals : equals.bare = mark "=") (hinit : Written (.node init) vs) :
      Written (.node (.varDecl word.pos word.text (.identifier t.pos t.text) init))
        (word :: t :: equals :: vs)
  | exprStmt {us : List Token} {x : Node} (hx : Written (.node x) us) :
      Written (.node (.exprStmt x)) us
  | noBody : Written (.body []) []
  | semicolon {t : Token} {us : List Token} {ns : List Node} (ht : t.bare = mark ";")
      (more : Written (.body ns) us) : Written (.body ns) (t :: us)
  | statement {us vs : List Token} {n : Node} {ns : List Node} (hn : Written (.node n) us)
      (more : Written (.body ns) vs) : Written (.body (n :: ns)) (us ++ vs)

/-! ## Modes -/

theorem effect_sign (t : Text) : effectOf (sign t).cls = .keep := by
  unfold sign
  split <;> rfl

theorem modesAfter_flagged {b : BareToken} {flag : Bool} {ts : List Token} (h : Flagged b flag ts)
    (hb : effectOf b.cls = .keep) (stack : List Mode) :
    modesAfter stack (ts.map Token.bare) = stack := by
  rw [h]
  cases flag with
  | false => rfl
  | true =>
    show StackEffect.apply (effectOf b.cls) stack = stack
    rw [hb]
    rfl

/-- A phrase closes all that it opens. -/
theorem Written.modesAfter_eq {ph : Phrase} {ts : List Token} (h : Written ph ts)
    (stack : List Mode) : modesAfter stack (ts.map Token.bare) = stack := by
  -- Only braces, backticks and holes change the modes. Names, operators and the other marks do not.
  have hkeep : ∀ {t : Token} {s : String} (stack : List Mode), t.bare = mark s →
      StackEffect.apply (effectOf t.bare.cls) stack = stack := by
    intro t s stack ht
    rw [ht]
    rfl
  have hname : ∀ {t : Token} (stack : List Mode), t.cls = .ident →
      StackEffect.apply (effectOf t.bare.cls) stack = stack := by
    intro t stack ht
    show StackEffect.apply (effectOf t.cls) stack = stack
    rw [ht]
    rfl
  have hsign : ∀ {t : Token} (stack : List Mode), t.bare = sign t.text →
      StackEffect.apply (effectOf t.bare.cls) stack = stack := by
    intro t stack ht
    rw [ht, effect_sign]
    rfl
  -- What stands inside of a pair is read in a deeper stack, so the stack has to be general.
  induction h generalizing stack with
  | name hcls => exact hname stack hcls
  | keyword hcls _ => exact hname stack hcls
  | @number t hcls =>
    show StackEffect.apply (effectOf t.cls) stack = stack
    rw [hcls]
    rfl
  | @string t value hcls =>
    show StackEffect.apply (effectOf t.cls) stack = stack
    rw [hcls]
    rfl
  | template hfirst _ hlast ih =>
    simp only [List.cons_append, List.map_cons, List.map_append, List.map_nil, modesAfter_cons,
      modesAfter_append, modesAfter_nil, ih, hfirst, hlast]
    rfl
  | array hfirst _ hlast ih =>
    simp only [List.cons_append, List.map_cons, List.map_append, List.map_nil, modesAfter_cons,
      modesAfter_append, modesAfter_nil, ih, hkeep _ hfirst, hkeep _ hlast]
  | object hfirst _ hlast ih =>
    simp only [List.cons_append, List.map_cons, List.map_append, List.map_nil, modesAfter_cons,
      modesAfter_append, modesAfter_nil, ih, hfirst, hlast]
    rfl
  | shorthand hcls => exact hname stack hcls
  | property _ hcolon _ ihk ihv =>
    have hk := ihk stack
    simp only [List.map_cons, List.map_nil, modesAfter_cons, modesAfter_nil] at hk
    simp only [List.map_cons, modesAfter_cons, hk, hkeep _ hcolon, ihv]
  | computed hfirst _ hlast hcolon _ ihk ihv =>
    simp only [List.cons_append, List.map_cons, List.map_append, modesAfter_cons,
      modesAfter_append, ihk, ihv, hkeep _ hfirst, hkeep _ hlast, hkeep _ hcolon]
  | spread hdots _ ih => simp only [List.map_cons, modesAfter_cons, hkeep _ hdots, ih]
  | member _ hpoint hcls ih =>
    simp only [List.map_append, List.map_cons, List.map_nil, modesAfter_append, modesAfter_cons,
      modesAfter_nil, ih, hkeep _ hpoint, hname _ hcls]
  | index _ hmark hfirst _ hlast iho ihp =>
    simp only [List.cons_append, List.append_assoc, List.map_append, List.map_cons, List.map_nil,
      modesAfter_append, modesAfter_cons, modesAfter_nil, iho, ihp, modesAfter_flagged hmark rfl,
      hkeep _ hfirst, hkeep _ hlast]
  | call _ hmark hfirst _ hlast ihc iha =>
    simp only [List.cons_append, List.append_assoc, List.map_append, List.map_cons, List.map_nil,
      modesAfter_append, modesAfter_cons, modesAfter_nil, ihc, iha, modesAfter_flagged hmark rfl,
      hkeep _ hfirst, hkeep _ hlast]
  | function hasync _ harrow _ ihp ihb =>
    simp only [List.append_assoc, List.map_append, List.map_cons, modesAfter_append,
      modesAfter_cons, modesAfter_flagged hasync rfl, ihp, ihb, hkeep _ harrow]
  | param hcls => exact hname stack hcls
  | params hfirst _ hlast ih =>
    simp only [List.cons_append, List.map_cons, List.map_append, List.map_nil, modesAfter_cons,
      modesAfter_append, modesAfter_nil, ih, hkeep _ hfirst, hkeep _ hlast]
  | binary _ hop _ _ ihl ihr =>
    simp only [List.map_append, List.map_cons, modesAfter_append, modesAfter_cons, ihl, ihr,
      hsign _ hop]
  | unary _ hop _ ih => simp only [List.map_cons, modesAfter_cons, hsign _ hop, ih]
  | paren hfirst _ hlast ih =>
    simp only [List.cons_append, List.map_cons, List.map_append, List.map_nil, modesAfter_cons,
      modesAfter_append, modesAfter_nil, ih, hkeep _ hfirst, hkeep _ hlast]
  | item _ ih => exact ih stack
  | items _ hcomma _ ihn ihs =>
    simp only [List.map_append, List.map_cons, modesAfter_append, modesAfter_cons, ihn, ihs,
      hkeep _ hcomma]
  | noList => rfl
  | list _ ih => exact ih stack
  | listComma _ hcomma ih =>
    simp only [List.map_append, List.map_cons, List.map_nil, modesAfter_append, modesAfter_cons,
      modesAfter_nil, ih, hkeep _ hcomma]
  | lastChunk => rfl
  | @chars raw t us quasis exprs hcls _ _ ih =>
    -- A chunk is made of characters and of dollar signs, which both keep the modes.
    have ht : effectOf t.bare.cls = .keep := by
      show effectOf t.cls = .keep
      rcases hcls with hcls | hcls <;> rw [hcls] <;> rfl
    rw [List.map_cons, modesAfter_cons, ht]
    exact ih stack
  | hole hfirst _ hlast _ ihx ihm =>
    simp only [List.cons_append, List.map_cons, List.map_append, modesAfter_cons,
      modesAfter_append, ihx, ihm, hfirst, hlast]
    rfl
  | bareDecl hword _ hcls =>
    simp only [List.map_cons, List.map_nil, modesAfter_cons, modesAfter_nil, hname _ hword,
      hname _ hcls]
  | varDecl hword _ hcls hequals _ ih =>
    simp only [List.map_cons, modesAfter_cons, hname _ hword, hname _ hcls, hkeep _ hequals, ih]
  | exprStmt _ ih => exact ih stack
  | noBody => rfl
  | semicolon ht _ ih => simp only [List.map_cons, modesAfter_cons, hkeep _ ht, ih]
  | statement _ _ ihn ihm => simp only [List.map_append, modesAfter_append, ihn, ihm]

/-! ## Tokens in their modes -/

/-- Tokens of a source, where these are the modes in front of them. -/
structure Staged (stack : List Mode) (ts : List Token) : Prop where
  /-- They are sound, and each fits the one in front of it. -/
  sourced : Sourced ts
  /-- Each may come up where it does. -/
  modal : Modal stack (ts.map Token.bare)

namespace Staged

variable {stack : List Mode} {t : Token} {ts : List Token}

theorem admits (h : Staged stack (t :: ts)) : Admits stack t.bare := by
  cases h.modal with
  | cons first _ => exact first

theorem next (h : Staged stack (t :: ts)) :
    Staged (StackEffect.apply (effectOf t.cls) stack) ts := by
  refine ⟨h.sourced.tail, ?_⟩
  cases h.modal with
  | cons _ more => exact more

/-- Behind a token that neither opens nor closes anything. -/
theorem tail (h : Staged stack (t :: ts)) (hkeep : effectOf t.cls = .keep) : Staged stack ts := by
  have hnext := h.next
  rwa [hkeep] at hnext

theorem behind_mark (h : Staged stack (t :: ts)) {s : String} (ht : t.bare = mark s) :
    Staged stack ts := h.tail (by rw [cls_of_bare ht]; rfl)

theorem behind_word (h : Staged stack (t :: ts)) (ht : t.cls = .ident) : Staged stack ts :=
  h.tail (by rw [ht]; rfl)

theorem behind_sign (h : Staged stack (t :: ts)) (ht : t.bare = sign t.text) : Staged stack ts :=
  h.tail (by rw [cls_of_bare ht, effect_sign])

/-- Behind a phrase the modes are the same as in front of it. -/
theorem behind {ph : Phrase} {us rest : List Token} (h : Staged stack (us ++ rest))
    (hus : Written ph us) : Staged stack rest := by
  have hlinked : Linked (us.map Token.bare ++ rest.map Token.bare) := by
    rw [← List.map_append]
    exact h.sourced
  have hmodal : Modal stack (us.map Token.bare ++ rest.map Token.bare) := by
    rw [← List.map_append]
    exact h.modal
  refine ⟨hlinked.right, ?_⟩
  have hright := hmodal.right
  rwa [hus.modesAfter_eq] at hright

variable (hcode : InCode stack)

include hcode

/-- In code, the text of a mark tells the token. -/
theorem bare_mark (h : Staged stack (t :: ts)) {s : String} (ht : hasText (lit s) t = true)
    (hs : lit s ∈ marks ∧ lit s ≠ [125]) : t.bare = mark s := by
  have htext : t.bare.text = lit s := (hasText_eq_true.1 ht).2
  have hcls : t.bare.cls = .punct := by
    apply h.sourced.sound.cls_eq_punct (h.admits.code hcode)
    · rw [htext]
      exact hs.1
    · rw [htext]
      exact hs.2
  calc t.bare = ⟨t.bare.cls, t.bare.text⟩ := rfl
    _ = mark s := by rw [hcls, htext]; rfl

theorem cls_word (h : Staged stack (t :: ts)) (ht : IsName t.text) : t.cls = .ident :=
  h.sourced.sound.cls_eq_ident (h.admits.code hcode) ht

theorem bare_sign (h : Staged stack (t :: ts))
    (ht : t.text ∈ binaryOperators.map lit ++ unaryOperators.map lit) : t.bare = sign t.text :=
  h.sourced.sound.eq_sign (h.admits.code hcode) ht

theorem bare_lbrace (h : Staged stack (t :: ts)) (ht : t.text = [123]) :
    t.bare = ⟨.lbrace, [123]⟩ := by
  have hcls := h.sourced.sound.cls_eq_lbrace (h.admits.code hcode) ht
  calc t.bare = ⟨t.bare.cls, t.text⟩ := rfl
    _ = ⟨.lbrace, [123]⟩ := by rw [hcls, ht]

end Staged

/-- A closing brace in a block ends it. -/
theorem Staged.bare_rbrace {stack : List Mode} {t : Token} {ts : List Token}
    (h : Staged (.block :: stack) (t :: ts)) (ht : t.text = [125]) : t.bare = ⟨.rbrace, [125]⟩ := by
  have hcls : t.bare.cls = .rbrace := h.admits.brace (inCode_block _) ht
  calc t.bare = ⟨t.bare.cls, t.text⟩ := rfl
    _ = ⟨.rbrace, [125]⟩ := by rw [hcls, ht]

/-- A token of a template has the one text of its class. -/
theorem Staged.bare_eq {stack : List Mode} {t : Token} {ts : List Token}
    (h : Staged stack (t :: ts)) {b : BareToken} (hcls : t.cls = b.cls)
    (hb : b ∈ [(⟨.backtick, [96]⟩ : BareToken), ⟨.templateEnd, [96]⟩, ⟨.exprStart, [36, 123]⟩,
      ⟨.exprEnd, [125]⟩]) : t.bare = b := by
  have hsound := h.sourced.sound
  have hbare : t.bare.cls = b.cls := hcls
  unfold BareToken.IsSound at hsound
  simp only [List.mem_cons, List.not_mem_nil, or_false] at hb
  rcases hb with rfl | rfl | rfl | rfl
  all_goals
    simp only [hbare] at hsound
    exact BareToken.mk.injEq .. ▸ ⟨hbare, hsound⟩

/-! ## Reading what is written -/

/-- A front of the tokens spells the phrase, and the rest is left. -/
def Spans (ph : Phrase) (ts rest : List Token) : Prop := ∃ us, ts = us ++ rest ∧ Written ph us

/-- Expressions of fewer than `k` tokens are written as the tokens they are read from. -/
def WritesBelow (k : Nat) : Prop :=
  ∀ stack ts rest n, ts.length < k → InCode stack → Staged stack ts →
    Gives .expression ts rest n → Spans (.node n) ts rest

theorem spans_ident {ts rest : List Token} {n : Node} (h : Gives .ident ts rest n) :
    Spans (.node n) ts rest := by
  obtain ⟨t, rfl, hcls, rfl⟩ := gives_ident h
  exact ⟨[t], rfl, .name hcls⟩

/-- A key that is a token by itself. -/
theorem written_key {t : Token} {key : Node}
    (hcls : t.cls = .string ∨ t.cls = .number ∨ t.cls = .ident)
    (hkey : keyNode t.pos t = ⟨key, none⟩) : Written (.node key) [t] := by
  rcases hcls with hcls | hcls | hcls
  all_goals simp only [keyNode, hcls] at hkey
  · obtain ⟨value, -, rfl⟩ := stringNode_eq_ok hkey
    exact .string hcls
  · obtain rfl := Checked.pure_eq_ok.1 hkey
    exact .number hcls
  · obtain rfl := Checked.pure_eq_ok.1 hkey
    exact .name hcls

/-- The mark or word in front of what follows, where it is there. -/
theorem flagged_of_marked {stack : List Mode} {s : String} {flag : Bool} {ts us : List Token}
    {b : BareToken} (h : Marked (lit s) flag ts us) (hts : Staged stack ts)
    (hb : effectOf b.cls = .keep)
    (hbare : ∀ t vs, Staged stack (t :: vs) → hasText (lit s) t = true → t.bare = b) :
    ∃ ms, ts = ms ++ us ∧ Flagged b flag ms ∧ Staged stack us := by
  cases flag with
  | false =>
    obtain rfl : ts = us := h
    exact ⟨[], rfl, rfl, hts⟩
  | true =>
    obtain ⟨t, rfl, ht⟩ := h
    have hbare := hbare t us hts ht
    refine ⟨[t], rfl, ?_, hts.tail (by rw [cls_of_bare hbare]; exact hb)⟩
    show [t.bare] = [b]
    rw [hbare]

section

variable {stack : List Mode} (hcode : InCode stack)

include hcode

theorem spans_items {r : Rule} {ts rest : List Token} {ns : List Node} (h : Items r ts ns rest)
    (hts : Staged stack ts)
    (hp : ∀ us vs n, us.length ≤ ts.length → Staged stack us → Gives r us vs n →
      Spans (.node n) us vs) : Spans (.items ns) ts rest := by
  induction h with
  | last first =>
    obtain ⟨us, rfl, hus⟩ := hp _ _ _ (Nat.le_refl _) hts first
    exact ⟨us, rfl, .item hus⟩
  | @cons ts mid rest comma n ns first hcomma more ih =>
    obtain ⟨us, rfl, hus⟩ := hp _ _ _ (Nat.le_refl _) hts first
    have hmid := hts.behind hus
    have hbare := hmid.bare_mark hcode hcomma (by decide)
    obtain ⟨vs, rfl, hvs⟩ := ih (hmid.behind_mark hbare) fun ws xs m hle =>
      hp ws xs m (by simp only [List.length_append, List.length_cons] at hle ⊢; omega)
    exact ⟨us ++ comma :: vs, by simp, .items hus hbare hvs⟩

theorem spans_list {r : Rule} {ts rest : List Token} {ns : List Node} (h : Listed r ts ns rest)
    (hts : Staged stack ts)
    (hp : ∀ us vs n, us.length ≤ ts.length → Staged stack us → Gives r us vs n →
      Spans (.node n) us vs) : Spans (.list ns) ts rest := by
  rcases h with ⟨rfl, rfl⟩ | ⟨mid, hitems, hclosed⟩
  · exact ⟨[], rfl, .noList⟩
  · obtain ⟨us, rfl, hus⟩ := spans_items hcode hitems hts hp
    rcases hclosed with rfl | ⟨comma, rfl, hcomma⟩
    · exact ⟨us, rfl, .list hus⟩
    · have hbare := (hts.behind hus).bare_mark hcode hcomma (by decide)
      exact ⟨us ++ [comma], by simp, .listComma hus hbare⟩

theorem spans_params {ts rest : List Token} {params : List Node} (h : GivenParams ts rest params)
    (hts : Staged stack ts) : Spans (.params params) ts rest := by
  cases h with
  | single h =>
    obtain ⟨t, rfl, hcls, rfl⟩ := gives_ident h
    exact ⟨[t], rfl, .param hcls⟩
  | @list first last us ns heq hfirst hlast hnames =>
    subst heq
    have hopen := hts.bare_mark hcode hfirst (by decide)
    have hus := hts.behind_mark hopen
    obtain ⟨vs, rfl, hvs⟩ := spans_list hcode hnames hus fun _ _ _ _ _ h => spans_ident h
    have hclose := (hus.behind hvs).bare_mark hcode hlast (by decide)
    exact ⟨first :: vs ++ [last], by simp, .params hopen hvs hclose⟩

end

section

variable {k : Nat} (hbelow : WritesBelow k) {stack : List Mode} (hcode : InCode stack)

include hbelow hcode

theorem spans_element {ts rest : List Token} {n : Node} (hlt : ts.length < k)
    (hts : Staged stack ts) (h : Gives .element ts rest n) : Spans (.node n) ts rest := by
  rcases gives_element h with h | ⟨t, us, x, rfl, hdots, hx, rfl⟩
  · exact hbelow stack ts rest n hlt hcode hts h
  · have hbare := hts.bare_mark hcode hdots (by decide)
    simp only [List.length_cons] at hlt
    obtain ⟨vs, rfl, hvs⟩ := hbelow stack us rest x (by omega) hcode (hts.behind_mark hbare) hx
    exact ⟨t :: vs, rfl, .spread hbare hvs⟩

theorem spans_member {ts rest : List Token} {n : Node} (hlt : ts.length < k)
    (hts : Staged stack ts) (h : Gives .objectMember ts rest n) : Spans (.node n) ts rest := by
  cases gives_objectMember h with
  | @spread t us x heq hdots hx =>
    subst heq
    have hbare := hts.bare_mark hcode hdots (by decide)
    simp only [List.length_cons] at hlt
    obtain ⟨vs, rfl, hvs⟩ := hbelow stack us rest x (by omega) hcode (hts.behind_mark hbare) hx
    exact ⟨t :: vs, rfl, .spread hbare hvs⟩
  | @shorthand t heq hcls =>
    subst heq
    exact ⟨[t], rfl, .shorthand hcls⟩
  | @property t colon us key value heq hcls hkey hcolon hvalue =>
    subst heq
    have hwritten := written_key hcls hkey
    have hsplit : Staged stack ([t] ++ colon :: us) := hts
    have hbehind : Staged stack (colon :: us) := hsplit.behind hwritten
    have hbare := hbehind.bare_mark hcode hcolon (by decide)
    simp only [List.length_cons] at hlt
    obtain ⟨vs, rfl, hvs⟩ :=
      hbelow stack us rest value (by omega) hcode (hbehind.behind_mark hbare) hvalue
    exact ⟨t :: colon :: vs, rfl, .property hwritten hbare hvs⟩
  | @computed first last colon us vs key value heq hfirst hlast hkey hcolon hvalue =>
    subst heq
    simp only [List.length_cons] at hlt
    have hopen := hts.bare_mark hcode hfirst (by decide)
    have hus := hts.behind_mark hopen
    -- The key and the value are both shorter than the member, so both are known to be written.
    obtain ⟨ks, rfl, hks⟩ := hbelow stack us _ key (by omega) hcode hus hkey
    have hafter := hus.behind hks
    have hclose := hafter.bare_mark hcode hlast (by decide)
    have hrest := hafter.behind_mark hclose
    have hbare := hrest.bare_mark hcode hcolon (by decide)
    simp only [List.length_append, List.length_cons] at hlt
    obtain ⟨ws, rfl, hws⟩ :=
      hbelow stack vs rest value (by omega) hcode (hrest.behind_mark hbare) hvalue
    exact ⟨first :: ks ++ last :: colon :: ws, by simp, .computed hopen hks hclose hbare hws⟩

end

/-- The parts of a template, each hole in modes of its own. -/
theorem spans_chunks {k : Nat} (hbelow : WritesBelow k) {stack : List Mode} {raw : Text}
    {ts rest : List Token} {quasis : List Quasi} {exprs : List Node}
    (h : Parts raw ts quasis exprs rest) (hlt : ts.length < k)
    (hts : Staged (.template :: stack) ts) : Spans (.chunks raw quasis exprs) ts rest := by
  induction h with
  | done => exact ⟨[], rfl, .lastChunk⟩
  | @chars raw t ts rest quasis exprs hcls more ih =>
    have hkeep : effectOf t.cls = .keep := by rcases hcls with hcls | hcls <;> rw [hcls] <;> rfl
    simp only [List.length_cons] at hlt
    obtain ⟨us, rfl, hus⟩ := ih (by omega) (hts.tail hkeep)
    exact ⟨t :: us, rfl, .chars hcls (hts.sourced.ne_nil_of_part hcls) hus⟩
  | @hole q first last us ts rest x quasis exprs _ hfirst hx hlast more ih =>
    have hopen := hts.bare_eq (b := ⟨.exprStart, [36, 123]⟩) hfirst (by simp)
    have hus : Staged (.interpolation :: .template :: stack) us := by
      -- The hole is read as code, in a mode above that of the template.
      have hnext := hts.next
      rwa [hfirst] at hnext
    simp only [List.length_cons] at hlt
    obtain ⟨vs, rfl, hvs⟩ := hbelow _ us _ x (by omega) (inCode_interpolation _) hus hx
    have hafter := hus.behind hvs
    have hclose := hafter.bare_eq (b := ⟨.exprEnd, [125]⟩) hlast (by simp)
    have hrest : Staged (.template :: stack) ts := by
      have hnext := hafter.next
      rwa [hlast] at hnext
    simp only [List.length_append, List.length_cons] at hlt
    obtain ⟨ws, rfl, hws⟩ := ih (by omega) hrest
    exact ⟨first :: vs ++ last :: ws, by simp, .hole hopen hvs hclose hws⟩

theorem isAbsent_of_member {ts rest : List Token} {n : Node} (h : Gives .objectMember ts rest n) :
    n.isAbsent = false := by
  cases gives_objectMember h <;> rfl

theorem spans_primary {ts rest : List Token} (hbelow : WritesBelow ts.length) {stack : List Mode}
    (hcode : InCode stack) {n : Node} (hts : Staged stack ts) (h : Gives .primary ts rest n) :
    Spans (.node n) ts rest := by
  cases gives_primary h with
  | @keyword t heq htext =>
    subst heq
    exact ⟨[t], rfl, .keyword (hts.cls_word hcode (isName_of_mem_keywordValues htext)) htext⟩
  | @number t heq hcls =>
    subst heq
    exact ⟨[t], rfl, .number hcls⟩
  | @string t value heq hcls _ =>
    subst heq
    exact ⟨[t], rfl, .string hcls⟩
  | @name t heq hcls _ =>
    subst heq
    exact ⟨[t], rfl, .name hcls⟩
  | @paren first last us x heq hfirst hlast hx =>
    subst heq
    have hopen := hts.bare_mark hcode hfirst (by decide)
    have hus := hts.behind_mark hopen
    obtain ⟨vs, rfl, hvs⟩ := hbelow stack us _ x (by simp) hcode hus hx
    have hclose := (hus.behind hvs).bare_mark hcode hlast (by decide)
    exact ⟨first :: vs ++ [last], by simp, .paren hopen hvs hclose⟩
  | @rule r n hr h =>
    simp only [List.mem_cons, List.not_mem_nil, or_false] at hr
    rcases hr with rfl | rfl | rfl
    · obtain ⟨first, us, last, quasis, exprs, rfl, hfirst, hlast, hparts, rfl⟩ :=
        gives_templateLiteral h
      have hopen := hts.bare_eq (b := ⟨.backtick, [96]⟩) hfirst (by simp)
      have hus : Staged (.template :: stack) us := by
        have hnext := hts.next
        rwa [hfirst] at hnext
      obtain ⟨vs, rfl, hvs⟩ := spans_chunks hbelow hparts (by simp) hus
      have hclose := (hus.behind hvs).bare_eq (b := ⟨.templateEnd, [96]⟩) hlast (by simp)
      exact ⟨first :: vs ++ [last], by simp, .template hopen hvs hclose⟩
    · obtain ⟨first, us, last, elements, rfl, hfirst, hlast, hlist, rfl⟩ := gives_arrayLiteral h
      have hopen := hts.bare_mark hcode hfirst (by decide)
      have hus := hts.behind_mark hopen
      obtain ⟨vs, rfl, hvs⟩ := spans_list hcode hlist hus fun ws xs m hle hws hm =>
        spans_element hbelow hcode (Nat.lt_succ_of_le hle) hws hm
      have hclose := (hus.behind hvs).bare_mark hcode hlast (by decide)
      exact ⟨first :: vs ++ [last], by simp, .array hopen hvs hclose⟩
    · obtain ⟨first, us, last, members, rfl, hfirst, hlast, hlist, rfl⟩ := gives_objectLiteral h
      have hopen := hts.bare_lbrace hcode (hasText_eq_true.1 hfirst).2
      have hus : Staged (.block :: stack) us := by
        have hnext := hts.next
        rwa [cls_of_bare hopen] at hnext
      -- Members are told from the rest by being there.
      have hall : ∀ m ∈ members, m.isAbsent = false :=
        hlist.forall (by decide) hts.sourced.tail fun _ _ _ _ _ hm => isAbsent_of_member hm
      have hfilter : members.filter (fun m => !m.isAbsent) = members :=
        List.filter_eq_self.2 fun m hm => by rw [hall m hm]; rfl
      obtain ⟨vs, rfl, hvs⟩ := spans_list (inCode_block _) hlist hus fun ws xs m hle hws hm =>
        spans_member hbelow (inCode_block _) (Nat.lt_succ_of_le hle) hws hm
      have hclose := (hus.behind hvs).bare_rbrace (hasText_eq_true.1 hlast).2
      exact ⟨first :: vs ++ [last], by simp, by rw [hfilter]; exact .object hopen hvs hclose⟩

/-- One call or member access behind what is written already. -/
theorem spans_suffix {k : Nat} (hbelow : WritesBelow k) {stack : List Mode} (hcode : InCode stack)
    {us mid rest : List Token} {x n : Node} (hmid : Staged stack mid) (hlt : mid.length < k)
    (hx : Written (.node x) us) (h : GivenSuffix mid rest x n) :
    ∃ vs, mid = vs ++ rest ∧ Written (.node n) (us ++ vs) := by
  -- The mark in front is a token by itself wherever there is code.
  have hmark : ∀ t vs, Staged stack (t :: vs) → hasText (lit "?.") t = true → t.bare = mark "?." :=
    fun t vs hvs ht => hvs.bare_mark hcode ht (by decide)
  cases h with
  | @call args optional paren close ws hmarked hparen hclose hargs =>
    obtain ⟨ms, rfl, hflag, hws⟩ := flagged_of_marked hmarked hmid rfl hmark
    have hopen := hws.bare_mark hcode hparen (by decide)
    have hinner := hws.behind_mark hopen
    simp only [List.length_append, List.length_cons] at hlt
    obtain ⟨vs, rfl, hvs⟩ := spans_list hcode hargs hinner fun xs ys m hle hxs hm =>
      spans_element hbelow hcode (by omega) hxs hm
    have hlast := (hinner.behind hvs).bare_mark hcode hclose (by decide)
    refine ⟨ms ++ paren :: vs ++ [close], by simp, ?_⟩
    have hcall := Written.call hx hflag hopen hvs hlast
    simpa only [List.append_assoc] using hcall
  | @index prop optional bracket close ws hmarked hbracket hclose hprop =>
    obtain ⟨ms, rfl, hflag, hws⟩ := flagged_of_marked hmarked hmid rfl hmark
    have hopen := hws.bare_mark hcode hbracket (by decide)
    have hinner := hws.behind_mark hopen
    simp only [List.length_append, List.length_cons] at hlt
    obtain ⟨vs, rfl, hvs⟩ := hbelow stack ws _ prop (by omega) hcode hinner hprop
    have hlast := (hinner.behind hvs).bare_mark hcode hclose (by decide)
    refine ⟨ms ++ bracket :: vs ++ [close], by simp, ?_⟩
    have hindex := Written.index hx hflag hopen hvs hlast
    simpa only [List.append_assoc] using hindex
  | @member point t optional heq hpoint hcls =>
    subst heq
    have hbare : point.bare = mark (if optional then "?." else ".") :=
      hmid.bare_mark hcode hpoint (by cases optional <;> decide)
    exact ⟨[point, t], rfl, .member hx hbare hcls⟩

theorem spans_suffixes {k : Nat} (hbelow : WritesBelow k) {stack : List Mode}
    (hcode : InCode stack) {us mid rest : List Token} {x n : Node} {trees : List ParseTree}
    (h : Repeats (.rule .suffix) mid trees rest) (hmid : Staged stack (us ++ mid))
    (hlt : mid.length < k) (hx : Written (.node x) us)
    (hbuild : buildSuffixes x trees = ⟨n, none⟩) : Spans (.node n) (us ++ mid) rest := by
  induction h generalizing us x with
  | nil =>
    obtain rfl : x = n := congrArg Checked.val hbuild
    exact ⟨us, rfl, hx⟩
  | @cons mid mid' rest front back first more ih =>
    obtain ⟨y, hy, hn⟩ := buildSuffixes_append_eq_ok hbuild
    obtain ⟨vs, rfl, hvs⟩ :=
      spans_suffix hbelow hcode (hmid.behind hx) hlt hx (gives_suffix first hy)
    rw [← List.append_assoc] at hmid ⊢
    exact ih hmid (by simp only [List.length_append] at hlt; omega) hvs hn

theorem spans_unary {k : Nat} (hbelow : WritesBelow k) {stack : List Mode} (hcode : InCode stack)
    {ts rest : List Token} {n : Node} (hle : ts.length ≤ k) (hts : Staged stack ts)
    (h : Gives .unary ts rest n) : Spans (.node n) ts rest := by
  induction hlength : ts.length using Nat.strong_induction_on generalizing ts n with
  | _ m ih =>
    rcases gives_unary h with ⟨t, us, x, rfl, hop, hx, rfl⟩ | ⟨-, h⟩
    · have hsign := hts.bare_sign hcode (List.mem_append_right _ hop)
      simp only [List.length_cons] at hlength hle
      obtain ⟨vs, rfl, hvs⟩ := ih us.length (by omega) (by omega) (hts.behind_sign hsign) hx rfl
      exact ⟨t :: vs, rfl, .unary hop hsign hvs⟩
    · obtain ⟨mid, x, trees, hx, hrep, hbuild⟩ := gives_suffixed h
      have hlt := hx.length_lt (by decide)
      have hbelow' : WritesBelow ts.length := fun stack us vs y hy =>
        hbelow stack us vs y (Nat.lt_of_lt_of_le hy hle)
      obtain ⟨us, rfl, hus⟩ := spans_primary hbelow' hcode hts hx
      exact spans_suffixes hbelow hcode hrep hts (by omega) hus hbuild

/-! ## Chains -/

/-- The operators of a chain, each with the operand behind it. -/
inductive WrittenLinks : List (Text × Node) → List Token → Prop
  | nil : WrittenLinks [] []
  | cons {t : Token} {us vs : List Token} {x : Node} {links : List (Text × Node)}
      (hop : t.text ∈ binaryOperators.map lit) (hsign : t.bare = sign t.text)
      (hx : Written (.node x) us) (more : WrittenLinks links vs) :
      WrittenLinks ((t.text, x) :: links) (t :: us ++ vs)

theorem WrittenLinks.split {links links' : List (Text × Node)} {op : Text} {x : Node}
    {ts : List Token} (h : WrittenLinks (links ++ (op, x) :: links') ts) :
    ∃ us t vs ws, ts = us ++ t :: (vs ++ ws) ∧ WrittenLinks links us ∧ t.text = op ∧
      op ∈ binaryOperators.map lit ∧ t.bare = sign op ∧ Written (.node x) vs ∧
      WrittenLinks links' ws := by
  induction links generalizing ts with
  | nil =>
    cases h with
    | @cons t us vs _ _ hop hsign hx more =>
      exact ⟨[], t, us, vs, rfl, .nil, rfl, hop, hsign, hx, more⟩
  | cons link links ih =>
    obtain ⟨op', y⟩ := link
    cases h with
    | @cons t us vs _ _ hop hsign hx more =>
      obtain ⟨ps, t', qs, rs, rfl, hlinks, htext, hop', hsign', hx', hrest⟩ := ih more
      exact ⟨t :: us ++ ps, t', qs, rs, by simp, .cons hop hsign hx hlinks, htext, hop', hsign',
        hx', hrest⟩

/-- A tree is written as its chain, however its operators are nested. -/
theorem written_of_chain (n : Node) {us vs : List Token} (hhead : Written (.node n.chainHead) us)
    (hlinks : WrittenLinks n.chainLinks vs) : Written (.node n) (us ++ vs) := by
  cases hn : n.isBinary with
  | false =>
    rw [chainHead_of_not_binary hn] at hhead
    rw [chainLinks_of_not_binary hn] at hlinks
    cases hlinks
    rwa [List.append_nil]
  | true =>
    match n, hn with
    | .binary left op right, _ =>
      rw [chainHead] at hhead
      rw [chainLinks] at hlinks
      obtain ⟨ps, t, qs, rs, rfl, hleft, rfl, hop, hsign, hright, hrest⟩ := hlinks.split
      have hbinary := Written.binary hop hsign (written_of_chain left hhead hleft)
        (written_of_chain right hright hrest)
      simpa only [List.append_assoc] using hbinary

theorem links_of_joins {k : Nat} (hbelow : WritesBelow k) {stack : List Mode}
    (hcode : InCode stack) {ts rest : List Token} {links : List (Text × Node)}
    (h : Joins ts links rest) (hle : ts.length ≤ k) (hts : Staged stack ts) :
    ∃ us, ts = us ++ rest ∧ WrittenLinks links us := by
  induction h with
  | nil => exact ⟨[], rfl, .nil⟩
  | @cons t us mid rest x links hop hx more ih =>
    have hsign := hts.bare_sign hcode (List.mem_append_left _ hop)
    have hus := hts.behind_sign hsign
    simp only [List.length_cons] at hle
    obtain ⟨vs, rfl, hvs⟩ := spans_unary hbelow hcode (by omega) hus hx
    simp only [List.length_append] at hle
    obtain ⟨ws, rfl, hws⟩ := ih (by omega) (hus.behind hvs)
    exact ⟨t :: vs ++ ws, by simp, .cons hop hsign hvs hws⟩

theorem isBinary_of_unary {ts rest : List Token} {n : Node} (hts : Sourced ts)
    (h : Gives .unary ts rest n) : n.isBinary = false :=
  isBinary_of_isOperand (operand_of_below (readsBelow ts.length) (Nat.le_refl _) hts h).operand

theorem isBinary_of_joins {ts rest : List Token} {links : List (Text × Node)}
    (h : Joins ts links rest) (hts : Sourced ts) : ∀ link ∈ links, link.2.isBinary = false := by
  induction h with
  | nil => simp
  | cons _ hx _ ih =>
    intro link hlink
    rcases List.mem_cons.1 hlink with rfl | hlink
    · exact isBinary_of_unary hts.tail hx
    · exact ih (hx.sourced hts.tail) link hlink

/-! ## Expressions and programs -/

theorem spans_expression {ts rest : List Token} (hbelow : WritesBelow ts.length)
    {stack : List Mode} (hcode : InCode stack) {n : Node} (hts : Staged stack ts)
    (h : Gives .expression ts rest n) : Spans (.node n) ts rest := by
  rcases gives_expression h with h | ⟨-, h⟩
  · obtain ⟨params, body, async, mid, arrow, us, rfl, hmark, hparams, harrow, hlt, -, hbody⟩ :=
      gives_arrowFunction h
    obtain ⟨ms, rfl, hflag, hmid⟩ := flagged_of_marked hmark hts
      (b := ⟨.ident, asyncWord⟩) rfl fun t vs hvs ht => by
        have htext := (hasText_eq_true.1 ht).2
        have hcls := hvs.cls_word hcode (by rw [htext]; decide)
        calc t.bare = ⟨t.cls, t.text⟩ := rfl
          _ = ⟨.ident, asyncWord⟩ := by rw [hcls, htext]; rfl
    obtain ⟨ps, rfl, hps⟩ := spans_params hcode hparams hmid
    have hafter := hmid.behind hps
    have hbare := hafter.bare_mark hcode harrow (by decide)
    obtain ⟨vs, rfl, hvs⟩ := hbelow stack us rest body hlt hcode (hafter.behind_mark hbare) hbody
    -- The function starts where its first token does.
    have hstart : startOf (ms ++ (ps ++ arrow :: (vs ++ rest))) = startOf (ms ++ ps) := by
      have hne : ms ++ ps ≠ [] := by cases hps <;> simp
      obtain ⟨t, ws, heq⟩ := List.exists_cons_of_ne_nil hne
      rw [← List.append_assoc, heq]
      rfl
    refine ⟨ms ++ ps ++ arrow :: vs, by simp, ?_⟩
    rw [hstart]
    exact .function hflag hps hbare hvs
  · obtain ⟨mid, x, links, hx, hjoins, rfl⟩ := gives_binaryChain h
    have hlt := hx.length_lt (by decide)
    obtain ⟨hhead, hlinks, -⟩ := fold_spec (isBinary_of_unary hts.sourced hx)
      (isBinary_of_joins hjoins (hx.sourced hts.sourced))
    obtain ⟨us, rfl, hus⟩ := spans_unary hbelow hcode (Nat.le_refl _) hts hx
    obtain ⟨vs, rfl, hvs⟩ := links_of_joins hbelow hcode hjoins (by omega) (hts.behind hus)
    refine ⟨us ++ vs, by simp, written_of_chain _ ?_ ?_⟩
    · rw [hhead]
      exact hus
    · rw [hlinks]
      exact hvs

/-- Expressions are written as the tokens they are read from, whatever their length. -/
theorem writesBelow (k : Nat) : WritesBelow k := by
  induction k with
  | zero => exact fun stack ts rest n hlt => absurd hlt (Nat.not_lt_zero _)
  | succ k ih =>
    intro stack ts rest n hlt hcode hts h
    have hbelow : WritesBelow ts.length := fun stack us vs m hus =>
      ih stack us vs m (Nat.lt_of_lt_of_le hus (Nat.lt_succ_iff.1 hlt))
    exact spans_expression hbelow hcode hts h

theorem spans_statement {stack : List Mode} (hcode : InCode stack) {ts rest : List Token}
    {n : Node} (hts : Staged stack ts) (h : Gives .statement ts rest n) :
    Spans (.node n) ts rest := by
  have hexpression : ∀ {us vs : List Token} {x : Node}, Staged stack us →
      Gives .expression us vs x → Spans (.node x) us vs := fun {us vs x} hus hx =>
    writesBelow (us.length + 1) stack us vs x (Nat.lt_succ_self _) hcode hus hx
  cases gives_statement h with
  | @bareDecl word t heq hkeyword hcls =>
    subst heq
    have hword := hts.cls_word hcode (isName_of_mem_declarationWords hkeyword)
    exact ⟨[word, t], rfl, .bareDecl hword hkeyword hcls⟩
  | @varDecl word t equals us init heq hkeyword hcls hequals hinit =>
    subst heq
    have hword := hts.cls_word hcode (isName_of_mem_declarationWords hkeyword)
    have hafter := (hts.behind_word hword).behind_word hcls
    have hbare := hafter.bare_mark hcode hequals (by decide)
    obtain ⟨vs, rfl, hvs⟩ := hexpression (hafter.behind_mark hbare) hinit
    exact ⟨word :: t :: equals :: vs, rfl, .varDecl hword hkeyword hcls hbare hvs⟩
  | exprStmt _ hx =>
    obtain ⟨us, rfl, hus⟩ := hexpression hts hx
    exact ⟨us, rfl, .exprStmt hus⟩

theorem spans_statements {stack : List Mode} (hcode : InCode stack) {ts rest : List Token}
    {ns : List Node} (h : Statements none ts ns rest) (hts : Staged stack ts) :
    Spans (.body ns) ts rest := by
  induction h with
  | nil => exact ⟨[], rfl, .noBody⟩
  | @semicolon t ts rest ns ht more ih =>
    have hbare := hts.bare_mark hcode ht (by decide)
    obtain ⟨us, rfl, hus⟩ := ih (hts.behind_mark hbare)
    exact ⟨t :: us, rfl, .semicolon hbare hus⟩
  | @cons ts mid rest n ns first more ih =>
    obtain ⟨us, rfl, hus⟩ := spans_statement hcode hts first
    obtain ⟨vs, rfl, hvs⟩ := ih (hts.behind hus)
    exact ⟨us ++ vs, by simp, .statement hus hvs⟩

/-- A token that an expression, a statement or an item of a list may start with. -/
def Opens (t : Token) : Prop :=
  t.cls ∈ [TokenClass.ident, .number, .string] ∨
    t.bare ∈ [⟨.backtick, [96]⟩, ⟨.lbrace, [123]⟩, mark "[", mark "(", mark "..."] ∨
      t.text ∈ unaryOperators.map lit

/-- A node starts with its first token. -/
theorem Written.exists_first {n : Node} {ts : List Token} (h : Written (.node n) ts) :
    ∃ t us, ts = t :: us ∧ n.position = t.pos ∧ Opens t := by
  generalize hph : Phrase.node n = ph at h
  -- A phrase that stands in front lends its first token to the whole.
  have hfront : ∀ {p : Position} {us vs : List Token},
      (∃ t ws, us = t :: ws ∧ p = t.pos ∧ Opens t) →
      ∃ t ws, us ++ vs = t :: ws ∧ p = t.pos ∧ Opens t := by
    rintro p us vs ⟨t, ws, rfl, hpos⟩
    exact ⟨t, ws ++ vs, rfl, hpos⟩
  induction h generalizing n with
  | name hcls | keyword hcls _ | number hcls | string hcls | shorthand hcls | bareDecl hcls _ _
  | varDecl hcls _ _ _ _ _ =>
    cases hph
    exact ⟨_, _, rfl, rfl, .inl (by rw [hcls]; decide)⟩
  | template hfirst _ _ _ | array hfirst _ _ _ | object hfirst _ _ _ | paren hfirst _ _ _
  | computed hfirst _ _ _ _ _ _ | spread hfirst _ _ =>
    cases hph
    exact ⟨_, _, rfl, rfl, .inr (.inl (by rw [hfirst]; decide))⟩
  | unary hop _ _ _ =>
    cases hph
    exact ⟨_, _, rfl, rfl, .inr (.inr hop)⟩
  | property _ _ _ ih _ =>
    cases hph
    obtain ⟨t, us, heq, -, hopens⟩ := ih rfl
    obtain ⟨rfl, -⟩ := List.cons.inj heq
    exact ⟨_, _, rfl, rfl, hopens⟩
  | member _ _ _ ih | binary _ _ _ _ ih _ =>
    cases hph
    have hleft := ih rfl
    exact hfront hleft
  | index _ _ _ _ _ ih _ | call _ _ _ _ _ ih _ =>
    cases hph
    have hleft := ih rfl
    exact hfront (hfront (hfront hleft))
  | exprStmt _ ih =>
    cases hph
    have hx := ih rfl
    exact hx
  -- Without the marker word a function starts with its parameters.
  | @function arrow ms us vs params body async hasync hparams _ _ _ _ =>
    cases hph
    refine hfront ?_
    cases async with
    | true =>
      obtain ⟨t, rfl, ht⟩ := List.map_eq_singleton_iff.1 hasync
      exact ⟨t, us, rfl, rfl, .inl (by rw [cls_of_bare ht]; decide)⟩
    | false =>
      obtain rfl := List.map_eq_nil_iff.1 hasync
      cases hparams with
      | param hcls => exact ⟨_, _, rfl, rfl, .inl (by rw [hcls]; decide)⟩
      | params hfirst _ _ =>
        exact ⟨_, _, rfl, rfl, .inr (.inl (by rw [hfirst]; decide))⟩
  | _ => cases hph

/-- The end of the input is no part of a phrase. -/
theorem Written.cls_ne_eof {ph : Phrase} {ts : List Token} (h : Written ph ts) :
    ∀ t ∈ ts, t.cls ≠ .eof := by
  have hmark : ∀ {t : Token} {s : String}, t.bare = mark s → t.cls ≠ .eof := fun ht => by
    simp [cls_of_bare ht, mark]
  have hsign : ∀ {t : Token}, t.bare = sign t.text → t.cls ≠ .eof := fun ht => by
    rw [cls_of_bare ht, sign]
    split <;> simp
  have hflag : ∀ {b : BareToken} {flag : Bool} {ms : List Token}, Flagged b flag ms →
      b.cls ≠ .eof → ∀ t ∈ ms, t.cls ≠ .eof := by
    intro b flag ms hms hb t ht
    have hmem : t.bare ∈ ms.map Token.bare := List.mem_map_of_mem ht
    rw [hms] at hmem
    cases flag with
    | false => simp at hmem
    | true =>
      rw [cls_of_bare (List.mem_singleton.1 hmem)]
      exact hb
  induction h with
  | _ => grind [Token.bare, mark]

/-- Where the grammar is done with a source, no token but the end is left. -/
theorem rest_of_atEnd {file src : Text} {us rest : List Token}
    (h : tokens file src = .ok (us ++ rest)) (hend : AtEnd rest) :
    rest = [] ∨ ∃ last, rest = [last] ∧ last.bare = endToken := by
  obtain ⟨vs, last, hsplit, hlast, hothers⟩ := end_of_tokens h
  rcases List.eq_nil_or_concat rest with rfl | ⟨front, x, rfl⟩
  · exact .inl rfl
  · rw [List.concat_eq_append, ← List.append_assoc] at hsplit
    obtain ⟨hfront, hx⟩ := List.append_inj' hsplit rfl
    obtain rfl := (List.cons.inj hx).1
    cases front with
    | nil => exact .inr ⟨x, rfl, hlast⟩
    | cons r front =>
      have hr : r.cls = .eof := by rwa [List.concat_eq_append] at hend
      exact absurd hr (hothers r (by rw [← hfront]; simp))

theorem staged_of_tokens {file src : Text} {ts : List Token} (h : tokens file src = .ok ts) :
    Staged [] ts := ⟨linked_of_tokens h, modal_of_tokens h⟩

/-- Statements that are read up to the end of a source are written as the tokens in front of it. -/
theorem written_of_statements {file src : Text} {ts rest : List Token} {body : List Node}
    (hts : tokens file src = .ok ts) (hbody : Statements none ts body rest) (hend : AtEnd rest) :
    ∃ us last, ts = us ++ [last] ∧ rest = [last] ∧ last.bare = endToken ∧
      Written (.body body) us := by
  obtain ⟨us, rfl, hus⟩ := spans_statements inCode_nil hbody (staged_of_tokens hts)
  rcases rest_of_atEnd hts hend with rfl | ⟨last, rfl, hlast⟩
  · obtain ⟨vs, last, hsplit, hlast, -⟩ := end_of_tokens hts
    have hmem : last ∈ us := by
      rw [List.append_nil] at hsplit
      rw [hsplit]
      simp
    exact absurd (cls_of_bare hlast) (hus.cls_ne_eof last hmem)
  · exact ⟨us, last, rfl, rfl, hlast, hus⟩

/-- The statements of a source are read up to its end, and written as the tokens in front of it. -/
theorem statements_of_parse {file src : Text} {t : Node} (h : parse file src = .ok t) :
    ∃ ts last body, tokens file src = .ok (ts ++ [last]) ∧ last.bare = endToken ∧
      t = .program (startOf (ts ++ [last])) body ∧ Statements none (ts ++ [last]) body [last] ∧
      Written (.body body) ts := by
  obtain ⟨ts, rest, hts, hgives, hend⟩ := gives_of_parse h
  obtain ⟨body, rfl, hbody⟩ := gives_program hgives
  obtain ⟨us, last, rfl, rfl, hlast, hus⟩ := written_of_statements hts hbody hend
  exact ⟨us, last, body, hts, hlast, rfl, hbody, hus⟩

/-- The tree of a source is written as all its tokens up to the end. -/
theorem written_of_parse {file src : Text} {t : Node} (h : parse file src = .ok t) :
    ∃ ts last body, tokens file src = .ok (ts ++ [last]) ∧ last.bare = endToken ∧
      t = .program (startOf (ts ++ [last])) body ∧ Written (.body body) ts := by
  obtain ⟨ts, last, body, hts, hlast, ht, -, hbody⟩ := statements_of_parse h
  exact ⟨ts, last, body, hts, hlast, ht, hbody⟩

end CubeSchema
