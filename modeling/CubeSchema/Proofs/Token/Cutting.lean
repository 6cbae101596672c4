import CubeSchema.Grammar
import CubeSchema.Proofs.Token.Lexing

/-!
# Cutting tokens off a printed text

One rule for each kind of token that printing writes: when the token stands in front of a text that
is cut into tokens, the whole is cut into the token and those. What has to be known of the text
behind the token is only its first byte, because a printed token never runs into the next one.
-/

namespace CubeSchema.Lexer

open Lexeme

/-- The modes in which code is read, and not the characters of a template. -/
def InCode (stack : List Mode) : Prop := stack.head? ≠ some .template

theorem inCode_nil : InCode [] := by simp [InCode]

theorem inCode_block (stack : List Mode) : InCode (.block :: stack) := by simp [InCode]

theorem inCode_interpolation (stack : List Mode) : InCode (.interpolation :: stack) := by
  simp [InCode]

/-- In code, all text but a closing brace is read by the same rules. -/
theorem firstRule?_code {stack : List Mode} (h : InCode stack) {b : UInt8} (hb : b ≠ 125)
    (t : Text) : firstRule? (rulesAt stack) (b :: t) = firstRule? codeRules (b :: t) := by
  have hclose : exactly (lit "\x7d") (b :: t) = 0 := by
    rw [show lit "\x7d" = [125] from rfl, exactly_single]
    simp [hb]
  match stack, h with
  | [], _ => rfl
  | .block :: _, _ => simp [rulesAt, blockRules, firstRule?, hclose]
  | .interpolation :: _, _ => simp [rulesAt, interpolationRules, firstRule?, hclose]
  | .template :: _, h => simp [InCode] at h

/-- A token in front of a text, by the rule that reaches just over it. -/
theorem Lexes.cons (rule : LexRule) {stack : List Mode} {t rest : Text} {bs : List BareToken}
    (first : firstRule? (rulesAt stack) (t ++ rest) = some rule)
    (reach : rule.reach (t ++ rest) = t.length) (kept : rule.cls.isDropped = false)
    (more : Lexes (StackEffect.apply rule.effect stack) rest bs) :
    Lexes stack (t ++ rest) (⟨rule.cls, t⟩ :: bs) := by
  have hcut : Lexes stack (t ++ rest)
      (⟨rule.cls, (t ++ rest).take (rule.reach (t ++ rest))⟩ :: bs) :=
    .keep first kept (by rw [reach, List.drop_left]; exact more)
  rwa [reach, List.take_left] at hcut

/-! ## Blanks -/

theorem firstRule?_blank {b : UInt8} (hb : isBlank b = true) (t : Text) :
    firstRule? codeRules (b :: t) = some { cls := .whitespace, reach := blanks } := by
  have hb : b = 9 ∨ b = 10 ∨ b = 12 ∨ b = 13 ∨ b = 32 := by simpa [isBlank, or_assoc] using hb
  rcases hb with rfl | rfl | rfl | rfl | rfl <;> rfl

theorem firstRule?_blank_code {stack : List Mode} (hcode : InCode stack) {b : UInt8}
    (hb : isBlank b = true) (t : Text) :
    firstRule? (rulesAt stack) (b :: t) = some { cls := .whitespace, reach := blanks } := by
  have hne : b ≠ 125 := by
    rintro rfl
    exact absurd hb (by decide)
  rw [firstRule?_code hcode hne, firstRule?_blank hb]

/-- A blank in front of a text does not change its tokens. -/
theorem Lexes.blank {stack : List Mode} (hstack : InCode stack) {b : UInt8} (hb : isBlank b = true)
    {t : Text} {bs : List BareToken} (h : Lexes stack t bs) : Lexes stack (b :: t) bs := by
  have hreach : blanks (b :: t) = 1 + blanks t := by
    simp [blanks, run, hb, Nat.add_comm]
  refine .drop (firstRule?_blank_code hstack hb t) rfl ?_
  show Lexes stack ((b :: t).drop (blanks (b :: t))) bs
  rw [hreach, Nat.add_comm, List.drop_succ_cons]
  -- The blanks that follow belong to the same token.
  cases t with
  | nil => exact h
  | cons c t =>
    cases hc : isBlank c with
    | false => simpa [blanks, run, hc] using h
    | true =>
      have hrule := firstRule?_blank_code hstack hc t
      cases h with
      | drop first dropped more =>
        obtain rfl := Option.some.inj (hrule.symm.trans first)
        exact more
      | keep first kept more =>
        obtain rfl := Option.some.inj (hrule.symm.trans first)
        simp [TokenClass.isDropped] at kept

/-- Spaces in front of a text do not change its tokens. -/
theorem Lexes.spaces {stack : List Mode} (hstack : InCode stack) (n : Nat) {t : Text}
    {bs : List BareToken} (h : Lexes stack t bs) : Lexes stack (Text.spaces n ++ t) bs := by
  induction n with
  | zero => exact h
  | succ n ih => exact Lexes.blank hstack (by decide) ih

/-! ## Names, numbers and strings -/

/-- A byte that starts neither a comment nor a blank nor a template. -/
theorem firstRule?_plain {b : UInt8} {t : Text} (h47 : b ≠ 47) (hblank : isBlank b = false)
    (h96 : b ≠ 96) :
    firstRule? codeRules (b :: t) = firstRule? (codeRules.drop 3) (b :: t) := by
  have hcomment : comment (b :: t) = 0 := by
    unfold comment
    split
    · rename_i h; exact absurd (List.cons.inj h).1 h47
    · rename_i h; exact absurd (List.cons.inj h).1 h47
    · rfl
  have hblanks : blanks (b :: t) = 0 := by simp [blanks, run, hblank]
  have htick : exactly (lit "`") (b :: t) = 0 := by
    rw [show lit "`" = [96] from rfl, exactly_single]
    simp [h96]
  simp [firstRule?, codeRules, hcomment, hblanks, htick]

/-- What the first byte of a name is not. -/
theorem isNameStart_facts {b : UInt8} (h : isNameStart b = true) :
    b ≠ 47 ∧ isBlank b = false ∧ b ≠ 96 ∧ b ≠ 34 ∧ b ≠ 39 ∧ Text.isDigit b = false ∧ b ≠ 46 ∧
      b ≠ 125 := by
  let p (b : UInt8) : Bool := !isNameStart b ||
    (b ≠ 47 && !isBlank b && b ≠ 96 && b ≠ 34 && b ≠ 39 && !Text.isDigit b && b ≠ 46 && b ≠ 125)
  have hall : p b = true := forall_byte (by decide +kernel) b
  simpa [p, h, and_assoc] using hall

/-- What the first byte of a number is not. -/
theorem numberHead_facts {b : UInt8} (h : Text.isDigit b = true ∨ b = 46) :
    b ≠ 47 ∧ isBlank b = false ∧ b ≠ 96 ∧ b ≠ 34 ∧ b ≠ 39 ∧ b ≠ 125 := by
  let p (b : UInt8) : Bool := !(Text.isDigit b || b = 46) ||
    (b ≠ 47 && !isBlank b && b ≠ 96 && b ≠ 34 && b ≠ 39 && b ≠ 125)
  have hall : p b = true := forall_byte (by decide +kernel) b
  rcases h with h | h <;> simpa [p, h, and_assoc] using hall

/-- A name in front of a byte that cannot continue it. -/
theorem Lexes.name {stack : List Mode} (hstack : InCode stack) {t rest : Text}
    {bs : List BareToken} (ht : IsName t) (hrest : HeadNot isNamePart rest)
    (h : Lexes stack rest bs) : Lexes stack (t ++ rest) (⟨.ident, t⟩ :: bs) := by
  have hreach := ht.ident_append hrest
  obtain ⟨b, u, rfl, hb⟩ := ht.head
  obtain ⟨h47, hblank, h96, h34, h39, hdigit, h46, h125⟩ := isNameStart_facts hb
  refine Lexes.cons { cls := .ident, reach := ident } ?_ hreach rfl h
  have hnumber : number (b :: (u ++ rest)) = 0 := number_cons_eq_zero hdigit h46 _
  have hstring : string (b :: (u ++ rest)) = 0 := by simp [string, h34, h39]
  rw [List.cons_append] at hreach ⊢
  rw [firstRule?_code hstack h125, firstRule?_plain h47 hblank h96]
  simp [firstRule?, codeRules, hnumber, hstring, hreach]

/-- A number in front of a byte that may stand behind one. -/
theorem Lexes.number {stack : List Mode} (hstack : InCode stack) {t rest : Text}
    {bs : List BareToken} (ht : IsNumber t) (hrest : Stopped rest)
    (hpoint : rest.head? = some 46 → isWhole t = false) (h : Lexes stack rest bs) :
    Lexes stack (t ++ rest) (⟨.number, t⟩ :: bs) := by
  have hreach := ht.number_append hrest hpoint
  obtain ⟨b, u, rfl, hb⟩ := ht.head
  obtain ⟨h47, hblank, h96, h34, h39, h125⟩ := numberHead_facts hb
  refine Lexes.cons { cls := .number, reach := Lexeme.number } ?_ hreach rfl h
  have hstring : string (b :: (u ++ rest)) = 0 := by simp [string, h34, h39]
  rw [List.cons_append] at hreach ⊢
  rw [firstRule?_code hstack h125, firstRule?_plain h47 hblank h96]
  simp [firstRule?, codeRules, hstring, hreach]

/-- A string in front of any text. -/
theorem Lexes.string {stack : List Mode} (hstack : InCode stack) {t rest : Text}
    {bs : List BareToken} (ht : IsString t) (h : Lexes stack rest bs) :
    Lexes stack (t ++ rest) (⟨.string, t⟩ :: bs) := by
  have hreach := ht.string_append rest
  obtain ⟨b, u, rfl, hb⟩ := ht.head
  refine Lexes.cons { cls := .string, reach := Lexeme.string } ?_ hreach rfl h
  have h47 : b ≠ 47 := by rcases hb with rfl | rfl <;> decide
  have h96 : b ≠ 96 := by rcases hb with rfl | rfl <;> decide
  have h125 : b ≠ 125 := by rcases hb with rfl | rfl <;> decide
  have hblank : isBlank b = false := by rcases hb with rfl | rfl <;> decide
  rw [List.cons_append] at hreach ⊢
  rw [firstRule?_code hstack h125, firstRule?_plain h47 hblank h96]
  simp [firstRule?, codeRules, hreach]

/-! ## Marks and operators -/

/-- The token of a mark or an operator; an operator that is a word is a name. -/
def sign (t : Text) : BareToken := ⟨if t.head?.any isNameStart then .ident else .punct, t⟩

/-- A mark in front of a text that does not lengthen it. -/
theorem Lexes.mark {stack : List Mode} (hstack : InCode stack) {b : UInt8} {t rest : Text}
    {bs : List BareToken} (hb : b ≠ 125)
    (hfirst : firstRule? codeRules (b :: t ++ rest) = some { cls := .punct, reach := punct })
    (hreach : punct (b :: t ++ rest) = (b :: t).length) (h : Lexes stack rest bs) :
    Lexes stack (b :: t ++ rest) (⟨.punct, b :: t⟩ :: bs) := by
  refine Lexes.cons { cls := .punct, reach := punct } ?_ hreach rfl h
  rw [← hfirst, List.cons_append, firstRule?_code hstack hb]

/-- A point in front of a name is a mark and starts no number. -/
theorem Lexes.point {stack : List Mode} (hstack : InCode stack) {b : UInt8} {t : Text}
    {bs : List BareToken} (hb : isNameStart b = true) (h : Lexes stack (b :: t) bs) :
    Lexes stack (46 :: b :: t) (⟨.punct, [46]⟩ :: bs) := by
  obtain ⟨-, -, -, -, -, hdigit, h46, -⟩ := isNameStart_facts hb
  have hnumber : Lexeme.number (46 :: b :: t) = 0 := by
    have hdec : decimal (46 :: b :: t) = 0 := by
      rw [decimal_cons, if_neg (by decide)]
      simp [run, hdigit]
    have hbody : numberBody (46 :: b :: t) = 0 := by
      simp [numberBody, firstMatch, based_cons, scientific_eq, hdec]
    rw [number_eq, if_pos hbody]
  have hpunct : punct (46 :: b :: t) = 1 := by
    have h46' : (46 : UInt8) ≠ b := fun h => h46 h.symm
    have hdots : Text.startsWith (46 :: b :: t) (lit "...") = false := by
      rw [show lit "..." = [46, 46, 46] from rfl]
      simp [Text.startsWith, List.isPrefixOf, h46']
    simp only [punct, marks, List.map_cons, firstOf, hdots]
    rfl
  refine Lexes.mark hstack (t := []) (by decide) ?_ hpunct h
  rw [List.cons_append, List.nil_append, firstRule?_plain (by decide) (by decide) (by decide)]
  have hstring : Lexeme.string (46 :: b :: t) = 0 := rfl
  have hident : ident (46 :: b :: t) = 0 := rfl
  have hbrace : exactly (lit "\x7b") (46 :: b :: t) = 0 := rfl
  simp [firstRule?, codeRules, hstring, hnumber, hident, hbrace, hpunct]

/-- A binary operator with a space on each side. -/
theorem Lexes.binary {stack : List Mode} (hstack : InCode stack) {op t : Text}
    {bs : List BareToken} (hop : op ∈ binaryOperators.map lit) (h : Lexes stack t bs) :
    Lexes stack (lit " " ++ op ++ lit " " ++ t) (sign op :: bs) := by
  have hspace := Lexes.blank hstack (b := 32) rfl h
  have hhead : HeadNot isNamePart (32 :: t) := by
    intro b hb
    obtain rfl : (32 : UInt8) = b := by simpa using hb
    rfl
  rw [List.append_assoc, List.append_assoc]
  refine Lexes.blank hstack rfl ?_
  simp only [binaryOperators, List.map_cons, List.map_nil, List.mem_cons, List.not_mem_nil,
    or_false] at hop
  rcases hop with rfl | rfl | rfl | rfl | rfl | rfl | rfl | rfl | rfl | rfl | rfl | rfl | rfl |
    rfl | rfl | rfl | rfl | rfl | rfl | rfl | rfl | rfl | rfl | rfl | rfl
  -- The last two operators are words.
  all_goals first
    | exact Lexes.mark hstack (by decide) rfl rfl hspace
    | exact Lexes.name hstack ⟨by decide, by decide⟩ hhead hspace

/-- A unary operator that is a mark, in front of a byte that does not lengthen it. -/
theorem Lexes.unaryMark {stack : List Mode} (hstack : InCode stack) {op t : Text}
    {bs : List BareToken} (hop : op ∈ ["!", "-", "+", "~"].map lit)
    (ht : t.head? ≠ some 61) (h : Lexes stack t bs) : Lexes stack (op ++ t) (sign op :: bs) := by
  simp only [List.map_cons, List.map_nil, List.mem_cons, List.not_mem_nil, or_false] at hop
  rcases hop with rfl | rfl | rfl | rfl
  · -- The exclamation mark is the only one of the four that an equals sign makes longer.
    have hnot : ∀ m, Text.startsWith (33 :: t) (33 :: 61 :: m) = false := by
      intro m
      cases t with
      | nil => rfl
      | cons c t =>
        have hc : (61 : UInt8) ≠ c := fun hc => ht (by simp [hc])
        simp [Text.startsWith, List.isPrefixOf, hc]
    have hpunct : punct (33 :: t) = 1 := by
      have h3 : Text.startsWith (33 :: t) (lit "!==") = false := hnot _
      have h2 : Text.startsWith (33 :: t) (lit "!=") = false := hnot _
      simp only [punct, marks, List.map_cons, firstOf, h3, h2]
      rfl
    refine Lexes.mark hstack (t := []) (by decide) ?_ hpunct h
    rw [List.cons_append, List.nil_append, firstRule?_plain (by decide) (by decide) (by decide)]
    have hstring : Lexeme.string (33 :: t) = 0 := rfl
    have hnumber : Lexeme.number (33 :: t) = 0 := number_cons_eq_zero (by decide) (by decide) t
    have hident : ident (33 :: t) = 0 := rfl
    have hbrace : exactly (lit "\x7b") (33 :: t) = 0 := rfl
    simp [firstRule?, codeRules, hstring, hnumber, hident, hbrace, hpunct]
  · exact Lexes.mark hstack (by decide) rfl rfl h
  · exact Lexes.mark hstack (by decide) rfl rfl h
  · exact Lexes.mark hstack (by decide) rfl rfl h

/-! ## Braces and templates -/

/-- An opening brace enters a block. -/
theorem Lexes.openBrace {stack : List Mode} (hstack : InCode stack) {t : Text}
    {bs : List BareToken} (h : Lexes (.block :: stack) t bs) :
    Lexes stack (123 :: t) (⟨.lbrace, [123]⟩ :: bs) := by
  refine Lexes.cons (t := [123]) ⟨.lbrace, exactly (lit "\x7b"), .enter .block⟩ ?_ rfl rfl h
  rw [List.cons_append, firstRule?_code hstack (by decide)]
  rfl

/-- A closing brace leaves a block. -/
theorem Lexes.closeBrace {stack : List Mode} {t : Text} {bs : List BareToken}
    (h : Lexes stack t bs) : Lexes (.block :: stack) (125 :: t) (⟨.rbrace, [125]⟩ :: bs) :=
  Lexes.cons (t := [125]) ⟨.rbrace, exactly (lit "\x7d"), .leave⟩ rfl rfl rfl h

/-- A backtick enters a template. -/
theorem Lexes.openTemplate {stack : List Mode} (hstack : InCode stack) {t : Text}
    {bs : List BareToken} (h : Lexes (.template :: stack) t bs) :
    Lexes stack (96 :: t) (⟨.backtick, [96]⟩ :: bs) := by
  refine Lexes.cons (t := [96]) ⟨.backtick, exactly (lit "`"), .enter .template⟩ ?_ rfl rfl h
  rw [List.cons_append, firstRule?_code hstack (by decide)]
  rfl

/-- A backtick leaves a template. -/
theorem Lexes.closeTemplate {stack : List Mode} {t : Text} {bs : List BareToken}
    (h : Lexes stack t bs) : Lexes (.template :: stack) (96 :: t) (⟨.templateEnd, [96]⟩ :: bs) :=
  Lexes.cons (t := [96]) ⟨.templateEnd, exactly (lit "`"), .leave⟩ rfl rfl rfl h

/-- A dollar sign with an opening brace enters an interpolation. -/
theorem Lexes.openInterpolation {stack : List Mode} {t : Text} {bs : List BareToken}
    (h : Lexes (.interpolation :: .template :: stack) t bs) :
    Lexes (.template :: stack) (36 :: 123 :: t) (⟨.exprStart, [36, 123]⟩ :: bs) :=
  Lexes.cons (t := [36, 123]) ⟨.exprStart, exactly (lit "$\x7b"), .enter .interpolation⟩ rfl rfl
    rfl h

/-- A closing brace leaves an interpolation. -/
theorem Lexes.closeInterpolation {stack : List Mode} {t : Text} {bs : List BareToken}
    (h : Lexes stack t bs) :
    Lexes (.interpolation :: stack) (125 :: t) (⟨.exprEnd, [125]⟩ :: bs) :=
  Lexes.cons (t := [125]) ⟨.exprEnd, exactly (lit "\x7d"), .leave⟩ rfl rfl rfl h

/-- The tokens of a chunk: runs of characters and single dollar signs. -/
def cutChunk : Nat → Text → List BareToken
  | 0, _ => []
  | _ + 1, [] => []
  | fuel + 1, b :: u =>
    let n := templateChars (b :: u ++ [96])
    if n = 0 then ⟨.dollar, [36]⟩ :: cutChunk fuel u
    else ⟨.templateChars, (b :: u).take n⟩ :: cutChunk fuel ((b :: u).drop n)

/-- The tokens of a chunk. -/
def chunkTokens (raw : Text) : List BareToken := cutChunk raw.length raw

/-- Inside a template, neither of the two rules that end a chunk matches at the front of one. -/
theorem firstRule?_chunk {b : UInt8} {u rest : Text} (hraw : isChunk (b :: u) = true)
    (hrest : EndsChunk rest) : firstRule? templateRules (b :: u ++ rest) =
      firstRule? (templateRules.drop 2) (b :: u ++ rest) := by
  have h96 : b ≠ 96 := by
    rintro rfl
    cases u <;> simp [isChunk] at hraw
  have htick : exactly (lit "`") (b :: (u ++ rest)) = 0 := by
    rw [show lit "`" = [96] from rfl, exactly_single]
    simp [h96]
  have hstart : exactly (lit "$\x7b") (b :: (u ++ rest)) = 0 := by
    -- A dollar sign with a brace behind it would have ended the chunk.
    have hnot : ¬ (b = 36 ∧ (u ++ rest).head? = some 123) := by
      rintro ⟨rfl, hhead⟩
      cases u with
      | nil => rcases hrest with ⟨r, rfl⟩ | ⟨r, rfl⟩ <;> simp at hhead
      | cons c u =>
        obtain rfl : c = 123 := by simpa using hhead
        simp [isChunk] at hraw
    rw [show lit "$\x7b" = [36, 123] from rfl]
    cases hback : u ++ rest with
    | nil => simp [exactly, Text.startsWith, List.isPrefixOf]
    | cons c r =>
      rw [hback, List.head?_cons, Option.some.injEq] at hnot
      have hpair : ¬ (36 = b ∧ 123 = c) := fun h => hnot ⟨h.1.symm, h.2.symm⟩
      simp [exactly, Text.startsWith, List.isPrefixOf, hpair]
  rw [List.cons_append]
  simp [firstRule?, templateRules, htick, hstart]

/-- A chunk is cut into its tokens in front of what ends it. -/
theorem Lexes.chunk {stack : List Mode} {raw rest : Text} {bs : List BareToken}
    (hraw : isChunk raw = true) (hrest : EndsChunk rest) (h : Lexes (.template :: stack) rest bs) :
    Lexes (.template :: stack) (raw ++ rest) (chunkTokens raw ++ bs) := by
  -- The chunk is cut as if a backtick followed, and it ends in the same way in front of `rest`.
  have hcut : ∀ fuel raw, raw.length ≤ fuel → isChunk raw = true →
      Lexes (.template :: stack) (raw ++ rest) (cutChunk fuel raw ++ bs) := by
    intro fuel
    induction fuel with
    | zero =>
      intro raw hlen _
      obtain rfl : raw = [] := List.eq_nil_of_length_eq_zero (by omega)
      exact h
    | succ fuel ih =>
      intro raw hlen hraw
      cases raw with
      | nil => exact h
      | cons b u =>
        rw [List.length_cons] at hlen
        have hends : EndsChunk [96] := .inl ⟨[], rfl⟩
        have hsame := templateChars_ends hraw hrest hends
        obtain ⟨hle, hdrop⟩ := templateChars_chunk hraw hends
        rw [List.length_cons] at hle
        have hfirst := firstRule?_chunk hraw hrest
        simp only [cutChunk]
        split
        · rename_i h0
          obtain ⟨rfl, hu⟩ := dollar_of_templateChars_eq_zero hraw h0
          refine Lexes.cons (t := [36]) ⟨.dollar, exactly (lit "$"), .keep⟩ ?_ rfl rfl
            (ih u (by omega) hu)
          show firstRule? templateRules (36 :: u ++ rest) = _
          rw [hfirst]
          have hzero : templateChars (36 :: u ++ rest) = 0 := by rw [hsame, h0]
          rw [List.cons_append] at hzero ⊢
          have hone : exactly (lit "$") (36 :: (u ++ rest)) = 1 := rfl
          simp [firstRule?, templateRules, hzero, hone]
        · rename_i h0
          generalize hn : templateChars (b :: u ++ [96]) = n at h0 hsame hdrop hle
          have hback := ih ((b :: u).drop n) (by rw [List.length_drop, List.length_cons]; omega)
            hdrop
          have hsplit : b :: u ++ rest = (b :: u).take n ++ ((b :: u).drop n ++ rest) := by
            rw [← List.append_assoc, List.take_append_drop]
          rw [hsplit] at hsame hfirst ⊢
          refine Lexes.cons ⟨.templateChars, templateChars, .keep⟩ ?_ ?_ rfl hback
          · rw [rulesAt, hfirst]
            simp [firstRule?, templateRules, hsame, h0]
          · rw [List.length_take, List.length_cons, Nat.min_eq_left hle]
            exact hsame
  exact hcut raw.length raw (Nat.le_refl _) hraw

/-- The tokens of a chunk are characters and dollar signs, and they spell it. -/
theorem chunkTokens_spec {raw : Text} (hraw : isChunk raw = true) :
    (∀ t ∈ chunkTokens raw, t.cls = .templateChars ∨ t.cls = .dollar) ∧
      (chunkTokens raw).flatMap BareToken.text = raw := by
  have hcut : ∀ fuel raw, raw.length ≤ fuel → isChunk raw = true →
      (∀ t ∈ cutChunk fuel raw, t.cls = .templateChars ∨ t.cls = .dollar) ∧
        (cutChunk fuel raw).flatMap BareToken.text = raw := by
    intro fuel
    induction fuel with
    | zero =>
      intro raw hlen _
      obtain rfl : raw = [] := List.eq_nil_of_length_eq_zero (by omega)
      exact ⟨by simp [cutChunk], rfl⟩
    | succ fuel ih =>
      intro raw hlen hraw
      cases raw with
      | nil => exact ⟨by simp [cutChunk], rfl⟩
      | cons b u =>
        rw [List.length_cons] at hlen
        -- Any end of a chunk may stand behind it, for instance a backtick.
        have hends : EndsChunk [96] := .inl ⟨[], rfl⟩
        obtain ⟨hle, hdrop⟩ := templateChars_chunk hraw hends
        simp only [cutChunk]
        split
        · rename_i h0
          -- No characters: the chunk starts with a dollar sign that is a token by itself.
          obtain ⟨rfl, hu⟩ := dollar_of_templateChars_eq_zero hraw h0
          obtain ⟨hcls, htext⟩ := ih u (by omega) hu
          refine ⟨?_, by simp [htext]⟩
          intro t ht
          rcases List.mem_cons.1 ht with rfl | ht
          · exact .inr rfl
          · exact hcls t ht
        · rename_i h0
          obtain ⟨hcls, htext⟩ := ih _ (by rw [List.length_drop, List.length_cons]; omega) hdrop
          refine ⟨?_, ?_⟩
          · intro t ht
            rcases List.mem_cons.1 ht with rfl | ht
            · exact .inl rfl
            · exact hcls t ht
          · rw [List.flatMap_cons, htext, List.take_append_drop]
  exact hcut raw.length raw (Nat.le_refl _) hraw

end CubeSchema.Lexer
