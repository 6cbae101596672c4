import CubeSchema.Proofs.Token.Cutting

/-!
# Tokens of a source

What is known about the tokens that a source is cut into. The text of each is a lexeme of its class,
and two tokens in a row tell on each other: the tokens of a template come only behind a token that
enters a template or goes on in one, and a dollar sign by itself is not followed by a brace.
`Linked` holds of every token list that comes from a source, and of every end of one.
-/

namespace CubeSchema

open Lexeme

/-- The classes of tokens inside a template. -/
def templateClasses : List TokenClass := [.templateEnd, .exprStart, .templateChars, .dollar]

/-- The classes of tokens behind which a template begins or goes on. -/
def templateOpeners : List TokenClass := [.backtick, .exprEnd, .templateChars, .dollar]

/-- The text of a token is a lexeme of its class. -/
def BareToken.IsSound (b : BareToken) : Prop :=
  match b.cls with
  | .ident => IsName b.text
  | .number => IsNumber b.text
  | .string => IsString b.text
  | .punct => b.text ∈ marks
  | .backtick | .templateEnd => b.text = [96]
  | .lbrace => b.text = [123]
  | .rbrace | .exprEnd => b.text = [125]
  | .exprStart => b.text = [36, 123]
  | .dollar => b.text = [36]
  | .templateChars => b.text ≠ [] ∧ ∀ w, isChunk (b.text ++ w) = isChunk w
  | .eof => b.text = []
  | .comment | .whitespace => False

/-- What a token tells about the next one. -/
structure Adjacent (a b : BareToken) : Prop where
  /-- A template is entered only behind its opening mark or an interpolation. -/
  code : a.cls ∉ templateOpeners → b.cls ∉ templateClasses
  /-- A dollar sign by itself does not start an interpolation. -/
  dollar : a.cls = .dollar → b.text.head? ≠ some 123

/-- All tokens of a list are lexemes, and each tells about the next one. -/
inductive Linked : List BareToken → Prop
  | nil : Linked []
  | cons {b : BareToken} {bs : List BareToken} (sound : b.IsSound)
      (next : ∀ c ∈ bs.head?, Adjacent b c) (more : Linked bs) : Linked (b :: bs)

theorem Linked.right {as bs : List BareToken} (h : Linked (as ++ bs)) : Linked bs := by
  induction as with
  | nil => exact h
  | cons a as ih =>
    cases h with
    | cons _ _ more => exact ih more

theorem Linked.isSound {bs : List BareToken} (h : Linked bs) : ∀ b ∈ bs, b.IsSound := by
  induction h with
  | nil => exact fun b hb => absurd hb List.not_mem_nil
  | cons sound _ _ ih => exact List.forall_mem_cons.2 ⟨sound, ih⟩

/-! ## Lexemes of a rule -/

namespace Lexeme

theorem take_exactly {p t : Text} (h : exactly p t ≠ 0) : t.take (exactly p t) = p := by
  unfold exactly at h ⊢
  split
  · rename_i hp
    exact List.prefix_iff_eq_take.1 (List.isPrefixOf_iff_prefix.1 hp) ▸ rfl
  · rename_i hp
    rw [if_neg hp] at h
    exact absurd rfl h

theorem take_firstOf {ps : List Text} {t : Text} (h : firstOf ps t ≠ 0) :
    t.take (firstOf ps t) ∈ ps := by
  induction ps with
  | nil => exact absurd rfl h
  | cons p ps ih =>
    unfold firstOf at h ⊢
    split
    · rename_i hp
      rw [← List.prefix_iff_eq_take.1 (List.isPrefixOf_iff_prefix.1 hp)]
      exact List.mem_cons_self ..
    · rename_i hp
      rw [if_neg hp] at h
      exact List.mem_cons_of_mem _ (ih h)

/-- What a matcher takes, with the rest, for a matcher that stays within the text. -/
theorem take_append_eq {m : Matcher} {t : Text} (hle : m t ≤ t.length) (h : m t ≠ 0) :
    t.take (m t) ≠ [] ∧ m (t.take (m t) ++ t.drop (m t)) = (t.take (m t)).length := by
  rw [List.take_append_drop, List.length_take_of_le hle]
  refine ⟨fun hnil => ?_, rfl⟩
  have hlength := congrArg List.length hnil
  rw [List.length_take_of_le hle, List.length_nil] at hlength
  exact h hlength

theorem quoteEnd?_le_length {q : UInt8} {t : Text} {n : Nat} (h : quoteEnd? q t = some n) :
    n ≤ t.length := by
  fun_induction quoteEnd? q t generalizing n with
  | case1 => simp at h
  | case2 => simp_all
  | case3 => simp at h
  | case4 => simp_all
  | case5 c rest _ ih =>
    obtain ⟨k, hk, rfl⟩ := Option.map_eq_some_iff.1 h
    have := ih hk
    simp only [List.length_cons]
    omega
  | case6 => simp at h
  | case7 b c rest _ _ _ ih =>
    obtain ⟨k, hk, rfl⟩ := Option.map_eq_some_iff.1 h
    have := ih hk
    simp only [List.length_cons] at this ⊢
    omega

theorem string_le_length (t : Text) : string t ≤ t.length := by
  cases t with
  | nil => exact Nat.le_refl _
  | cons b t =>
    rw [string]
    split
    · cases hend : quoteEnd? b t with
      | none => exact Nat.zero_le _
      | some n => simpa using quoteEnd?_le_length hend
    · exact Nat.zero_le _

theorem based_le_length (mark : Char) (isPart : UInt8 → Bool) (t : Text) :
    based mark isPart t ≤ t.length := by
  unfold based
  split
  · rename_i m rest
    have := run_le_length isPart rest
    simp only [List.length_cons]
    split
    · split <;> omega
    · omega
  · exact Nat.zero_le _

theorem firstMatch_le_length {ms : List Matcher} (h : ∀ m ∈ ms, ∀ t, m t ≤ t.length) (t : Text) :
    firstMatch ms t ≤ t.length := by
  induction ms with
  | nil => exact Nat.zero_le _
  | cons m ms ih =>
    unfold firstMatch
    split
    · exact ih fun k hk => h k (List.mem_cons_of_mem _ hk)
    · exact h m (List.mem_cons_self ..) t

theorem numberBody_le_length (t : Text) : numberBody t ≤ t.length := by
  refine firstMatch_le_length (fun m hm t => ?_) t
  simp only [List.mem_cons, List.not_mem_nil, or_false] at hm
  rcases hm with rfl | rfl | rfl | rfl
  · exact based_le_length _ _ t
  · exact based_le_length _ _ t
  · exact based_le_length _ _ t
  · exact scientific_le_length t

theorem number_le_length (t : Text) : number t ≤ t.length := by
  have hbody := numberBody_le_length t
  rw [number_eq]
  split
  · exact Nat.zero_le _
  · split
    · rename_i hhead
      have : t.drop (numberBody t) ≠ [] := by
        intro hnil
        simp [hnil] at hhead
      have := List.length_pos_iff.2 this
      rw [List.length_drop] at this
      omega
    · omega

theorem ident_le_length (t : Text) : ident t ≤ t.length := by
  cases t with
  | nil => exact Nat.le_refl _
  | cons b t =>
    have := run_le_length isNamePart t
    rw [ident, List.length_cons]
    split <;> omega

end Lexeme

namespace Lexer

/-- What a rule for code takes is a lexeme of its class. -/
theorem isSound_code {rule : LexRule} (hrule : rule ∈ codeRules) {t : Text}
    (hreach : rule.reach t ≠ 0) (hkept : rule.cls.isDropped = false) :
    BareToken.IsSound ⟨rule.cls, t.take (rule.reach t)⟩ := by
  simp only [codeRules, List.mem_cons, List.not_mem_nil, or_false] at hrule
  rcases hrule with rfl | rfl | rfl | rfl | rfl | rfl | rfl | rfl
  · simp [TokenClass.isDropped] at hkept
  · simp [TokenClass.isDropped] at hkept
  · exact take_exactly hreach
  · obtain ⟨hne, heq⟩ := take_append_eq (string_le_length t) hreach
    exact isString_of_append hne heq
  · obtain ⟨hne, heq⟩ := take_append_eq (number_le_length t) hreach
    exact isNumber_of_append hne heq
  · obtain ⟨hne, heq⟩ := take_append_eq (ident_le_length t) hreach
    exact isName_of_append hne heq
  · exact take_exactly hreach
  · exact take_firstOf hreach

theorem isSound_template {rule : LexRule} (hrule : rule ∈ templateRules) {t : Text}
    (hreach : rule.reach t ≠ 0) : BareToken.IsSound ⟨rule.cls, t.take (rule.reach t)⟩ := by
  simp only [templateRules, List.mem_cons, List.not_mem_nil, or_false] at hrule
  rcases hrule with rfl | rfl | rfl | rfl
  · exact take_exactly hreach
  · exact take_exactly hreach
  · refine ⟨fun hnil => ?_, isChunk_take_append t⟩
    rcases List.take_eq_nil_iff.1 hnil with hzero | rfl
    · exact hreach hzero
    · exact hreach rfl
  · exact take_exactly hreach

/-- Blocks and templates are entered from code. -/
def Stacked : List Mode → Prop
  | [] => True
  | .interpolation :: stack => Stacked stack
  | _ :: stack => InCode stack ∧ Stacked stack

/-- A step in code: its token is a lexeme and no part of a template, and unless it opens one, the
next token is in code again. -/
theorem step_code {stack : List Mode} (hcode : InCode stack) (hstack : Stacked stack) {t : Text}
    {rule : LexRule} (h : firstRule? (rulesAt stack) t = some rule) :
    (rule.cls.isDropped = false → BareToken.IsSound ⟨rule.cls, t.take (rule.reach t)⟩) ∧
      rule.cls ∉ templateClasses ∧ Stacked (StackEffect.apply rule.effect stack) ∧
      (rule.cls ∉ templateOpeners → InCode (StackEffect.apply rule.effect stack)) := by
  have hreach : rule.reach t ≠ 0 := Nat.ne_of_gt (reach_pos_of_firstRule? h)
  have hmem := List.mem_of_find?_eq_some h
  -- The rules of code itself are the same in every mode.
  have hshared : rule ∈ codeRules →
      (rule.cls.isDropped = false → BareToken.IsSound ⟨rule.cls, t.take (rule.reach t)⟩) ∧
      rule.cls ∉ templateClasses ∧ Stacked (StackEffect.apply rule.effect stack) ∧
      (rule.cls ∉ templateOpeners → InCode (StackEffect.apply rule.effect stack)) := by
    intro hrule
    refine ⟨isSound_code hrule hreach, ?_⟩
    simp only [codeRules, List.mem_cons, List.not_mem_nil, or_false] at hrule
    rcases hrule with rfl | rfl | rfl | rfl | rfl | rfl | rfl | rfl
    · exact ⟨by decide, hstack, fun _ => hcode⟩
    · exact ⟨by decide, hstack, fun _ => hcode⟩
    · exact ⟨by decide, ⟨hcode, hstack⟩, fun hnot => absurd (by decide) hnot⟩
    · exact ⟨by decide, hstack, fun _ => hcode⟩
    · exact ⟨by decide, hstack, fun _ => hcode⟩
    · exact ⟨by decide, hstack, fun _ => hcode⟩
    · exact ⟨by decide, ⟨hcode, hstack⟩, fun _ => inCode_block stack⟩
    · exact ⟨by decide, hstack, fun _ => hcode⟩
  cases stack with
  | nil => exact hshared hmem
  | cons mode stack =>
    cases mode with
    | template => exact absurd rfl hcode
    | block =>
      rcases List.mem_cons.1 hmem with rfl | hmem
      · exact ⟨fun _ => take_exactly hreach, by decide, hstack.2, fun _ => hstack.1⟩
      · exact hshared hmem
    | interpolation =>
      rcases List.mem_cons.1 hmem with rfl | hmem
      · exact ⟨fun _ => take_exactly hreach, by decide, hstack,
          fun hnot => absurd (by decide) hnot⟩
      · exact hshared hmem

/-- A step in a template: its token is a lexeme, and behind a dollar sign the template goes on
without a brace. -/
theorem step_template {stack : List Mode} (hstack : Stacked (.template :: stack)) {t : Text}
    {rule : LexRule} (h : firstRule? templateRules t = some rule) :
    BareToken.IsSound ⟨rule.cls, t.take (rule.reach t)⟩ ∧ rule.cls.isDropped = false ∧
      Stacked (StackEffect.apply rule.effect (.template :: stack)) ∧
      (rule.cls ∉ templateOpeners → InCode (StackEffect.apply rule.effect (.template :: stack))) ∧
      (rule.cls = .dollar → StackEffect.apply rule.effect (.template :: stack) =
        .template :: stack ∧ (t.drop (rule.reach t)).head? ≠ some 123) := by
  have hreach : rule.reach t ≠ 0 := Nat.ne_of_gt (reach_pos_of_firstRule? h)
  have hmem := List.mem_of_find?_eq_some h
  refine ⟨isSound_template hmem hreach, ?_⟩
  simp only [templateRules, List.mem_cons, List.not_mem_nil, or_false] at hmem
  rcases hmem with rfl | rfl | rfl | rfl
  · exact ⟨rfl, hstack.2, fun _ => hstack.1, fun hcls => by simp at hcls⟩
  · exact ⟨rfl, hstack, fun _ => inCode_interpolation _, fun hcls => by simp at hcls⟩
  · exact ⟨rfl, hstack, fun hnot => absurd (by decide) hnot, fun hcls => by simp at hcls⟩
  · refine ⟨rfl, hstack, fun hnot => absurd (by decide) hnot, fun _ => ⟨rfl, ?_⟩⟩
    -- The rule for interpolations, which comes first, has not matched.
    have hdollar : exactly [36] t ≠ 0 := hreach
    show (t.drop (exactly [36] t)).head? ≠ some 123
    rw [exactly_single] at hdollar ⊢
    cases t with
    | nil => simp at hdollar
    | cons b u =>
      by_cases hb : b = 36
      · intro hhead
        cases u with
        | nil => simp [hb] at hhead
        | cons c v =>
          obtain rfl : c = 123 := by simpa [hb] using hhead
          have hfirst : firstRule? templateRules (36 :: 123 :: v) =
              some ⟨.exprStart, exactly (lit "$\x7b"), .enter .interpolation⟩ := rfl
          rw [hb, hfirst] at h
          simp at h
      · simp [hb] at hdollar

theorem exists_template_of_not_inCode {stack : List Mode} (h : ¬ InCode stack) :
    ∃ s, stack = .template :: s := by
  cases stack with
  | nil => exact absurd inCode_nil h
  | cons mode stack => exact ⟨stack, by simpa [InCode] using h⟩

/-- The tokens of a text are linked. In code the first one is no part of a template, and in a
template it stands at the very front. -/
theorem Lexes.linked {stack : List Mode} {t : Text} {bs : List BareToken} (h : Lexes stack t bs)
    (hstack : Stacked stack) : Linked bs ∧ ∀ b ∈ bs.head?,
      (InCode stack → b.cls ∉ templateClasses) ∧ (¬ InCode stack → b.text.head? = t.head?) := by
  induction h with
  | done => exact ⟨.nil, fun b hb => by simp at hb⟩
  | @drop stack t rule bs first dropped more ih =>
    have hnotOpener : rule.cls ∉ templateOpeners := by
      intro hmem
      have hall : ∀ c ∈ templateOpeners, c.isDropped = false := by decide
      simp [hall _ hmem] at dropped
    by_cases hcode : InCode stack
    · obtain ⟨-, -, hstack', hnext⟩ := step_code hcode hstack first
      obtain ⟨hlinked, hhead⟩ := ih hstack'
      exact ⟨hlinked, fun b hb => ⟨fun _ => (hhead b hb).1 (hnext hnotOpener),
        fun hnot => absurd hcode hnot⟩⟩
    · -- Nothing is dropped inside a template.
      obtain ⟨stack, rfl⟩ := exists_template_of_not_inCode hcode
      obtain ⟨-, hkept, -⟩ := step_template hstack first
      simp [hkept] at dropped
  | @keep stack t rule bs first kept more ih =>
    by_cases hcode : InCode stack
    · obtain ⟨hsound, hcls, hstack', hnext⟩ := step_code hcode hstack first
      obtain ⟨hlinked, hhead⟩ := ih hstack'
      refine ⟨.cons (hsound kept) (fun c hc => ⟨fun hnot => (hhead c hc).1 (hnext hnot), ?_⟩)
        hlinked, fun b hb => ?_⟩
      · intro hdollar
        have hdollar : rule.cls = .dollar := hdollar
        exact absurd (by rw [hdollar]; decide) hcls
      · obtain rfl := Option.some.inj hb
        exact ⟨fun _ => hcls, fun hnot => absurd hcode hnot⟩
    · obtain ⟨stack, rfl⟩ := exists_template_of_not_inCode hcode
      obtain ⟨hsound, -, hstack', hnext, hdollar⟩ := step_template hstack first
      obtain ⟨hlinked, hhead⟩ := ih hstack'
      refine ⟨.cons hsound (fun c hc => ⟨fun hnot => (hhead c hc).1 (hnext hnot), ?_⟩) hlinked,
        fun b hb => ?_⟩
      · -- Behind a dollar sign the template goes on, and its next token does not start with a
        -- brace.
        intro hcls
        obtain ⟨hsame, hbrace⟩ := hdollar hcls
        rw [(hhead c hc).2 (by rw [hsame]; exact hcode)]
        exact hbrace
      · obtain rfl := Option.some.inj hb
        have hpos := reach_pos_of_firstRule? first
        refine ⟨fun hyes => absurd hyes hcode, fun _ => ?_⟩
        rw [List.head?_take, if_neg (Nat.ne_of_gt hpos)]

/-- The mark of the end may stand behind every token. -/
theorem linked_end {bs : List BareToken} (h : Linked bs) : Linked (bs ++ [endToken]) := by
  have hend : ∀ b, Adjacent b endToken := fun _ => ⟨fun _ => by decide, fun _ => by decide⟩
  induction h with
  | nil => exact .cons rfl (fun c hc => by simp at hc) .nil
  | @cons b bs sound next more ih =>
    refine .cons sound (fun c hc => ?_) ih
    cases bs with
    | nil =>
      obtain rfl := Option.some.inj hc
      exact hend b
    | cons a bs => exact next c hc

/-- The tokens of a source are linked. -/
theorem linked_of_tokens {file t : Text} {ts : List Token} (h : tokens file t = .ok ts) :
    Linked (ts.map Token.bare) := by
  obtain ⟨bs, hbs, heq⟩ := exists_lexes_of_tokens h
  rw [heq]
  exact linked_end (hbs.linked trivial).1

end Lexer

/-! ## Classes told by texts -/

/-- A text of a number, a string or a mark is no name. -/
theorem BareToken.IsSound.cls_eq_ident {b : BareToken} (h : b.IsSound)
    (hcode : b.cls ∉ templateClasses) (hname : IsName b.text) : b.cls = .ident := by
  obtain ⟨c, u, htext, hc⟩ := hname.head
  obtain ⟨-, -, h96, h34, h39, hdigit, h46, h125⟩ := Lexer.isNameStart_facts hc
  have hmarks : ∀ m ∈ marks, ¬ IsName m := by decide
  -- Each of the other classes begins its texts with a byte that no name begins with.
  unfold IsSound at h
  split at h
  · assumption
  · obtain ⟨d, v, heq, hd⟩ := h.head
    obtain ⟨rfl, -⟩ := List.cons.inj (htext.symm.trans heq)
    rcases hd with hd | hd
    · simp [hdigit] at hd
    · exact absurd hd h46
  · obtain ⟨d, v, heq, hd⟩ := h.head
    obtain ⟨rfl, -⟩ := List.cons.inj (htext.symm.trans heq)
    exact absurd hd (not_or.2 ⟨h34, h39⟩)
  · exact absurd hname (hmarks _ h)
  · exact absurd (List.cons.inj (htext.symm.trans h)).1 h96
  · exact absurd (List.cons.inj (htext.symm.trans h)).1 h96
  · obtain ⟨rfl, -⟩ := List.cons.inj (htext.symm.trans h)
    exact absurd hc (by decide)
  · exact absurd (List.cons.inj (htext.symm.trans h)).1 h125
  · exact absurd (List.cons.inj (htext.symm.trans h)).1 h125
  · rename_i hcls
    exact absurd (by rw [hcls]; decide) hcode
  · rename_i hcls
    exact absurd (by rw [hcls]; decide) hcode
  · rename_i hcls
    exact absurd (by rw [hcls]; decide) hcode
  · simp [htext] at h
  · exact h.elim
  · exact h.elim

end CubeSchema
