import CubeSchema.Proofs.Token.Places

/-!
# Texts joined by a line feed

A text that leaves no template and no brace open may be followed by a line feed and any other text:
it is cut into the same tokens, and the other text is cut as if it stood alone. No token runs over
the line feed. The ones that could are a template, which would still be open, and a comment that is
not closed, which is cut into a slash and a star. `Lexes.append` is this statement.
-/

namespace CubeSchema

open Lexeme

namespace Lexeme

/-! ## Matchers in front of a line feed -/

/-- A matcher takes no more of a text when a line feed with other text follows. -/
structure Steady (m : Matcher) (t : Text) : Prop where
  /-- It stays within the text. -/
  le_length : m t ≤ t.length
  /-- It takes the same. -/
  append : ∀ w, m (t ++ 10 :: w) = m t

/-- A matcher is steady where it takes nothing at all. -/
theorem steady_of_zero {m : Matcher} {t : Text} (h : m t = 0) (happend : ∀ w, m (t ++ 10 :: w) = 0) :
    Steady m t := ⟨by rw [h]; exact Nat.zero_le _, fun w => by rw [h, happend]⟩

theorem isPrefixOf_append {p : Text} (hp : 10 ∉ p) (t w : Text) :
    p.isPrefixOf (t ++ 10 :: w) = p.isPrefixOf t := by
  induction p generalizing t with
  | nil => simp [List.isPrefixOf]
  | cons b p ih =>
    obtain ⟨hb, hp⟩ := not_or.1 (mt List.mem_cons.2 hp)
    cases t with
    | nil => simp [List.isPrefixOf, Ne.symm hb]
    | cons c t => simp only [List.cons_append, List.isPrefixOf, ih hp t]

theorem steady_firstOf {ps : List Text} (hps : ∀ p ∈ ps, 10 ∉ p) (t : Text) :
    Steady (firstOf ps) t := by
  induction ps with
  | nil => exact steady_of_zero rfl fun _ => rfl
  | cons p ps ih =>
    obtain ⟨hle, happend⟩ := ih fun q hq => hps q (List.mem_cons_of_mem p hq)
    constructor
    · unfold firstOf
      split
      · rename_i hprefixed
        exact (List.isPrefixOf_iff_prefix.1 hprefixed).length_le
      · exact hle
    · intro w
      have hsame : (t ++ 10 :: w).startsWith p = t.startsWith p :=
        isPrefixOf_append (hps p (List.mem_cons_self ..)) t w
      rw [firstOf, firstOf, happend w, hsame]

theorem steady_exactly {p : Text} (hp : 10 ∉ p) (t : Text) : Steady (exactly p) t := by
  have hsame : ∀ u, exactly p u = firstOf [p] u := fun u => rfl
  have hps : ∀ q ∈ [p], 10 ∉ q := by simpa using hp
  obtain ⟨hle, happend⟩ := steady_firstOf hps t
  exact ⟨hsame t ▸ hle, fun w => by rw [hsame, hsame, happend]⟩

theorem headNot_newline {p : UInt8 → Bool} (hp : p 10 = false) (w : Text) :
    HeadNot p (10 :: w) := by
  intro b hb
  rwa [← Option.some.inj hb]

theorem blockEnd?_append {t : Text} {n : Nat} (h : blockEnd? t = some n) (w : Text) :
    blockEnd? (t ++ w) = some n ∧ n ≤ t.length := by
  fun_induction blockEnd? t generalizing n with
  | case1 rest =>
    obtain rfl := Option.some.inj h
    exact ⟨rfl, by simp⟩
  | case2 b rest hne ih =>
    obtain ⟨m, hm, rfl⟩ := Option.map_eq_some_iff.1 h
    obtain ⟨hsame, hle⟩ := ih hm
    refine ⟨?_, by simpa using hle⟩
    rw [List.cons_append, blockEnd?, hsame]
    · rfl
    · -- The text itself is longer than the byte: its end mark lies behind it.
      intro rest' hb hrest
      cases rest with
      | nil => simp [blockEnd?] at hm
      | cons c rest =>
        rw [List.cons_append] at hrest
        exact hne rest hb (by rw [(List.cons.inj hrest).1])
  | case3 => cases h

/-- The text does not start with a comment that is never closed. -/
def Closed (t : Text) : Prop := ∀ rest, t = 47 :: 42 :: rest → blockEnd? rest ≠ none

theorem steady_comment {t : Text} (h : Closed t) : Steady comment t := by
  match t with
  | [] => exact steady_of_zero rfl fun _ => rfl
  | [b] => exact steady_of_zero (by simp [comment]) fun w => by simp [comment]
  | b :: c :: rest =>
    by_cases hline : b = 47 ∧ c = 47
    · obtain ⟨rfl, rfl⟩ := hline
      have hle := run_le_length (· ≠ Text.newline) rest
      refine ⟨by simp only [comment, List.length_cons]; omega, fun w => ?_⟩
      have hstop : HeadNot (· ≠ Text.newline) (10 :: w) := headNot_newline (by decide) w
      simp only [comment, List.cons_append, run_append hstop]
    · by_cases hblock : b = 47 ∧ c = 42
      · obtain ⟨rfl, rfl⟩ := hblock
        obtain ⟨n, hn⟩ := Option.ne_none_iff_exists'.1 (h rest rfl)
        refine ⟨?_, fun w => ?_⟩
        · have := (blockEnd?_append hn []).2
          simp only [comment, hn, Option.map_some, Option.getD_some, List.length_cons]
          omega
        · simp only [comment, List.cons_append, hn, (blockEnd?_append hn (10 :: w)).1]
      · have hnone : ∀ u : Text, comment (b :: c :: u) = 0 := by
          intro u
          unfold comment
          split <;> simp_all
        exact steady_of_zero (hnone rest) fun w => hnone _

theorem steady_string {b : UInt8} {t : Text} (h : b = 34 ∨ b = 39 → string (b :: t) ≠ 0) :
    Steady string (b :: t) := by
  refine ⟨string_le_length _, fun w => ?_⟩
  by_cases hb : b = 34 ∨ b = 39
  · obtain ⟨n, hn⟩ : ∃ n, quoteEnd? b t = some n := by
      refine Option.ne_none_iff_exists'.1 fun hnone => h hb ?_
      simp [string, hb, hnone]
    have hnil : quoteEnd? b (t ++ []) = some n := by rwa [List.append_nil]
    have hn' := quoteEnd?_append hnil (quoteEnd?_le_length hn) (10 :: w)
    simp only [string, List.cons_append, hn, hn']
  · simp [string, hb]

theorem steady_number {t : Text} (ht : t ≠ []) : Steady number t := by
  refine ⟨number_le_length t, fun w => ?_⟩
  have hstop : Stopped (10 :: w) := fun b hb => by
    rw [← Option.some.inj hb]
    decide
  rw [number_eq, number_eq, local_numberBody.append ht hstop (by simp),
    List.drop_append_of_le_length (numberBody_le_length t)]
  cases t.drop (numberBody t) with
  | nil => simp
  | cons b back => rfl

theorem steady_ident (b : UInt8) (t : Text) : Steady ident (b :: t) := by
  refine ⟨ident_le_length _, fun w => ?_⟩
  simp only [ident, List.cons_append, run_append (headNot_newline (p := isNamePart) (by decide) w)]

theorem steady_blanks {b : UInt8} (hb : isBlank b = false) (t : Text) :
    Steady blanks (b :: t) := by
  have hnone : ∀ u, blanks (b :: u) = 0 := fun u => by simp [blanks, run, hb]
  exact steady_of_zero (hnone t) fun w => hnone _

/-- The texts that leave it open how far the characters of a template go. -/
def openChunks : List Text := [[], [36], [92]]

theorem steady_templateChars {t : Text} (h : t.drop (templateChars t) ∉ openChunks) :
    Steady templateChars t := by
  -- The characters stop at a backtick or in front of a hole, unless the text ends. The last byte of
  -- an open text may be half of a pair that the other text completes.
  fun_induction templateChars t with
  | case1 => exact absurd (by decide) h
  | case2 b hb =>
    obtain rfl : b = 96 := by
      simp only [List.drop_zero, openChunks, List.mem_cons, List.cons.injEq, and_true,
        List.not_mem_nil, or_false, reduceCtorEq, false_or, not_or] at h
      simpa [h] using hb
    exact steady_of_zero (by simp [templateChars]) fun w => by simp [templateChars]
  | case3 b hb => exact absurd (by simp [openChunks]) h
  | case4 c rest => exact steady_of_zero (by simp [templateChars]) fun w => by simp [templateChars]
  | case5 c rest h96 ih =>
    rw [Nat.add_comm] at h
    obtain ⟨hle, happend⟩ := ih h
    refine ⟨?_, fun w => ?_⟩
    · rw [templateChars_backslash, List.length_cons, List.length_cons]
      omega
    · rw [List.cons_append, List.cons_append, templateChars_backslash, templateChars_backslash,
        happend]
  | case6 c rest hstop =>
    have hnone : ∀ u, templateChars (36 :: c :: u) = 0 := fun u => by simp [templateChars, hstop]
    exact steady_of_zero (hnone rest) fun w => hnone _
  | case7 c rest hstop _ _ ih =>
    rw [Nat.add_comm] at h
    obtain ⟨hle, happend⟩ := ih h
    have hmore : ∀ u, templateChars (36 :: c :: u) = 2 + templateChars u := fun u => by
      simp [templateChars, hstop]
    refine ⟨?_, fun w => ?_⟩
    · rw [hmore, List.length_cons, List.length_cons]
      omega
    · rw [List.cons_append, List.cons_append, hmore, hmore, happend]
  | case8 b c rest h96 h92 h36 ih =>
    rw [Nat.add_comm] at h
    obtain ⟨hle, happend⟩ := ih h
    refine ⟨?_, fun w => ?_⟩
    · rw [templateChars_plain h96 h92 h36, List.length_cons]
      omega
    · rw [List.cons_append, templateChars_plain h96 h92 h36, templateChars_plain h96 h92 h36,
        happend]

end Lexeme

namespace Lexer

/-! ## Rules in front of a line feed -/

/-- The same rule is chosen when all rules take the same. -/
theorem firstRule?_append {rules : List LexRule} {t : Text}
    (h : ∀ r ∈ rules, Steady r.reach t) (w : Text) :
    firstRule? rules (t ++ 10 :: w) = firstRule? rules t := by
  unfold firstRule?
  induction rules with
  | nil => rfl
  | cons r rules ih =>
    rw [List.find?_cons, List.find?_cons, (h r (List.mem_cons_self ..)).append w,
      ih fun q hq => h q (List.mem_cons_of_mem r hq)]

/-- Nothing but a string starts with a quote. -/
theorem string_ne_zero {stack : List Mode} (hcode : InCode stack) {b : UInt8} (hb : b = 34 ∨ b = 39)
    {t : Text} {rule : LexRule} (h : firstRule? (rulesAt stack) (b :: t) = some rule) :
    string (b :: t) ≠ 0 := by
  intro hstring
  have hfacts : b ≠ 125 ∧ b ≠ 47 ∧ isBlank b = false ∧ b ≠ 96 ∧ Text.isDigit b = false ∧ b ≠ 46 ∧
      isNameStart b = false := by
    rcases hb with rfl | rfl <;> decide
  obtain ⟨h125, h47, hblank, h96, hdigit, h46, hname⟩ := hfacts
  have hnumber := number_cons_eq_zero (t := t) hdigit h46
  have hident : ident (b :: t) = 0 := by simp [ident, hname]
  have hbrace : exactly (lit "\x7b") (b :: t) = 0 := by rcases hb with rfl | rfl <;> rfl
  have hpunct : punct (b :: t) = 0 := by rcases hb with rfl | rfl <;> rfl
  rw [firstRule?_code hcode h125, firstRule?_plain h47 hblank h96] at h
  simp [firstRule?, codeRules, hstring, hnumber, hident, hbrace, hpunct] at h

/-- In code, all rules are steady at a text that starts with a token. -/
theorem steady_code {stack : List Mode} (hcode : InCode stack) {b : UInt8} (hb : isBlank b = false)
    {t : Text} {rule : LexRule} (h : firstRule? (rulesAt stack) (b :: t) = some rule)
    (hclosed : Closed (b :: t)) : ∀ r ∈ rulesAt stack, Steady r.reach (b :: t) := by
  intro r hr
  rcases mem_codeRules_or hcode hr with hr | rfl
  · simp only [codeRules, List.mem_cons, List.not_mem_nil, or_false] at hr
    rcases hr with rfl | rfl | rfl | rfl | rfl | rfl | rfl | rfl
    · exact steady_comment hclosed
    · exact steady_blanks hb t
    · exact steady_exactly (by decide) _
    · exact steady_string fun hquote => string_ne_zero hcode hquote h
    · exact steady_number (by simp)
    · exact steady_ident b t
    · exact steady_exactly (by decide) _
    · exact steady_firstOf (by decide +kernel) _
  · exact steady_exactly (by decide) _

/-- The characters of a template are not taken for one of its delimiters. -/
theorem firstRule?_chars {t : Text} (h : templateChars t ≠ 0) :
    firstRule? templateRules t = some { cls := .templateChars, reach := templateChars } := by
  have hends : ¬ EndsChunk t := fun hends => h hends.templateChars_eq_zero
  have hexactly : ∀ {p : Text}, (∀ r, p ++ r = t → EndsChunk t) → exactly p t = 0 := by
    intro p hp
    unfold exactly
    split
    · rename_i hstart
      obtain ⟨r, hr⟩ := List.isPrefixOf_iff_prefix.1 hstart
      exact absurd (hp r hr) hends
    · rfl
  have htick : exactly (lit "`") t = 0 := hexactly fun r hr => .inl ⟨r, hr.symm⟩
  have hhole : exactly (lit "$\x7b") t = 0 := hexactly fun r hr => .inr ⟨r, hr.symm⟩
  simp [firstRule?, templateRules, htick, hhole, h]

theorem steady_template {t : Text} (h : t.drop (templateChars t) ∉ openChunks) :
    ∀ r ∈ templateRules, Steady r.reach t := by
  intro r hr
  simp only [templateRules, List.mem_cons, List.not_mem_nil, or_false] at hr
  rcases hr with rfl | rfl | rfl | rfl
  · exact steady_exactly (by decide) _
  · exact steady_exactly (by decide) _
  · exact steady_templateChars h
  · exact steady_exactly (by decide) _

/-- A template that is closed behind a text is not closed at the very end of it. -/
theorem Lexes.not_mem_openChunks {stack : List Mode} {t : Text} {bs : List BareToken}
    (h : Lexes (.template :: stack) t bs) (hmodes : modesAfter (.template :: stack) bs = []) :
    t ∉ openChunks := by
  -- At the end of the text the template would still be open.
  have hempty : ∀ {bs}, Lexes (.template :: stack) [] bs →
      modesAfter (.template :: stack) bs ≠ [] := by
    intro bs h
    cases h with
    | done => exact List.cons_ne_nil _ _
    | drop first _ _ => rw [firstRule?_nil] at first; cases first
    | keep first _ _ => rw [firstRule?_nil] at first; cases first
  intro hmem
  simp only [openChunks, List.mem_cons, List.not_mem_nil, or_false] at hmem
  rcases hmem with rfl | rfl | rfl
  · exact hempty h hmodes
  · have hdollar : firstRule? templateRules [36] =
        some { cls := .dollar, reach := exactly (lit "$") } := rfl
    cases h with
    | drop first dropped _ =>
      obtain rfl := Option.some.inj (first.symm.trans hdollar)
      cases dropped
    | keep first _ more =>
      obtain rfl := Option.some.inj (first.symm.trans hdollar)
      exact hempty more hmodes
  · have hnone : firstRule? templateRules [92] = none := rfl
    cases h with
    | drop first _ _ => exact nomatch first.symm.trans hnone
    | keep first _ _ => exact nomatch first.symm.trans hnone

/-- A text that starts with a star in code starts with a token that does. -/
theorem Lexes.exists_star {stack : List Mode} (hcode : InCode stack) {t : Text}
    {bs : List BareToken} (h : Lexes stack (42 :: t) bs) :
    ∃ c cs, bs = c :: cs ∧ c.text.head? = some 42 := by
  have hplain : firstRule? (rulesAt stack) (42 :: t) =
      firstRule? (codeRules.drop 3) (42 :: t) := by
    rw [firstRule?_code hcode (by decide), firstRule?_plain (by decide) (by decide) (by decide)]
  cases h with
  | @drop _ _ rule _ first dropped _ =>
    have hmem := List.mem_of_find?_eq_some (hplain ▸ first)
    simp only [codeRules, List.drop_succ_cons, List.drop_zero, List.mem_cons, List.not_mem_nil,
      or_false] at hmem
    rcases hmem with rfl | rfl | rfl | rfl | rfl <;> cases dropped
  | keep first _ _ =>
    refine ⟨_, _, rfl, ?_⟩
    show ((42 :: t).take _).head? = some 42
    rw [List.head?_take, if_neg (Nat.ne_of_gt (reach_pos_of_firstRule? first))]
    rfl

/-- No slash is followed by a token that starts with a star. -/
def Divided (bs : List BareToken) : Prop :=
  bs.IsChain fun a b => a = ⟨.punct, [47]⟩ → b.text.head? ≠ some 42

/-- A comment that is never closed starts with a slash and a star. -/
theorem firstRule?_unclosed {stack : List Mode} (hcode : InCode stack) {t : Text}
    (h : blockEnd? t = none) :
    firstRule? (rulesAt stack) (47 :: 42 :: t) = some { cls := .punct, reach := punct } := by
  have hcomment : comment (47 :: 42 :: t) = 0 := by simp [comment, h]
  have hnumber : number (47 :: 42 :: t) = 0 := number_cons_eq_zero (by decide) (by decide) _
  have hpunct : punct (47 :: 42 :: t) = 1 := rfl
  have hothers : blanks (47 :: 42 :: t) = 0 ∧ exactly (lit "`") (47 :: 42 :: t) = 0 ∧
      string (47 :: 42 :: t) = 0 ∧ ident (47 :: 42 :: t) = 0 ∧
      exactly (lit "\x7b") (47 :: 42 :: t) = 0 := ⟨rfl, rfl, rfl, rfl, rfl⟩
  rw [firstRule?_code hcode (by decide)]
  simp [firstRule?, codeRules, hcomment, hnumber, hpunct, hothers]

/-- Where a token is cut off, no comment is left open. -/
theorem closed_of_divided {stack : List Mode} (hcode : InCode stack) {t : Text} {rule : LexRule}
    {bs : List BareToken} (first : firstRule? (rulesAt stack) t = some rule)
    (more : Lexes (StackEffect.apply rule.effect stack) (t.drop (rule.reach t)) bs)
    (hdivided : Divided (⟨rule.cls, t.take (rule.reach t)⟩ :: bs)) : Closed t := by
  rintro rest rfl hnone
  obtain rfl := Option.some.inj (first.symm.trans (firstRule?_unclosed hcode hnone))
  obtain ⟨c, cs, rfl, hstar⟩ := Lexes.exists_star hcode more
  exact (List.isChain_cons_cons.1 hdivided).1 rfl hstar

/-! ## Joining -/

theorem Lexes.blanks {stack : List Mode} (hstack : InCode stack) {u : Text}
    (hu : ∀ b ∈ u, isBlank b = true) {t : Text} {bs : List BareToken} (h : Lexes stack t bs) :
    Lexes stack (u ++ t) bs := by
  induction u with
  | nil => exact h
  | cons b u ih =>
    exact .blank hstack (hu b (List.mem_cons_self ..))
      (ih fun c hc => hu c (List.mem_cons_of_mem b hc))

/-- The first token of a text stays the same in front of a line feed. -/
theorem keep_append {stack : List Mode} {t w : Text} {rule : LexRule} {bs : List BareToken}
    (hsteady : ∀ r ∈ rulesAt stack, Steady r.reach t)
    (first : firstRule? (rulesAt stack) t = some rule) (kept : rule.cls.isDropped = false)
    (more : Lexes (StackEffect.apply rule.effect stack) (t.drop (rule.reach t) ++ 10 :: w) bs) :
    Lexes stack (t ++ 10 :: w) (⟨rule.cls, t.take (rule.reach t)⟩ :: bs) := by
  obtain ⟨hle, hreach⟩ := hsteady rule (List.mem_of_find?_eq_some first)
  have hmore : Lexes (StackEffect.apply rule.effect stack)
      ((t ++ 10 :: w).drop (rule.reach (t ++ 10 :: w))) bs := by
    rwa [hreach w, List.drop_append_of_le_length hle]
  have hkeep := Lexes.keep ((firstRule?_append hsteady w).trans first) kept hmore
  rwa [hreach w, List.take_append_of_le_length hle] at hkeep

theorem drop_append {stack : List Mode} {t w : Text} {rule : LexRule} {bs : List BareToken}
    (hsteady : ∀ r ∈ rulesAt stack, Steady r.reach t)
    (first : firstRule? (rulesAt stack) t = some rule) (dropped : rule.cls.isDropped = true)
    (more : Lexes (StackEffect.apply rule.effect stack) (t.drop (rule.reach t) ++ 10 :: w) bs) :
    Lexes stack (t ++ 10 :: w) bs := by
  obtain ⟨hle, hreach⟩ := hsteady rule (List.mem_of_find?_eq_some first)
  refine Lexes.drop ((firstRule?_append hsteady w).trans first) dropped ?_
  rwa [hreach w, List.drop_append_of_le_length hle]

/-- A text that leaves nothing open may be followed by a line feed and another text. -/
theorem Lexes.append {stack : List Mode} {t w : Text} {bs cs : List BareToken}
    (h : Lexes stack t bs) (hmodes : modesAfter stack bs = []) (hdivided : Divided bs)
    (hw : Lexes [] (10 :: w) cs) : Lexes stack (t ++ 10 :: w) (bs ++ cs) := by
  -- Every rule is shown to cut off the same token when the line feed and the other text follow.
  induction h with
  | @done stack =>
    obtain rfl : stack = [] := hmodes
    exact hw
  | @drop stack t rule bs first dropped more ih =>
    have hrule := List.mem_of_find?_eq_some first
    have hcode := inCode_of_dropped hrule dropped
    have hkeep : StackEffect.apply rule.effect stack = stack :=
      apply_effect_of_dropped hrule dropped
    have hrest := ih (by rwa [hkeep]) hdivided
    cases t with
    | nil => rw [firstRule?_nil] at first; cases first
    | cons b t =>
      by_cases hb : isBlank b = true
      · -- More blanks may follow, which then belong to the same token.
        obtain rfl := Option.some.inj (first.symm.trans (firstRule?_blank_code hcode hb t))
        rw [← List.take_append_drop (run isBlank (b :: t)) (b :: t), List.append_assoc]
        refine Lexes.blanks hcode (fun c hc => ?_) hrest
        rw [take_run] at hc
        exact List.mem_takeWhile_imp hc
      · -- An unclosed comment would have been read as something that is kept.
        have hclosed : Closed (b :: t) := by
          intro rest heq hnone
          rw [heq] at first
          obtain rfl := Option.some.inj (first.symm.trans (firstRule?_unclosed hcode hnone))
          cases dropped
        exact drop_append (steady_code hcode (by simpa using hb) first hclosed) first dropped hrest
  | @keep stack t rule bs first kept more ih =>
    have hrule := List.mem_of_find?_eq_some first
    have heffect : rule.effect = effectOf rule.cls := effect_eq hrule
    have hrest := ih (by rw [heffect]; exact hmodes) hdivided.tail
    by_cases hcode : InCode stack
    · cases t with
      | nil => rw [firstRule?_nil] at first; cases first
      | cons b t =>
        have hb : isBlank b = false := by
          cases hb : isBlank b with
          | false => rfl
          | true =>
            obtain rfl := Option.some.inj (first.symm.trans (firstRule?_blank_code hcode hb t))
            cases kept
        exact keep_append (steady_code hcode hb first (closed_of_divided hcode first more hdivided))
          first kept hrest
    · obtain ⟨stack, rfl⟩ := exists_template_of_not_inCode hcode
      -- Inside a template all depends on what stops the characters, which must be in this text.
      refine keep_append (steady_template ?_) first kept hrest
      by_cases hchars : templateChars t = 0
      · rw [hchars, List.drop_zero]
        exact Lexes.not_mem_openChunks (.keep first kept more) hmodes
      · obtain rfl := Option.some.inj (first.symm.trans (firstRule?_chars hchars))
        exact more.not_mem_openChunks hmodes

end Lexer

end CubeSchema
