import CubeSchema.Proofs.Token.Origin

/-!
# Modes told by tokens

What a token does to the modes of the lexer depends on its class alone, so the modes behind a list
of tokens can be computed from the list. `Modal stack bs` says that the tokens `bs` may come one
after the other where the modes are `stack` at first: no token of a template comes up in code, and a
closing brace has the class of what it closes. With that, the text of a token in code tells its
class.
-/

namespace CubeSchema

open Lexeme

namespace Lexer

/-- What a token of a class does to the modes. -/
def effectOf : TokenClass → StackEffect
  | .backtick => .enter .template
  | .lbrace => .enter .block
  | .exprStart => .enter .interpolation
  | .rbrace | .templateEnd | .exprEnd => .leave
  | _ => .keep

/-- The modes behind a list of tokens. -/
def modesAfter (stack : List Mode) (bs : List BareToken) : List Mode :=
  bs.foldl (fun modes b => StackEffect.apply (effectOf b.cls) modes) stack

@[simp] theorem modesAfter_nil (stack : List Mode) : modesAfter stack [] = stack := rfl

@[simp] theorem modesAfter_cons (stack : List Mode) (b : BareToken) (bs : List BareToken) :
    modesAfter stack (b :: bs) = modesAfter (StackEffect.apply (effectOf b.cls) stack) bs := rfl

@[simp] theorem modesAfter_append (stack : List Mode) (as bs : List BareToken) :
    modesAfter stack (as ++ bs) = modesAfter (modesAfter stack as) bs := List.foldl_append

/-- The class of a closing brace in code. -/
def braceClass : List Mode → TokenClass
  | .block :: _ => .rbrace
  | .interpolation :: _ => .exprEnd
  | _ => .punct

/-- A rule in code is one for all code, or it closes what was opened last. -/
theorem mem_codeRules_or {stack : List Mode} (hcode : InCode stack) {rule : LexRule}
    (h : rule ∈ rulesAt stack) : rule ∈ codeRules ∨
      rule = { cls := braceClass stack, reach := exactly (lit "\x7d"), effect := .leave } := by
  cases stack with
  | nil => exact .inl h
  | cons mode stack =>
    cases mode with
    | template => exact absurd rfl hcode
    | block => exact (List.mem_cons.1 h).symm
    | interpolation => exact (List.mem_cons.1 h).symm

theorem braceClass_not_mem (stack : List Mode) : braceClass stack ∉ templateClasses := by
  unfold braceClass
  split <;> decide

/-- All rules of the lexer. -/
def allRules : List LexRule :=
  { cls := .rbrace, reach := exactly (lit "\x7d"), effect := .leave } ::
    { cls := .exprEnd, reach := exactly (lit "\x7d"), effect := .leave } ::
      (templateRules ++ codeRules)

theorem mem_allRules {stack : List Mode} {rule : LexRule} (h : rule ∈ rulesAt stack) :
    rule ∈ allRules := by
  have hcode : ∀ {rule}, rule ∈ codeRules → rule ∈ allRules := fun h =>
    List.mem_cons_of_mem _ (List.mem_cons_of_mem _ (List.mem_append_right _ h))
  match stack, h with
  | [], h => exact hcode h
  | .block :: _, h =>
    rcases List.mem_cons.1 h with rfl | h
    · exact List.mem_cons_self ..
    · exact hcode h
  | .interpolation :: _, h =>
    rcases List.mem_cons.1 h with rfl | h
    · exact List.mem_cons_of_mem _ (List.mem_cons_self ..)
    · exact hcode h
  | .template :: _, h =>
    exact List.mem_cons_of_mem _ (List.mem_cons_of_mem _ (List.mem_append_left _ h))

/-- A rule has the effect of its class, and none yields the end of the input. -/
theorem effect_and_cls {rule : LexRule} (h : rule ∈ allRules) :
    rule.effect = effectOf rule.cls ∧ rule.cls ≠ .eof := by
  simp only [allRules, templateRules, codeRules, List.cons_append, List.nil_append, List.mem_cons,
    List.not_mem_nil, or_false] at h
  rcases h with rfl | rfl | rfl | rfl | rfl | rfl | rfl | rfl | rfl | rfl | rfl | rfl | rfl | rfl
  all_goals exact ⟨rfl, by decide⟩

theorem effect_eq {stack : List Mode} {rule : LexRule} (h : rule ∈ rulesAt stack) :
    rule.effect = effectOf rule.cls := (effect_and_cls (mem_allRules h)).1

theorem cls_ne_eof {stack : List Mode} {rule : LexRule} (h : rule ∈ rulesAt stack) :
    rule.cls ≠ .eof := (effect_and_cls (mem_allRules h)).2

/-- A token that is dropped leaves the modes alone. -/
theorem apply_effect_of_dropped {stack modes : List Mode} {rule : LexRule}
    (h : rule ∈ rulesAt stack) (hdropped : rule.cls.isDropped = true) :
    StackEffect.apply rule.effect modes = modes := by
  rw [effect_eq h]
  cases hcls : rule.cls <;> simp_all [TokenClass.isDropped, effectOf, StackEffect.apply]

/-- What is dropped is dropped in code. -/
theorem inCode_of_dropped {stack : List Mode} {rule : LexRule} (h : rule ∈ rulesAt stack)
    (hdropped : rule.cls.isDropped = true) : InCode stack := by
  match stack, h with
  | [], _ => exact inCode_nil
  | .block :: _, _ => exact inCode_block _
  | .interpolation :: _, _ => exact inCode_interpolation _
  | .template :: _, h =>
    simp only [rulesAt, templateRules, List.mem_cons, List.not_mem_nil, or_false] at h
    rcases h with rfl | rfl | rfl | rfl <;> cases hdropped

/-- A token may come up where these are the modes. -/
structure Admits (stack : List Mode) (b : BareToken) : Prop where
  /-- Code has no token of a template. -/
  code : InCode stack → b.cls ∉ templateClasses
  /-- A brace closes what was opened last. -/
  brace : InCode stack → b.text = [125] → b.cls = braceClass stack

/-- The tokens may come up one after the other where these are the modes at first. -/
inductive Modal : List Mode → List BareToken → Prop
  | nil {stack : List Mode} : Modal stack []
  | cons {stack : List Mode} {b : BareToken} {bs : List BareToken} (first : Admits stack b)
      (more : Modal (StackEffect.apply (effectOf b.cls) stack) bs) : Modal stack (b :: bs)

theorem Modal.right {stack : List Mode} {as bs : List BareToken} (h : Modal stack (as ++ bs)) :
    Modal (modesAfter stack as) bs := by
  induction as generalizing stack with
  | nil => exact h
  | cons a as ih =>
    cases h with
    | cons _ more => exact ih more

/-- In code, the rule that takes a closing brace is the one of the innermost mode. -/
theorem cls_of_brace {stack : List Mode} (hcode : InCode stack) {t : Text} {rule : LexRule}
    (h : firstRule? (rulesAt stack) (125 :: t) = some rule) : rule.cls = braceClass stack := by
  match stack, hcode with
  | [], _ =>
    have hpunct : firstRule? codeRules (125 :: t) =
        some { cls := .punct, reach := punct } := rfl
    obtain rfl := Option.some.inj (h.symm.trans hpunct)
    rfl
  | .block :: _, _ =>
    have hbrace : firstRule? blockRules (125 :: t) =
        some { cls := .rbrace, reach := exactly (lit "\x7d"), effect := .leave } := rfl
    obtain rfl := Option.some.inj (h.symm.trans hbrace)
    rfl
  | .interpolation :: _, _ =>
    have hbrace : firstRule? interpolationRules (125 :: t) =
        some { cls := .exprEnd, reach := exactly (lit "\x7d"), effect := .leave } := rfl
    obtain rfl := Option.some.inj (h.symm.trans hbrace)
    rfl
  | .template :: _, hcode => exact absurd rfl hcode

/-- What the lexer cuts off may come up there. -/
theorem admits_of_firstRule? {stack : List Mode} {t : Text} {rule : LexRule}
    (h : firstRule? (rulesAt stack) t = some rule) :
    Admits stack ⟨rule.cls, t.take (rule.reach t)⟩ := by
  have hmem := List.mem_of_find?_eq_some h
  constructor
  · intro hcode
    show rule.cls ∉ templateClasses
    rcases mem_codeRules_or hcode hmem with hrule | rfl
    · simp only [codeRules, List.mem_cons, List.not_mem_nil, or_false] at hrule
      rcases hrule with rfl | rfl | rfl | rfl | rfl | rfl | rfl | rfl <;> decide
    · exact braceClass_not_mem stack
  · intro hcode htext
    -- The text in front starts with the brace that the rule has taken.
    cases t with
    | nil => simp at htext
    | cons c t =>
      have hpos := reach_pos_of_firstRule? h
      obtain ⟨n, hn⟩ : ∃ n, rule.reach (c :: t) = n + 1 := ⟨_, (Nat.succ_pred_eq_of_pos hpos).symm⟩
      have hhead : c = 125 := by
        have : c :: t.take n = [125] := by rw [← List.take_succ_cons, ← hn]; exact htext
        exact (List.cons.inj this).1
      subst hhead
      exact cls_of_brace hcode h

theorem admits_end (stack : List Mode) : Admits stack endToken :=
  ⟨fun _ => by decide, fun _ h => by simp [endToken] at h⟩

/-- The tokens of a text, with the end behind them, come up one after the other. -/
theorem Lexes.modal {stack : List Mode} {t : Text} {bs : List BareToken} (h : Lexes stack t bs) :
    Modal stack (bs ++ [endToken]) := by
  induction h with
  | done => exact .cons (admits_end _) .nil
  | drop first dropped more ih =>
    rwa [apply_effect_of_dropped (List.mem_of_find?_eq_some first) dropped] at ih
  | keep first kept more ih =>
    refine .cons (admits_of_firstRule? first) ?_
    rwa [← effect_eq (List.mem_of_find?_eq_some first)]

theorem Lexes.cls_ne_eof {stack : List Mode} {t : Text} {bs : List BareToken}
    (h : Lexes stack t bs) : ∀ b ∈ bs, b.cls ≠ .eof := by
  induction h with
  | done => simp
  | drop _ _ _ ih => exact ih
  | keep first _ _ ih =>
    intro b hb
    rcases List.mem_cons.1 hb with rfl | hb
    · exact Lexer.cls_ne_eof (List.mem_of_find?_eq_some first)
    · exact ih b hb

/-- The tokens of a source end with its only end token. -/
theorem end_of_tokens {file t : Text} {ts : List Token} (h : tokens file t = .ok ts) :
    ∃ us last, ts = us ++ [last] ∧ last.bare = endToken ∧ ∀ u ∈ us, u.cls ≠ .eof := by
  obtain ⟨bs, hbs, heq⟩ := exists_lexes_of_tokens h
  obtain ⟨us, lasts, rfl, hus, hlasts⟩ := List.map_eq_append_iff.1 heq
  obtain ⟨last, rfl, hlast⟩ := List.map_eq_singleton_iff.1 hlasts
  refine ⟨us, last, rfl, hlast, fun u hu => ?_⟩
  have hmem : u.bare ∈ bs := hus ▸ List.mem_map_of_mem hu
  exact hbs.cls_ne_eof u.bare hmem

theorem modal_of_tokens {file t : Text} {ts : List Token} (h : tokens file t = .ok ts) :
    Modal [] (ts.map Token.bare) := by
  obtain ⟨bs, hbs, heq⟩ := exists_lexes_of_tokens h
  rw [heq]
  exact hbs.modal

end Lexer

/-! ## Classes told by texts -/

open Lexer

/-- In code, a mark that is no brace is a mark by its class. -/
theorem BareToken.IsSound.cls_eq_punct {b : BareToken} (h : b.IsSound)
    (hcode : b.cls ∉ templateClasses) (hmark : b.text ∈ marks) (hbrace : b.text ≠ [125]) :
    b.cls = .punct := by
  have hname : ∀ m ∈ marks, ¬ IsName m := by decide
  have hnumber : ∀ m ∈ marks, ¬ IsNumber m := by decide
  have hstring : ∀ m ∈ marks, ¬ IsString m := by decide
  have hother : [96] ∉ marks ∧ [123] ∉ marks ∧ [] ∉ marks := by decide
  unfold IsSound at h
  cases hcls : b.cls <;> simp only [hcls] at h
  case punct => rfl
  case ident => exact absurd h (hname _ hmark)
  case number => exact absurd h (hnumber _ hmark)
  case string => exact absurd h (hstring _ hmark)
  case backtick => exact absurd (h ▸ hmark) hother.1
  case lbrace => exact absurd (h ▸ hmark) hother.2.1
  case rbrace => exact absurd h hbrace
  case exprEnd => exact absurd h hbrace
  case eof => exact absurd (h ▸ hmark) hother.2.2
  all_goals exact absurd (by rw [hcls]; decide) hcode

/-- In code, an opening brace enters a block. -/
theorem BareToken.IsSound.cls_eq_lbrace {b : BareToken} (h : b.IsSound)
    (hcode : b.cls ∉ templateClasses) (hbrace : b.text = [123]) : b.cls = .lbrace := by
  have hnot : ¬ IsName [123] ∧ ¬ IsNumber [123] ∧ ¬ IsString [123] ∧ [123] ∉ marks := by
    decide
  unfold IsSound at h
  cases hcls : b.cls <;> simp only [hcls, hbrace] at h
  case lbrace => rfl
  case ident => exact absurd h hnot.1
  case number => exact absurd h hnot.2.1
  case string => exact absurd h hnot.2.2.1
  case punct => exact absurd h hnot.2.2.2
  case backtick | rbrace | exprEnd | eof => simp at h
  all_goals exact absurd (by rw [hcls]; decide) hcode

/-- In code, a binary or unary operator is a word or a mark by its text. -/
theorem BareToken.IsSound.eq_sign {b : BareToken} (h : b.IsSound)
    (hcode : b.cls ∉ templateClasses)
    (hop : b.text ∈ binaryOperators.map lit ++ unaryOperators.map lit) : b = sign b.text := by
  have hsplit : ∀ op ∈ binaryOperators.map lit ++ unaryOperators.map lit,
      IsName op ∧ (sign op).cls = .ident ∨ op ∈ marks ∧ op ≠ [125] ∧ (sign op).cls = .punct := by
    decide
  have hcls : b.cls = (sign b.text).cls := by
    rcases hsplit _ hop with ⟨hname, hsign⟩ | ⟨hmark, hbrace, hsign⟩
    · rw [hsign, h.cls_eq_ident hcode hname]
    · rw [hsign, h.cls_eq_punct hcode hmark hbrace]
  calc b = ⟨b.cls, b.text⟩ := rfl
    _ = ⟨(sign b.text).cls, b.text⟩ := by rw [hcls]
    _ = sign b.text := rfl

end CubeSchema
