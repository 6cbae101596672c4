import CubeSchema.Proofs.Token.Modes

/-!
# Brackets and the modes of the lexer

A backtick, `$` with a brace and an opening brace open something, and each of them is closed by a
token of a class of its own. `unclosed` reads off a list of tokens which of its opening tokens are
still open, with no regard to the lexer: a closing token takes away the last opening token of its
kind, wherever that stands.

The lexer works with a stack of modes instead. At every point that it reaches the modes are those
that the unclosed tokens have entered (`Reaches.entered`), and a closing token finds what it closes
on top (`Stepped.closes`), so that it never closes anything but what was opened last.
-/

namespace CubeSchema

/-! ## Unclosed tokens -/

/-- The classes of tokens that open something. -/
def openers : List TokenClass := [.backtick, .exprStart, .lbrace]

/-- The class of the tokens that a token of a class closes. -/
def TokenClass.opener? : TokenClass → Option TokenClass
  | .templateEnd => some .backtick
  | .exprEnd => some .exprStart
  | .rbrace => some .lbrace
  | _ => none

/-- What is open behind a token: an opening token is added, and a closing token takes away the last
one that it may close. -/
def bracket (opened : List Token) (t : Token) : List Token :=
  match t.cls.opener? with
  | some cls => opened.eraseP fun o => o.cls = cls
  | none => if t.cls ∈ openers then t :: opened else opened

/-- The opening tokens of a list that are not closed in it, the last one first. -/
def unclosed (ts : List Token) : List Token := ts.foldl bracket []

theorem unclosed_append (us vs : List Token) :
    unclosed (us ++ vs) = vs.foldl bracket (unclosed us) := List.foldl_append

namespace Lexer

/-- A token that leaves the modes alone neither opens nor closes anything. -/
theorem bracket_of_keep {t : Token} (h : effectOf t.cls = .keep) (opened : List Token) :
    bracket opened t = opened := by
  unfold bracket
  cases hcls : t.cls <;> simp_all [effectOf, TokenClass.opener?, openers]

/-- A token that enters a mode is open behind it. -/
theorem bracket_of_enter {t : Token} {m : Mode} (h : effectOf t.cls = .enter m)
    (opened : List Token) : bracket opened t = t :: opened := by
  unfold bracket
  cases hcls : t.cls <;> simp_all [effectOf, TokenClass.opener?, openers]

/-- A closing token whose opening token was the last one closes that. -/
theorem bracket_of_closes {t o : Token} (h : t.cls.opener? = some o.cls) (opened : List Token) :
    bracket (o :: opened) t = opened := by
  unfold bracket
  rw [h]
  exact List.eraseP_cons_of_pos (by simp)

/-- Tokens that are dropped are no brackets. -/
theorem unclosed_filter (ts : List Token) :
    unclosed (ts.filter fun t => !t.cls.isDropped) = unclosed ts := by
  have hfold : ∀ opened : List Token, (ts.filter fun t => !t.cls.isDropped).foldl bracket opened =
      ts.foldl bracket opened := by
    induction ts with
    | nil => exact fun _ => rfl
    | cons t ts ih =>
      intro opened
      rw [List.foldl_cons]
      cases hdropped : t.cls.isDropped with
      | false =>
        rw [List.filter_cons_of_pos (by simp [hdropped]), List.foldl_cons]
        exact ih _
      | true =>
        have hkeep : effectOf t.cls = .keep := by
          cases hcls : t.cls <;> simp_all [TokenClass.isDropped, effectOf]
        rw [List.filter_cons_of_neg (by simp [hdropped]), bracket_of_keep hkeep]
        exact ih opened
  exact hfold []

/-- The class of the tokens that enter a mode. -/
def openerOf : Mode → TokenClass
  | .block => .lbrace
  | .template => .backtick
  | .interpolation => .exprStart

theorem effectOf_eq_enter {cls : TokenClass} {m : Mode} :
    effectOf cls = .enter m ↔ cls = openerOf m := by
  cases cls <;> cases m <;> simp [effectOf, openerOf]

theorem effectOf_eq_leave {cls : TokenClass} : effectOf cls = .leave ↔ cls.opener?.isSome := by
  cases cls <;> simp [effectOf, TokenClass.opener?]

/-- The tokens have entered these modes, each token one of them. -/
def Entered (opened : List Token) (stack : List Mode) : Prop :=
  opened.map Token.cls = stack.map openerOf

theorem Entered.nil : Entered [] [] := rfl

theorem Entered.cons {o : Token} {m : Mode} (ho : o.cls = openerOf m) {opened : List Token}
    {stack : List Mode} (h : Entered opened stack) : Entered (o :: opened) (m :: stack) :=
  congrArg₂ List.cons ho h

/-! ## Modes and unclosed tokens -/

/-- A closing token comes up only in the mode that its opening token enters. -/
theorem exists_mode_of_opener? {stack : List Mode} {rule : LexRule}
    (h : rule ∈ rulesAt stack) {cls : TokenClass} (hcls : rule.cls.opener? = some cls) :
    ∃ m modes, stack = m :: modes ∧ cls = openerOf m := by
  have hcode : ∀ {rule : LexRule}, rule ∈ codeRules → rule.cls.opener? = none := by
    intro rule hrule
    simp only [codeRules, List.mem_cons, List.not_mem_nil, or_false] at hrule
    rcases hrule with rfl | rfl | rfl | rfl | rfl | rfl | rfl | rfl <;> rfl
  -- In every mode but that of templates the closing rule is the only one that is not for all code.
  have hclosing : ∀ {rule' : LexRule}, rule = rule' ∨ rule ∈ codeRules → rule = rule' := by
    rintro rule' (h | h)
    · exact h
    · rw [hcode h] at hcls
      cases hcls
  cases stack with
  | nil =>
    rw [hcode h] at hcls
    cases hcls
  | cons m modes =>
    refine ⟨m, modes, rfl, ?_⟩
    cases m with
    | block =>
      obtain rfl := hclosing (List.mem_cons.1 h)
      exact (Option.some.inj hcls).symm
    | interpolation =>
      obtain rfl := hclosing (List.mem_cons.1 h)
      exact (Option.some.inj hcls).symm
    | template =>
      simp only [rulesAt, templateRules, List.mem_cons, List.not_mem_nil, or_false] at h
      rcases h with rfl | rfl | rfl | rfl
      · exact (Option.some.inj hcls).symm
      all_goals cases hcls

/-- One token: it closes nothing but the last token that is open, and the modes behind it are those
of the tokens that are open behind it. -/
theorem Stepped.closes {p q : Point} {t : Token} (h : Stepped p t q) {opened : List Token}
    (hopened : Entered opened p.stack) :
    Entered (bracket opened t) q.stack ∧
      ∀ cls, t.cls.opener? = some cls →
        ∃ o more, opened = o :: more ∧ o.cls = cls ∧ bracket opened t = more := by
  cases h with
  | @rule rule first =>
    have hrule := List.mem_of_find?_eq_some first
    show Entered _ (StackEffect.apply rule.effect p.stack) ∧ ∀ cls, rule.cls.opener? = _ → _
    generalize ht : (⟨rule.cls, _, _⟩ : Token) = t
    have hcls : rule.cls = t.cls := by rw [← ht]
    rw [effect_eq hrule, hcls]
    cases hkind : effectOf t.cls with
    | keep =>
      rw [bracket_of_keep hkind]
      refine ⟨hopened, fun cls h => ?_⟩
      rw [effectOf_eq_leave.2 (Option.isSome_of_eq_some h)] at hkind
      cases hkind
    | enter m =>
      rw [bracket_of_enter hkind]
      refine ⟨.cons (effectOf_eq_enter.1 hkind) hopened, fun cls h => ?_⟩
      rw [effectOf_eq_leave.2 (Option.isSome_of_eq_some h)] at hkind
      cases hkind
    | leave =>
      -- The mode on top tells the class of the token that entered it, and that is the right one.
      obtain ⟨cls, hcloses⟩ := Option.isSome_iff_exists.1 (effectOf_eq_leave.1 hkind)
      obtain ⟨m, modes, hstack, rfl⟩ := exists_mode_of_opener? hrule (hcls ▸ hcloses)
      rw [hstack] at hopened ⊢
      obtain ⟨o, more, rfl, ho, hmore⟩ := List.map_eq_cons_iff.1 hopened
      rw [bracket_of_closes (ho ▸ hcloses)]
      refine ⟨hmore, fun cls h => ⟨o, more, rfl, ?_, rfl⟩⟩
      rw [ho]
      exact Option.some.inj (hcloses.symm.trans h)

/-- At every point the modes are those that the unclosed tokens have entered. -/
theorem Reaches.entered {p q : Point} {ts : List Token} (h : Reaches p ts q) {opened : List Token}
    (hopened : Entered opened p.stack) : Entered (ts.foldl bracket opened) q.stack := by
  induction h generalizing opened with
  | nil => exact hopened
  | cons first _ ih => exact ih (first.closes hopened).1

/-! ## All tokens of a source -/

/-- The tokens of a source nest, and the modes of the lexer are those of the nesting. -/
structure Nests (file src : Text) (ts : List Token) : Prop where
  /-- The texts of the tokens, dropped ones included, make up the source. -/
  texts : ts.flatMap Token.text = src
  /-- The last token is the end. -/
  ends : ∃ us pos, ts = us ++ [⟨.eof, [], pos⟩]
  /-- In front of every token the lexer stands at one point, from where it goes on to that token,
  and its modes there are those that the unclosed tokens have entered. -/
  modes : ∀ us t vs, ts = us ++ t :: vs → ∃ p : Point,
    (∀ q, Reaches (.start file src) us q ↔ q = p) ∧
      tokensFrom vs.length p.stack p.pos p.rest = .ok (t :: vs) ∧ Entered (unclosed us) p.stack
  /-- What a closing token closes is the last unclosed token, and of the class that it may close. -/
  closes : ∀ us t vs, ts = us ++ t :: vs → ∀ cls, t.cls.opener? = some cls →
    ∃ o more, unclosed us = o :: more ∧ o.cls = cls ∧ unclosed (us ++ [t]) = more

theorem nests_of_allTokens {file src : Text} {ts : List Token} (h : allTokens file src = .ok ts) :
    Nests file src ts := by
  obtain ⟨all, last, hcuts, hrest, -, rfl⟩ := (tokensFrom_eq_ok_iff (p := .start file src)).1 h
  -- Tokens from some point on are those that are cut off from there, and the end.
  have hsplit : ∀ us t vs, all ++ [⟨.eof, [], last.pos⟩] = us ++ t :: vs →
      ∃ p ws, Reaches (.start file src) us p ∧ Reaches p ws last ∧
        t :: vs = ws ++ [⟨.eof, [], last.pos⟩] := by
    intro us t vs heq
    obtain hnil | ⟨ws, x, hws⟩ := List.eq_nil_or_concat (t :: vs)
    · cases hnil
    · rw [hws, List.concat_eq_append, ← List.append_assoc] at heq
      obtain ⟨rfl, hx⟩ := List.append_inj' heq rfl
      obtain ⟨p, hus, hcut⟩ := hcuts.split
      exact ⟨p, ws, hus, hcut, by rw [hws, List.concat_eq_append, hx]⟩
  constructor
  · have htexts := hcuts.rest_eq
    rw [hrest, List.append_nil] at htexts
    rw [List.flatMap_append, ← htexts]
    exact List.append_nil _
  · exact ⟨all, last.pos, rfl⟩
  · intro us t vs heq
    obtain ⟨p, ws, hus, hcut, htail⟩ := hsplit us t vs heq
    refine ⟨p, fun q => ⟨fun hq => hq.unique hus, fun hq => hq ▸ hus⟩, ?_, hus.entered .nil⟩
    have hlength : ws.length ≤ vs.length := by
      have := congrArg List.length htail
      simp only [List.length_cons, List.length_append, List.length_nil] at this
      omega
    exact tokensFrom_eq_ok_iff.2 ⟨ws, last, hcut, hrest, hlength, htail⟩
  · intro us t vs heq cls hcls
    obtain ⟨p, ws, hus, hcut, htail⟩ := hsplit us t vs heq
    cases ws with
    | nil =>
      obtain rfl := (List.cons.inj htail).1
      cases hcls
    | cons w ws =>
      obtain rfl := (List.cons.inj htail).1
      cases hcut with
      | cons first _ =>
        rw [unclosed_append]
        exact (first.closes (hus.entered .nil)).2 cls hcls

end Lexer

end CubeSchema
