import CubeSchema.Proofs.Token.Lexeme
import CubeSchema.Token.Lexer

/-!
# Lexing

The lexer goes from point to point of a source. `Reaches` says that it comes from one point to
another by cutting off some tokens, dropped ones included, and it answers with tokens exactly if it
comes to the end of the text (`tokensFrom_eq_ok_iff`).

`Lexes stack t bs` says that in the modes `stack` the text `t` is cut into the tokens `bs`, with
blanks and comments left out and without the places. It is the part of the lexer that a printed text
has to agree with: `Lexes.tokens_eq` turns it into an answer of `Lexer.tokens`, and
`exists_lexes_of_tokens` gives it back for every source that is cut into tokens.
-/

namespace CubeSchema

/-- A token without its place. -/
structure BareToken where
  /-- The class of the token. -/
  cls : TokenClass
  /-- The text of the token. -/
  text : Text
  deriving DecidableEq, Repr

/-- A token without its place. -/
def Token.bare (t : Token) : BareToken := ⟨t.cls, t.text⟩

namespace Lexer

/-- In the modes `stack`, the text is cut into these tokens. -/
inductive Lexes : List Mode → Text → List BareToken → Prop
  | done {stack : List Mode} : Lexes stack [] []
  | drop {stack : List Mode} {t : Text} {rule : LexRule} {bs : List BareToken}
      (first : firstRule? (rulesAt stack) t = some rule) (dropped : rule.cls.isDropped = true)
      (more : Lexes (StackEffect.apply rule.effect stack) (t.drop (rule.reach t)) bs) :
      Lexes stack t bs
  | keep {stack : List Mode} {t : Text} {rule : LexRule} {bs : List BareToken}
      (first : firstRule? (rulesAt stack) t = some rule) (kept : rule.cls.isDropped = false)
      (more : Lexes (StackEffect.apply rule.effect stack) (t.drop (rule.reach t)) bs) :
      Lexes stack t (⟨rule.cls, t.take (rule.reach t)⟩ :: bs)

/-- A rule that was chosen takes at least one byte. -/
theorem reach_pos_of_firstRule? {rules : List LexRule} {t : Text} {rule : LexRule}
    (h : firstRule? rules t = some rule) : 0 < rule.reach t := by
  have := List.find?_some h
  simp only [ne_eq, decide_not, Bool.not_eq_true', decide_eq_false_iff_not] at this
  omega

/-- The tokens that are not dropped, without their places. -/
def visible (ts : List Token) : List BareToken :=
  (ts.filter fun t => !t.cls.isDropped).map Token.bare

/-- The token at the end of the input. -/
def endToken : BareToken := ⟨.eof, []⟩

/-- No rule matches at the end of a text. -/
theorem firstRule?_nil (stack : List Mode) : firstRule? (rulesAt stack) [] = none := by
  match stack with
  | [] => rfl
  | .block :: _ => rfl
  | .template :: _ => rfl
  | .interpolation :: _ => rfl

/-- One step of the lexer. -/
theorem tokensFrom_step {stack : List Mode} {t : Text} {rule : LexRule}
    (h : firstRule? (rulesAt stack) t = some rule) (fuel : Nat) (pos : Position) :
    tokensFrom (fuel + 1) stack pos t =
      (tokensFrom fuel (StackEffect.apply rule.effect stack)
        (pos.advance (t.take (rule.reach t))) (t.drop (rule.reach t))).map
        (⟨rule.cls, t.take (rule.reach t), pos⟩ :: ·) := by
  cases t with
  | nil => rw [firstRule?_nil] at h; simp at h
  | cons b t => simp only [tokensFrom, h]

/-! ## Points of a source -/

/-- Where the lexer is. -/
structure Point where
  /-- The modes, the innermost first. -/
  stack : List Mode
  /-- The place of the next token. -/
  pos : Position
  /-- The text that is left. -/
  rest : Text

/-- The first point of a source. -/
def Point.start (file src : Text) : Point := ⟨[], .start file, src⟩

/-- The point behind a token that a rule takes. -/
def Point.behind (p : Point) (rule : LexRule) : Point :=
  ⟨StackEffect.apply rule.effect p.stack, p.pos.advance (p.rest.take (rule.reach p.rest)),
    p.rest.drop (rule.reach p.rest)⟩

/-- The lexer cuts off a token and comes to the next point. -/
inductive Stepped (p : Point) : Token → Point → Prop
  | rule {rule : LexRule} (first : firstRule? (rulesAt p.stack) p.rest = some rule) :
      Stepped p ⟨rule.cls, p.rest.take (rule.reach p.rest), p.pos⟩ (p.behind rule)

/-- The lexer cuts off some tokens, dropped ones included, and comes to a later point. -/
inductive Reaches : Point → List Token → Point → Prop
  | nil {p : Point} : Reaches p [] p
  | cons {p q r : Point} {t : Token} {ts : List Token} (first : Stepped p t q)
      (more : Reaches q ts r) : Reaches p (t :: ts) r

theorem Stepped.unique {p q q' : Point} {t t' : Token} (h : Stepped p t q)
    (h' : Stepped p t' q') : q = q' := by
  cases h with
  | rule first =>
    cases h' with
    | rule first' =>
      obtain rfl := Option.some.inj (first.symm.trans first')
      rfl

/-- From one point, the lexer comes to one other point behind some tokens. -/
theorem Reaches.unique {p q q' : Point} {ts : List Token} (h : Reaches p ts q)
    (h' : Reaches p ts q') : q = q' := by
  induction h with
  | nil =>
    cases h'
    rfl
  | cons first _ ih =>
    cases h' with
    | cons first' more' =>
      obtain rfl := first.unique first'
      exact ih more'

theorem Reaches.split {p r : Point} {us vs : List Token} (h : Reaches p (us ++ vs) r) :
    ∃ q, Reaches p us q ∧ Reaches q vs r := by
  induction us generalizing p with
  | nil => exact ⟨p, .nil, h⟩
  | cons u us ih =>
    cases h with
    | cons first more =>
      obtain ⟨q, hus, hvs⟩ := ih more
      exact ⟨q, .cons first hus, hvs⟩

/-- The texts of the tokens are what has been cut off. -/
theorem Reaches.rest_eq {p q : Point} {ts : List Token} (h : Reaches p ts q) :
    p.rest = ts.flatMap Token.text ++ q.rest := by
  induction h with
  | nil => rfl
  | cons first _ ih =>
    cases first with
    | rule first =>
      rw [List.flatMap_cons, List.append_assoc, ← ih]
      exact (List.take_append_drop ..).symm

/-- The lexer cuts a text into tokens exactly if it comes to the end of the text. -/
theorem tokensFrom_eq_ok_iff {fuel : Nat} {p : Point} {ts : List Token} :
    tokensFrom fuel p.stack p.pos p.rest = .ok ts ↔ ∃ us q, Reaches p us q ∧ q.rest = [] ∧
      us.length ≤ fuel ∧ ts = us ++ [⟨.eof, [], q.pos⟩] := by
  constructor
  · intro h
    -- Each token takes one unit of fuel, and the end of the text takes none.
    induction fuel generalizing p ts with
    | zero =>
      cases hrest : p.rest with
      | nil =>
        rw [hrest, tokensFrom] at h
        exact ⟨[], p, .nil, hrest, Nat.le_refl _, (Except.ok.inj h).symm⟩
      | cons b t => simp [hrest, tokensFrom] at h
    | succ fuel ih =>
      cases hrule : firstRule? (rulesAt p.stack) p.rest with
      | none =>
        cases hrest : p.rest with
        | nil =>
          rw [hrest, tokensFrom] at h
          exact ⟨[], p, .nil, hrest, Nat.zero_le _, (Except.ok.inj h).symm⟩
        | cons b t =>
          rw [hrest] at h hrule
          simp [tokensFrom, hrule] at h
      | some rule =>
        rw [tokensFrom_step hrule] at h
        cases hmore : tokensFrom fuel (p.behind rule).stack (p.behind rule).pos
            (p.behind rule).rest with
        | error e =>
          have herror : Except.map _ (.error e) = .ok ts := hmore ▸ h
          cases herror
        | ok more =>
          obtain ⟨us, q, hus, hq, hfuel, rfl⟩ := ih hmore
          have hmap : Except.map _ (.ok _) = .ok ts := hmore ▸ h
          have hts := Except.ok.inj hmap
          exact ⟨_ :: us, q, .cons (.rule hrule) hus, hq, Nat.succ_le_succ hfuel, hts.symm⟩
  · rintro ⟨us, q, hus, hq, hfuel, rfl⟩
    induction hus generalizing fuel with
    | nil =>
      rw [hq]
      unfold tokensFrom
      rfl
    | @cons p r q t us first _ ih =>
      cases first with
      | @rule rule first =>
        obtain ⟨fuel, rfl⟩ : ∃ n, fuel = n + 1 :=
          Nat.exists_eq_succ_of_ne_zero (by rw [List.length_cons] at hfuel; omega)
        have hmore := ih hq (Nat.succ_le_succ_iff.1 hfuel)
        rw [tokensFrom_step first]
        exact congrArg (Except.map _) hmore

/-! ## Points and texts -/

/-- Behind a token the text is shorter. -/
theorem length_drop_reach_lt {stack : List Mode} {t : Text} {rule : LexRule}
    (h : firstRule? (rulesAt stack) t = some rule) : (t.drop (rule.reach t)).length < t.length := by
  have hpos := reach_pos_of_firstRule? h
  have hne : t ≠ [] := by
    rintro rfl
    rw [firstRule?_nil] at h
    cases h
  have hlength := List.length_pos_iff.2 hne
  rw [List.length_drop]
  omega

theorem visible_cons_of_dropped {t : Token} (h : t.cls.isDropped = true) (ts : List Token) :
    visible (t :: ts) = visible ts := by
  simp [visible, h]

theorem visible_cons_of_kept {t : Token} (h : t.cls.isDropped = false) (ts : List Token) :
    visible (t :: ts) = t.bare :: visible ts := by
  simp [visible, h]

theorem visible_end (ts : List Token) (pos : Position) :
    visible (ts ++ [⟨.eof, [], pos⟩]) = visible ts ++ [endToken] := by
  rw [visible, List.filter_append, List.map_append]
  rfl

/-- A text that is cut into tokens leads the lexer to its end, from every place. -/
theorem Lexes.exists_reaches {stack : List Mode} {t : Text} {bs : List BareToken}
    (h : Lexes stack t bs) (pos : Position) : ∃ us q, Reaches ⟨stack, pos, t⟩ us q ∧
      q.rest = [] ∧ us.length ≤ t.length ∧ visible us = bs := by
  induction h generalizing pos with
  | done => exact ⟨[], _, .nil, rfl, Nat.le_refl _, rfl⟩
  | @drop stack t rule bs first dropped more ih =>
    obtain ⟨us, q, hus, hq, hlength, hvis⟩ := ih (pos.advance (t.take (rule.reach t)))
    have hlt := Nat.lt_of_le_of_lt hlength (length_drop_reach_lt first)
    exact ⟨_ :: us, q, .cons (.rule first) hus, hq, hlt,
      (visible_cons_of_dropped dropped us).trans hvis⟩
  | @keep stack t rule bs first kept more ih =>
    obtain ⟨us, q, hus, hq, hlength, hvis⟩ := ih (pos.advance (t.take (rule.reach t)))
    have hlt := Nat.lt_of_le_of_lt hlength (length_drop_reach_lt first)
    refine ⟨_ :: us, q, .cons (.rule first) hus, hq, hlt, ?_⟩
    rw [visible_cons_of_kept kept, hvis]
    rfl

/-- The tokens up to the end of a text are those that it is cut into. -/
theorem Reaches.lexes {p q : Point} {us : List Token} (h : Reaches p us q) (hq : q.rest = []) :
    Lexes p.stack p.rest (visible us) := by
  induction h with
  | nil =>
    rw [hq]
    exact .done
  | cons first _ ih =>
    cases first with
    | @rule rule first =>
      cases hdropped : rule.cls.isDropped with
      | true =>
        rw [visible_cons_of_dropped hdropped]
        exact .drop first hdropped (ih hq)
      | false =>
        rw [visible_cons_of_kept hdropped]
        exact .keep first hdropped (ih hq)

/-- A text that is cut into tokens is cut by the lexer, from every place and with enough fuel. -/
theorem Lexes.tokensFrom_eq {stack : List Mode} {t : Text} {bs : List BareToken}
    (h : Lexes stack t bs) (fuel : Nat) (pos : Position) (hfuel : t.length ≤ fuel) :
    ∃ ts, tokensFrom fuel stack pos t = .ok ts ∧ visible ts = bs ++ [endToken] := by
  obtain ⟨us, q, hus, hq, hlength, hvis⟩ := h.exists_reaches pos
  have hts := tokensFrom_eq_ok_iff.2 ⟨us, q, hus, hq, Nat.le_trans hlength hfuel, rfl⟩
  exact ⟨_, hts, by rw [visible_end, hvis]⟩

/-- What the lexer cuts into tokens is cut in this sense. -/
theorem exists_lexes_of_tokensFrom {fuel : Nat} {stack : List Mode} {pos : Position} {t : Text}
    {ts : List Token} (h : tokensFrom fuel stack pos t = .ok ts) :
    ∃ bs, Lexes stack t bs ∧ visible ts = bs ++ [endToken] := by
  obtain ⟨us, q, hus, hq, -, rfl⟩ := (tokensFrom_eq_ok_iff (p := ⟨stack, pos, t⟩)).1 h
  exact ⟨visible us, hus.lexes hq, visible_end us q.pos⟩

/-- A text that is cut into tokens outside of all modes gives these tokens to the grammar. -/
theorem Lexes.tokens_eq {t : Text} {bs : List BareToken} (h : Lexes [] t bs) (file : Text) :
    ∃ ts, tokens file t = .ok ts ∧ ts.map Token.bare = bs ++ [endToken] := by
  obtain ⟨ts, hts, hvis⟩ := h.tokensFrom_eq t.length (.start file) (Nat.le_refl _)
  refine ⟨_, ?_, hvis⟩
  rw [tokens, allTokens, hts]
  rfl

/-- The tokens that the grammar sees come from the text. -/
theorem exists_lexes_of_tokens {file t : Text} {ts : List Token} (h : tokens file t = .ok ts) :
    ∃ bs, Lexes [] t bs ∧ ts.map Token.bare = bs ++ [endToken] := by
  rw [tokens, allTokens] at h
  cases hall : tokensFrom t.length [] (.start file) t with
  | error e => simp [hall, Except.map] at h
  | ok all =>
    obtain ⟨bs, hbs, hvis⟩ := exists_lexes_of_tokensFrom hall
    obtain rfl : all.filter _ = ts := by simpa [hall, Except.map] using h
    exact ⟨bs, hbs, hvis⟩

end Lexer

end CubeSchema
