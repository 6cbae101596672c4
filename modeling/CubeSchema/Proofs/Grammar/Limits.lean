import CubeSchema.Proofs.Grammar.Reads
import CubeSchema.Tree.Build

/-!
# Reading with a limit

With a limit, a repetition that has gone through too many rounds breaks off. Each round takes a
token, so it has come that many tokens far, and a limit beyond the lookahead makes this a break
behind which no alternative is tried. Nothing is therefore read in another way because of the limit:
`limited_scan` says that a pattern gives the answer that it gives without a limit, or breaks off at
least that far away. What is accepted with the limit is accepted without one as the same tree
(`parse_unlimited`), and a source with fewer tokens than the limit is accepted with it if it is
accepted without (`parse_limited`).
-/

namespace CubeSchema

namespace Pattern

mutual

/-- Whether a pattern repeats only what takes a token. -/
def repeatsTokens : Pattern → Bool
  | text _ | token _ | rule _ => true
  | seq parts => allRepeatTokens parts
  | alt choices => allRepeatTokens choices
  | opt inner => inner.repeatsTokens
  | many inner => inner.repeatsTokens && !inner.isNullable

/-- Whether this holds of all patterns of a list. -/
def allRepeatTokens : List Pattern → Bool
  | [] => true
  | p :: ps => p.repeatsTokens && allRepeatTokens ps

end

theorem repeatsTokens_of_all {ps : List Pattern} (h : allRepeatTokens ps = true) {p : Pattern}
    (hp : p ∈ ps) : p.repeatsTokens = true := by
  induction ps with
  | nil => cases hp
  | cons q ps ih =>
    rw [allRepeatTokens, Bool.and_eq_true] at h
    rcases List.mem_cons.1 hp with rfl | hp
    · exact h.1
    · exact ih h.2 hp

end Pattern

theorem Rule.repeatsTokens_pattern (r : Rule) : r.pattern.repeatsTokens = true := by
  cases r <;> decide

namespace Grammar

/-- What a pattern makes of some tokens with a limit, beside what it makes of them without one. -/
inductive Limited (most : Nat) (ts : List Token) : Option Answer → Option Answer → Prop
  /-- The limit makes no difference. -/
  | same (a : Option Answer) : Limited most ts a a
  /-- With the limit the pattern breaks off at least as far away as the limit is high. -/
  | beyond {rest : List Token} {a : Option Answer} (hfar : rest.length + most ≤ ts.length) :
      Limited most ts (some (.breaks rest)) a

/-- A step with a limit beside one without. -/
def StepsLimited (most : Nat) (step step' : Scan) (p : Pattern) : Prop :=
  ∀ ts, Limited most ts (step p ts) (step' p ts)

/-- A step leaves no more tokens than there are, and fewer if its pattern has to take one. -/
def Shortens (step : Scan) : Prop :=
  ∀ p ts trees mid, step p ts = some (.takes trees mid) →
    mid.length ≤ ts.length ∧ (p.isNullable = false → mid.length < ts.length)

variable {most : Nat} {step step' : Scan} {ts mid rest : List Token}

/-- What is taken in front makes a break lie no less far away. -/
theorem Limited.behind {n m : Nat} {a b : Option Answer} (h : Limited m mid a b)
    (trees : List ParseTree) (hmid : mid.length + n ≤ ts.length + m) :
    Limited n ts (a.map (Answer.behind trees)) (b.map (Answer.behind trees)) := by
  cases h with
  | same => exact .same _
  | beyond hfar => exact .beyond (by omega)

theorem isFar_of_over (hmost : Reader.lookahead < most) (hfar : rest.length + most ≤ ts.length) :
    isFar ts rest = true := by
  unfold isFar
  exact decide_eq_true (by omega)

theorem limited_scanSeq (hshort : Shortens step) {ps : List Pattern}
    (hps : ∀ p ∈ ps, StepsLimited most step step' p) (first : Bool) (ts : List Token) :
    Limited most ts (scanSeq step first ps ts) (scanSeq step' first ps ts) := by
  induction ps generalizing first ts with
  | nil => exact .same _
  | cons p ps ih =>
    have hp := hps p (List.mem_cons_self ..) ts
    unfold scanSeq
    generalize ha : step p ts = a at hp ⊢
    generalize step' p ts = b at hp ⊢
    cases hp with
    | beyond hfar => exact .beyond hfar
    | same =>
      cases a with
      | none => exact .same _
      | some a =>
        cases a with
        | lacks | breaks => exact .same _
        | takes trees mid =>
          have hle := (hshort p ts trees mid ha).1
          exact (ih (fun q hq => hps q (List.mem_cons_of_mem p hq)) false mid).behind trees
            (by omega)

theorem limited_scanAlt (hmost : Reader.lookahead < most) {ps : List Pattern}
    (hps : ∀ p ∈ ps, StepsLimited most step step' p) (seen : Bool) (ts : List Token) :
    Limited most ts (scanAlt step ps seen ts) (scanAlt step' ps seen ts) := by
  induction ps generalizing seen with
  | nil => exact .same _
  | cons p ps ih =>
    have hp := hps p (List.mem_cons_self ..) ts
    have hmore := fun seen => ih (fun q hq => hps q (List.mem_cons_of_mem p hq)) seen
    unfold scanAlt
    generalize step p ts = a at hp ⊢
    generalize step' p ts = b at hp ⊢
    cases hp with
    | beyond hfar =>
      simp only [isFar_of_over hmost hfar, if_true]
      exact .beyond hfar
    | same =>
      cases a with
      | none => exact .same _
      | some a =>
        cases a with
        | takes => exact .same _
        | lacks => exact hmore seen
        | breaks rest =>
          cases h : isFar ts rest with
          | true =>
            simp only [h, if_true]
            exact .same _
          | false =>
            simp only [h, Bool.false_eq_true, if_false]
            exact hmore true

/-- An optional part knows no limit itself. -/
theorem limited_scanOnce (hmost : Reader.lookahead < most) {p : Pattern}
    (hp : StepsLimited most step step' p) (ts : List Token) :
    Limited most ts (scanMany step p false 1 ts) (scanMany step' p false 1 ts) := by
  have hp := hp ts
  unfold scanMany
  generalize step p ts = a at hp ⊢
  generalize step' p ts = b at hp ⊢
  cases hp with
  | beyond hfar =>
    simp only [isFar_of_over hmost hfar, if_true]
    exact .beyond hfar
  | same => exact .same _

/-- A repetition breaks off behind its last round, or ends before it as it does without a limit. -/
theorem limited_scanMany (hmost : Reader.lookahead < most) (hshort : Shortens step) {p : Pattern}
    (hnull : p.isNullable = false) (hp : StepsLimited most step step' p) {rounds rounds' : Nat}
    (hrounds : rounds ≤ most) (ts : List Token) (hlt : ts.length < rounds') :
    Limited rounds ts (scanMany step p true rounds ts) (scanMany step' p false rounds' ts) := by
  induction rounds generalizing rounds' ts with
  | zero => exact .beyond (Nat.le_refl _)
  | succ rounds ih =>
    obtain ⟨rounds', rfl⟩ : ∃ k, rounds' = k + 1 := ⟨rounds' - 1, by omega⟩
    have hp := hp ts
    unfold scanMany
    generalize ha : step p ts = a at hp ⊢
    generalize step' p ts = b at hp ⊢
    cases hp with
    | beyond hfar =>
      simp only [isFar_of_over hmost hfar, if_true]
      exact .beyond (by omega)
    | same =>
      cases a with
      | none => exact .same _
      | some a =>
        cases a with
        | lacks | breaks => exact .same _
        | takes trees mid =>
          -- Each round takes a token, so the tokens left stay ahead of the rounds left.
          have hless := (hshort p ts trees mid ha).2 hnull
          exact (ih (by omega) mid (by omega)).behind trees (by omega)

/-- With a limit beyond the lookahead a pattern gives the answer that it gives without a limit, or
breaks off at least as far away as the limit is high. -/
theorem limited_scan (hmost : Reader.lookahead < most) (fuel : Nat) (p : Pattern)
    (hp : p.repeatsTokens = true) :
    StepsLimited most (scan (some most) fuel) (scan none fuel) p := by
  induction fuel generalizing p with
  | zero => exact fun ts => .same _
  | succ fuel ih =>
    intro ts
    have hshort : Shortens (scan (some most) fuel) := fun _ _ _ _ h => length_rest_of_scan h
    cases p with
    | text t => exact .same _
    | token cls => exact .same _
    | seq parts =>
      exact limited_scanSeq hshort (fun q hq => ih q (Pattern.repeatsTokens_of_all hp hq)) true ts
    | alt choices =>
      exact limited_scanAlt hmost (fun q hq => ih q (Pattern.repeatsTokens_of_all hp hq)) false ts
    | opt inner => exact limited_scanOnce hmost (ih inner hp) ts
    | many inner =>
      have hinner : inner.repeatsTokens = true ∧ inner.isNullable = false := by
        simpa [Pattern.repeatsTokens] using hp
      exact limited_scanMany hmost hshort hinner.2 (ih inner hinner.1) (Nat.le_refl most) ts
        (Nat.lt_succ_self _)
    | rule name =>
      have hbody := ih name.pattern name.repeatsTokens_pattern ts
      simp only [scan]
      generalize scan (some most) fuel name.pattern ts = a at hbody ⊢
      generalize scan none fuel name.pattern ts = b at hbody ⊢
      cases hbody with
      | same => exact .same _
      | beyond hfar => exact .beyond hfar

/-- A limit lies beyond the lookahead, if there is one. -/
def IsAhead (limit : Option Nat) : Prop := ∀ most ∈ limit, Reader.lookahead < most

theorem isAhead_maxRounds : IsAhead (some maxRounds) := by
  intro most hmost
  obtain rfl := Option.some.inj hmost
  decide

variable {limit : Option Nat} {p : Pattern} {trees : List ParseTree}

/-- What is taken with a limit is taken without one. -/
theorem Reads.unlimited (h : Reads p ts (.takes trees rest) limit) (hlimit : IsAhead limit)
    (hp : p.repeatsTokens = true) : Reads p ts (.takes trees rest) := by
  cases limit with
  | none => exact h
  | some most =>
    obtain ⟨fuel, h⟩ := h
    have hlimited := limited_scan (hlimit most rfl) fuel p hp ts
    rw [h] at hlimited
    generalize ha : scan none fuel p ts = a at hlimited
    cases hlimited with
    | same => exact ⟨fuel, ha⟩

/-- Fewer tokens than the limit are read as they are without one. -/
theorem Reads.limited {a : Answer} (h : Reads p ts a) (hlimit : IsAhead limit)
    (hp : p.repeatsTokens = true) (hshort : ∀ most ∈ limit, ts.length < most) :
    Reads p ts a limit := by
  cases limit with
  | none => exact h
  | some most =>
    obtain ⟨fuel, h⟩ := h
    have hlt := hshort most rfl
    have hlimited := limited_scan (hlimit most rfl) fuel p hp ts
    rw [h] at hlimited
    generalize ha : scan (some most) fuel p ts = b at hlimited
    cases hlimited with
    | same => exact ⟨fuel, ha⟩
    | beyond hfar => omega

end Grammar

open Grammar

/-- A source that is accepted with a limit is accepted without one, as the same tree. -/
theorem parse_unlimited {limit : Option Nat} (hlimit : IsAhead limit) {file src : Text} {n : Node}
    (h : parse file src limit = .ok n) : parse file src = .ok n := by
  unfold parse at h ⊢
  cases hts : Lexer.tokens file src with
  | error failure => simp [hts] at h
  | ok ts =>
    simp only [hts] at h ⊢
    cases hderive : derive ts limit with
    | error found => simp [hderive] at h
    | ok tree =>
      obtain ⟨rest, hread, hend⟩ := derive_eq_ok_iff.1 hderive
      have hplain : derive ts = .ok tree :=
        derive_eq_ok_iff.2 ⟨rest, hread.unlimited hlimit rfl, hend⟩
      rw [hderive] at h
      rw [hplain]
      exact h

/-- A source with fewer tokens than the limit is accepted with it as it is without. -/
theorem parse_limited {limit : Option Nat} (hlimit : IsAhead limit) {file src : Text} {n : Node}
    {ts : List Token} (hts : Lexer.tokens file src = .ok ts)
    (hshort : ∀ most ∈ limit, ts.length < most) (h : parse file src = .ok n) :
    parse file src limit = .ok n := by
  unfold parse at h ⊢
  simp only [hts] at h ⊢
  cases hderive : derive ts with
  | error found => simp [hderive] at h
  | ok tree =>
    obtain ⟨rest, hread, hend⟩ := derive_eq_ok_iff.1 hderive
    have hlimited : derive ts limit = .ok tree :=
      derive_eq_ok_iff.2 ⟨rest, hread.limited hlimit rfl hshort, hend⟩
    rw [hderive] at h
    rw [hlimited]
    exact h

end CubeSchema
