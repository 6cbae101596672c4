import CubeSchema.Proofs.Grammar.Reads
import CubeSchema.Proofs.Token.Lexing

/-!
# Reading in front of another tail

Inside a statement the grammar asks for neither a semicolon nor the end of the input, so it makes no
difference which of the two comes behind the tokens that a statement is read from. It makes no
difference either where the tokens stand. `Reads.alike` is this statement: what is read of some
tokens in front of one tail is read of the same tokens at other places in front of another.
-/

namespace CubeSchema

/-- A token at no place. -/
def Token.unplaced (t : Token) : Token := { t with pos := .unknown }

theorem Token.unplaced_eq {t u : Token} (h : t.bare = u.bare) : t.unplaced = u.unplaced := by
  obtain ⟨cls, text, pos⟩ := t
  obtain ⟨cls', text', pos'⟩ := u
  obtain ⟨rfl, rfl⟩ := BareToken.mk.inj h
  rfl

namespace ParseTree

mutual

/-- A match without the places. -/
def bare : ParseTree → ParseTree
  | .leaf token => .leaf token.unplaced
  | .branch rule _ kids => .branch rule .unknown (bareAll kids)

/-- Matches without the places. -/
def bareAll : List ParseTree → List ParseTree
  | [] => []
  | tree :: trees => tree.bare :: bareAll trees

end

theorem bareAll_eq_map (trees : List ParseTree) : bareAll trees = trees.map bare := by
  induction trees with
  | nil => rfl
  | cons tree trees ih => rw [bareAll, ih, List.map_cons]

theorem bareAll_append (xs ys : List ParseTree) :
    bareAll (xs ++ ys) = bareAll xs ++ bareAll ys := by
  simp only [bareAll_eq_map, List.map_append]

end ParseTree

namespace Pattern

mutual

/-- Whether a pattern leaves semicolons and the end of the input alone, and repeats only what takes
a token. -/
def isBodily : Pattern → Bool
  | text t => t ≠ lit ";"
  | token cls => cls ≠ .eof && cls ≠ .punct
  | rule name => name ≠ .program
  | seq parts => allBodily parts
  | alt choices => allBodily choices
  | opt inner => inner.isBodily
  | many inner => inner.isBodily && !inner.isNullable

/-- Whether this holds of all patterns of a list. -/
def allBodily : List Pattern → Bool
  | [] => true
  | p :: ps => p.isBodily && allBodily ps

end

theorem isBodily_of_allBodily {ps : List Pattern} (h : allBodily ps = true) {p : Pattern}
    (hp : p ∈ ps) : p.isBodily = true := by
  induction ps with
  | nil => cases hp
  | cons q ps ih =>
    rw [allBodily, Bool.and_eq_true] at h
    rcases List.mem_cons.1 hp with rfl | hp
    · exact h.1
    · exact ih h.2 hp

end Pattern

/-- Only the rule for whole programs looks for semicolons. -/
theorem Rule.isBodily_pattern {r : Rule} (h : r ≠ .program) : r.pattern.isBodily = true := by
  cases r with
  | program => exact absurd rfl h
  | _ => decide

namespace Grammar

/-- Two token lists with the same tokens in front of their tails. -/
inductive SameFront (tail tail' : List Token) : List Token → List Token → Prop
  | tail : SameFront tail tail' tail tail'
  | cons {t t' : Token} {ts ts' : List Token} (h : t.bare = t'.bare)
      (more : SameFront tail tail' ts ts') : SameFront tail tail' (t :: ts) (t' :: ts')

/-- The tokens start with a semicolon or with the end of the input. -/
def Halts (ts : List Token) : Prop :=
  ∃ t more, ts = t :: more ∧ (t.cls = .eof ∨ t.cls = .punct ∧ t.text = lit ";")

/-- What a pattern makes of two lists that are alike. -/
inductive AnswersAlike (tail tail' : List Token) : Option Answer → Option Answer → Prop
  | none : AnswersAlike tail tail' none none
  | lacks : AnswersAlike tail tail' (some .lacks) (some .lacks)
  | takes {trees trees' : List ParseTree} {rest rest' : List Token}
      (htrees : ParseTree.bareAll trees = ParseTree.bareAll trees')
      (hrest : SameFront tail tail' rest rest') :
      AnswersAlike tail tail' (some (.takes trees rest)) (some (.takes trees' rest'))
  | breaks {rest rest' : List Token} (hrest : SameFront tail tail' rest rest') :
      AnswersAlike tail tail' (some (.breaks rest)) (some (.breaks rest'))

/-- A step that makes the same of lists that are alike. -/
def StepsAlike (tail tail' : List Token) (step : Scan) (p : Pattern) : Prop :=
  ∀ ⦃ts ts'⦄, SameFront tail tail' ts ts' → AnswersAlike tail tail' (step p ts) (step p ts')

variable {tail tail' ts ts' rest rest' : List Token}

theorem SameFront.length_eq (h : SameFront tail tail' ts ts') :
    ts.length + tail'.length = ts'.length + tail.length := by
  induction h with
  | tail => omega
  | cons _ _ ih => simp only [List.length_cons]; omega

theorem SameFront.append {us us' : List Token} (h : us.map Token.bare = us'.map Token.bare) :
    SameFront tail tail' (us ++ tail) (us' ++ tail') := by
  induction us generalizing us' with
  | nil =>
    obtain rfl := List.map_eq_nil_iff.1 h.symm
    exact .tail
  | cons u us ih =>
    obtain ⟨u', us'', rfl, hu, hus⟩ := List.map_eq_cons_iff.1 h.symm
    exact .cons hu.symm (ih hus.symm)

/-- Nothing but the tail is like the tail. -/
theorem SameFront.eq_tail (h : SameFront tail tail' tail rest) : rest = tail' := by
  have hlonger : ∀ {us us' : List Token}, SameFront tail tail' us us' →
      tail.length ≤ us.length := by
    intro us us' h
    induction h with
    | tail => exact Nat.le_refl _
    | cons _ _ ih => exact Nat.le_succ_of_le ih
  cases h with
  | tail => rfl
  | cons _ more => exact absurd (hlonger more) (Nat.not_succ_le_self _)

/-- A break is as far away in the one list as in the other. -/
theorem isFar_alike (h : SameFront tail tail' ts ts') (hrest : SameFront tail tail' rest rest') :
    isFar ts rest = isFar ts' rest' := by
  have hts := h.length_eq
  have hrest := hrest.length_eq
  unfold isFar
  rw [decide_eq_decide]
  omega

theorem AnswersAlike.behind {a a' : Option Answer} (h : AnswersAlike tail tail' a a')
    {trees trees' : List ParseTree}
    (htrees : ParseTree.bareAll trees = ParseTree.bareAll trees') :
    AnswersAlike tail tail' (a.map (Answer.behind trees)) (a'.map (Answer.behind trees')) := by
  cases h with
  | none => exact .none
  | lacks => exact .lacks
  | takes hmore hrest =>
    refine .takes ?_ hrest
    rw [ParseTree.bareAll_append, ParseTree.bareAll_append, htrees, hmore]
  | breaks hrest => exact .breaks hrest

/-- One token. Neither a semicolon nor the end of the input is taken. -/
theorem alike_scanToken {p : Token → Bool} (hbare : ∀ t t' : Token, t.bare = t'.bare → p t = p t')
    (heof : ∀ t : Token, t.cls = .eof → p t = false)
    (hsemicolon : ∀ t : Token, t.cls = .punct → t.text = lit ";" → p t = false)
    (htail : Halts tail) (htail' : Halts tail') (h : SameFront tail tail' ts ts') :
    AnswersAlike tail tail' (some (scanToken p ts)) (some (scanToken p ts')) := by
  have hlacks : ∀ {us}, Halts us → scanToken p us = .lacks := by
    rintro us ⟨t, more, rfl, ht⟩
    have hp : p t = false := ht.elim (heof t) fun ht => hsemicolon t ht.1 ht.2
    rw [scanToken, hp]
    rfl
  cases h with
  | tail =>
    rw [hlacks htail, hlacks htail']
    exact .lacks
  | @cons t t' ts ts' heq more =>
    rw [scanToken, scanToken, ← hbare t t' heq]
    cases p t with
    | false => exact .lacks
    | true =>
      refine .takes ?_ more
      rw [ParseTree.bareAll_eq_map, ParseTree.bareAll_eq_map]
      simp only [List.map_cons, List.map_nil, ParseTree.bare, Token.unplaced_eq heq]

theorem alike_scanSeq {step : Scan} {ps : List Pattern}
    (hps : ∀ p ∈ ps, StepsAlike tail tail' step p) (first : Bool)
    (h : SameFront tail tail' ts ts') :
    AnswersAlike tail tail' (scanSeq step first ps ts) (scanSeq step first ps ts') := by
  induction ps generalizing first ts ts' with
  | nil => exact .takes rfl h
  | cons p ps ih =>
    have hp := hps p (List.mem_cons_self ..) h
    unfold scanSeq
    generalize step p ts = a at hp ⊢
    generalize step p ts' = a' at hp ⊢
    cases hp with
    | none => exact .none
    | breaks hrest => exact .breaks hrest
    | lacks =>
      cases first with
      | true => exact .lacks
      | false => exact .breaks h
    | takes htrees hmid =>
      exact (ih (fun q hq => hps q (List.mem_cons_of_mem p hq)) false hmid).behind htrees

theorem alike_scanAlt {step : Scan} {ps : List Pattern}
    (hps : ∀ p ∈ ps, StepsAlike tail tail' step p) (seen : Bool)
    (h : SameFront tail tail' ts ts') :
    AnswersAlike tail tail' (scanAlt step ps seen ts) (scanAlt step ps seen ts') := by
  induction ps generalizing seen with
  | nil =>
    cases seen with
    | true => exact .breaks h
    | false => exact .lacks
  | cons p ps ih =>
    have hp := hps p (List.mem_cons_self ..) h
    have hmore := fun seen => ih (fun q hq => hps q (List.mem_cons_of_mem p hq)) seen
    unfold scanAlt
    generalize step p ts = a at hp ⊢
    generalize step p ts' = a' at hp ⊢
    cases hp with
    | none => exact .none
    | lacks => exact hmore seen
    | takes htrees hrest => exact .takes htrees hrest
    | @breaks rest rest' hrest =>
      simp only [isFar_alike h hrest]
      cases isFar ts' rest' with
      | true => exact .breaks hrest
      | false => exact hmore true

/-- A repetition with the same number of rounds, or with numbers that are never reached. -/
theorem alike_scanMany {step : Scan} {p : Pattern} (hp : StepsAlike tail tail' step p)
    (hshort : ∀ us trees mid, step p us = some (.takes trees mid) → p.isNullable = false →
      mid.length < us.length) (capped : Bool) {rounds rounds' : Nat}
    (h : SameFront tail tail' ts ts')
    (hrounds : rounds = rounds' ∨
      p.isNullable = false ∧ ts.length < rounds ∧ ts'.length < rounds') :
    AnswersAlike tail tail' (scanMany step p capped rounds ts)
      (scanMany step p capped rounds' ts') := by
  induction rounds generalizing rounds' ts ts' with
  | zero =>
    rcases hrounds with rfl | ⟨-, hlt, -⟩
    · cases capped with
      | true => exact .breaks h
      | false => exact .takes rfl h
    · exact absurd hlt (Nat.not_lt_zero _)
  | succ rounds ih =>
    obtain ⟨rounds', rfl⟩ : ∃ k, rounds' = k + 1 := ⟨rounds' - 1, by omega⟩
    have hstep := hp h
    unfold scanMany
    generalize ha : step p ts = a at hstep ⊢
    generalize ha' : step p ts' = a' at hstep ⊢
    cases hstep with
    | none => exact .none
    | lacks => exact .takes rfl h
    | @breaks rest rest' hrest =>
      simp only [isFar_alike h hrest]
      cases isFar ts' rest' with
      | true => exact .breaks hrest
      | false => exact .takes rfl h
    | @takes trees trees' mid mid' htrees hmid =>
      refine (ih hmid ?_).behind htrees
      -- A number that is never reached stays ahead, because each round takes a token.
      rcases hrounds with hsame | ⟨hnull, hlt, hlt'⟩
      · exact .inl (by omega)
      · have := hshort ts trees mid ha hnull
        have := hshort ts' trees' mid' ha' hnull
        exact .inr ⟨hnull, by omega, by omega⟩

/-- What is read inside a statement depends neither on places nor on the tail. -/
theorem alike_scan (htail : Halts tail) (htail' : Halts tail') (limit : Option Nat) (fuel : Nat)
    (p : Pattern) (hp : p.isBodily = true) : StepsAlike tail tail' (scan limit fuel) p := by
  induction fuel generalizing p with
  | zero => exact fun _ _ _ => .none
  | succ fuel ih =>
    intro ts ts' h
    have hshort : ∀ {q : Pattern} us trees mid, scan limit fuel q us = some (.takes trees mid) →
        q.isNullable = false → mid.length < us.length := fun us trees mid hread hnull =>
      (length_rest_of_scan hread).2 hnull
    -- The two marks a tail may start with, a semicolon and the end, are asked for by no bodily
    -- pattern.
    cases p with
    | text t =>
      have ht : t ≠ lit ";" := by simpa [Pattern.isBodily] using hp
      refine alike_scanToken (fun u u' heq => ?_) (fun u hu => ?_) (fun u _ hu => ?_) htail htail' h
      · obtain ⟨hcls, htext⟩ := BareToken.mk.inj heq
        simp only [hasText, hcls, htext]
      · simp [hasText, hu]
      · simp [hasText, hu, ht.symm]
    | token cls =>
      have hcls : cls ≠ .eof ∧ cls ≠ .punct := by simpa [Pattern.isBodily] using hp
      refine alike_scanToken (fun u u' heq => ?_) (fun u hu => ?_) (fun u hu _ => ?_) htail htail' h
      · simp only [hasClass, (BareToken.mk.inj heq).1]
      · simp [hasClass, hu, hcls.1.symm]
      · simp [hasClass, hu, hcls.2.symm]
    | seq parts =>
      exact alike_scanSeq (fun q hq => ih q (Pattern.isBodily_of_allBodily hp hq)) true h
    | alt choices =>
      exact alike_scanAlt (fun q hq => ih q (Pattern.isBodily_of_allBodily hp hq)) false h
    | opt inner => exact alike_scanMany (ih inner hp) hshort false h (.inl rfl)
    | many inner =>
      have hinner : inner.isBodily = true ∧ inner.isNullable = false := by
        simpa [Pattern.isBodily] using hp
      refine alike_scanMany (ih inner hinner.1) hshort limit.isSome h ?_
      cases limit with
      | none => exact .inr ⟨hinner.2, Nat.lt_succ_self _, Nat.lt_succ_self _⟩
      | some most => exact .inl rfl
    | rule name =>
      have hname : name ≠ .program := by simpa [Pattern.isBodily] using hp
      have hbody := ih name.pattern (Rule.isBodily_pattern hname) h
      -- A branch is named after its rule and starts at the rule's first token, so only the place
      -- differs.
      show AnswersAlike tail tail' ((scan limit fuel name.pattern ts).map (Answer.named name ts))
        ((scan limit fuel name.pattern ts').map (Answer.named name ts'))
      generalize scan limit fuel name.pattern ts = a at hbody ⊢
      generalize scan limit fuel name.pattern ts' = a' at hbody ⊢
      cases hbody with
      | none => exact .none
      | lacks => exact .lacks
      | breaks hrest => exact .breaks hrest
      | takes htrees hrest =>
        refine .takes ?_ hrest
        simp only [ParseTree.bareAll, ParseTree.bare, htrees]

/-- What is read of some tokens is read of the same tokens in front of another tail. -/
theorem Reads.alike (htail : Halts tail) (htail' : Halts tail') {limit : Option Nat} {p : Pattern}
    (hp : p.isBodily = true) (h : SameFront tail tail' ts ts') {trees : List ParseTree}
    (hread : Reads p ts (.takes trees rest) limit) :
    ∃ trees' rest', Reads p ts' (.takes trees' rest') limit ∧ SameFront tail tail' rest rest' ∧
      ParseTree.bareAll trees = ParseTree.bareAll trees' := by
  obtain ⟨fuel, hscan⟩ := hread
  have hanswers := alike_scan htail htail' limit fuel p hp h
  rw [hscan] at hanswers
  generalize ha : scan limit fuel p ts' = a at hanswers
  cases hanswers with
  | @takes _ trees' _ rest' htrees hrest => exact ⟨trees', rest', ⟨fuel, ha⟩, hrest, htrees⟩

end Grammar

end CubeSchema
