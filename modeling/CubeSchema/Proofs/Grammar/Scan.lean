import CubeSchema.Grammar.Match

/-!
# The matcher without its error reports

`Grammar.run` carries the failure that reached furthest through every step, for the sake of one
message. Nothing else depends on it, and of the place it keeps only the distance between two places
counts. `scan` is the same matcher on plain token lists: a pattern takes a front of the list, or it
is lacking there, or it breaks off at some later place. `agrees_run` relates the two step by step,
and `derive_eq_ok_iff` states the outcome for a whole token list.
-/

namespace CubeSchema

namespace Pattern

mutual

/-- Whether no part of a pattern asks for the end of the input. -/
def isInner : Pattern → Bool
  | text _ | rule _ => true
  | token cls => cls ≠ .eof
  | seq parts => allInner parts
  | alt choices => allInner choices
  | opt inner => inner.isInner
  | many inner => inner.isInner

/-- Whether no part of any pattern of a list asks for the end of the input. -/
def allInner : List Pattern → Bool
  | [] => true
  | p :: ps => p.isInner && allInner ps

end

end Pattern

/-- No rule asks for the end of the input. -/
theorem Rule.isInner_pattern (r : Rule) : r.pattern.isInner = true := by
  cases r <;> rfl

namespace Grammar

/-- What a pattern makes of a token list. -/
inductive Answer where
  /-- The pattern does not start here. -/
  | lacks
  /-- The pattern takes a front of the list, yields trees for it and leaves the rest. -/
  | takes (trees : List ParseTree) (rest : List Token)
  /-- The pattern starts here and breaks off before the rest. -/
  | breaks (rest : List Token)

/-- Matching one pattern on a token list; `none` when the fuel ran out. -/
abbrev Scan := Pattern → List Token → Option Answer

/-- Whether a break before `rest` lies so far behind the start of `ts` that it is final. -/
def isFar (ts rest : List Token) : Bool := Reader.lookahead + rest.length < ts.length

/-- The answer when trees have been taken before. -/
def Answer.behind (trees : List ParseTree) : Answer → Answer
  | .takes more rest => .takes (trees ++ more) rest
  | other => other

/-- Takes one token. -/
def scanToken (p : Token → Bool) : List Token → Answer
  | [] => .lacks
  | t :: rest => if p t then .takes [.leaf t] rest else .lacks

/-- Takes the parts of a sequence in order; `first` says that none has been taken yet. -/
def scanSeq (step : Scan) : Bool → List Pattern → List Token → Option Answer
  | _, [], ts => some (.takes [] ts)
  | first, p :: ps, ts =>
    match step p ts with
    | none => none
    | some (.breaks rest) => some (.breaks rest)
    | some .lacks => some (if first then .lacks else .breaks ts)
    | some (.takes trees mid) => (scanSeq step false ps mid).map (Answer.behind trees)

/-- Tries choices in order; `seen` says that one of them has broken off. -/
def scanAlt (step : Scan) : List Pattern → Bool → List Token → Option Answer
  | [], seen, ts => some (if seen then .breaks ts else .lacks)
  | p :: ps, seen, ts =>
    match step p ts with
    | none => none
    | some (.takes trees rest) => some (.takes trees rest)
    | some .lacks => scanAlt step ps seen ts
    | some (.breaks rest) =>
      if isFar ts rest then some (.breaks rest) else scanAlt step ps true ts

/-- Takes a pattern for some rounds; `capped` says that the repetition breaks off behind the last
one. -/
def scanMany (step : Scan) (p : Pattern) (capped : Bool) : Nat → List Token → Option Answer
  | 0, ts => some (if capped then .breaks ts else .takes [] ts)
  | rounds + 1, ts =>
    match step p ts with
    | none => none
    | some .lacks => some (.takes [] ts)
    | some (.breaks rest) => some (if isFar ts rest then .breaks rest else .takes [] ts)
    | some (.takes trees mid) => (scanMany step p capped rounds mid).map (Answer.behind trees)

/-- The place of the first token of a list. -/
def startOf (ts : List Token) : Position := (Reader.mk 0 ts none 0).pos

/-- Puts a name on what a rule takes. -/
def Answer.named (name : Rule) (ts : List Token) : Answer → Answer
  | .takes trees rest => .takes [.branch name (startOf ts) trees] rest
  | other => other

/-- Whether a token has a given text. -/
def hasText (t : Text) (token : Token) : Bool := token.cls ≠ .eof && token.text = t

/-- Whether a token is of a given class. -/
def hasClass (cls : TokenClass) (token : Token) : Bool := token.cls = cls

/-- Matches a pattern on a token list, where a repetition is limited or not; `fuel` bounds how deep
patterns nest. -/
def scan (limit : Option Nat) : Nat → Scan
  | 0, _, _ => none
  | fuel + 1, pattern, ts =>
    match pattern with
    | .text t => some (scanToken (hasText t) ts)
    | .token cls => some (scanToken (hasClass cls) ts)
    | .seq parts => scanSeq (scan limit fuel) true parts ts
    | .alt choices => scanAlt (scan limit fuel) choices false ts
    | .opt inner => scanMany (scan limit fuel) inner false 1 ts
    | .many inner => scanMany (scan limit fuel) inner limit.isSome (limit.getD (ts.length + 1)) ts
    | .rule name => (scan limit fuel name.pattern ts).map (Answer.named name ts)

/-! ## Agreement with the matcher -/

/-- Two readers count from the same start, so that places are the same when the rests are. -/
def SameEnd (r r' : Reader) : Prop := r'.index + r'.rest.length = r.index + r.rest.length

/-- An outcome at a reader and an answer on its token list say the same. -/
inductive Agrees (r : Reader) : Option (Outcome × Reader) → Option Answer → Prop
  | none : Agrees r none none
  | lacks {r' : Reader} (hr : r'.rest = r.rest) (he : SameEnd r r') :
    Agrees r (some (.mismatch, r')) (some .lacks)
  | takes {r' : Reader} {trees : List ParseTree} (he : SameEnd r r') :
    Agrees r (some (.matched trees, r')) (some (.takes trees r'.rest))
  | breaks {r' : Reader} {e : Unexpected} (he : SameEnd r r') :
    Agrees r (some (.failed e, r')) (some (.breaks r'.rest))

theorem accept_rest (r b : Reader) : (r.accept b).rest = b.rest := by
  unfold Reader.accept
  split <;> rfl

theorem accept_index (r b : Reader) : (r.accept b).index = b.index := by
  unfold Reader.accept
  split <;> rfl

theorem note_rest (r : Reader) (e : Unexpected) : (r.note e).rest = r.rest := by
  unfold Reader.note
  split <;> rfl

theorem note_index (r : Reader) (e : Unexpected) : (r.note e).index = r.index := by
  unfold Reader.note
  split <;> rfl

theorem learn_rest (r b : Reader) (e : Unexpected) : (r.learn b e).rest = r.rest := by
  unfold Reader.learn
  split
  · rfl
  · split <;> rfl

theorem learn_index (r b : Reader) (e : Unexpected) : (r.learn b e).index = r.index := by
  unfold Reader.learn
  split
  · rfl
  · split <;> rfl

/-- What only the reports change keeps the place. -/
theorem SameEnd.of_place {r r₁ b b₁ : Reader} (h : SameEnd r b) (hi : r₁.index = r.index)
    (hr : r₁.rest = r.rest) (hi' : b₁.index = b.index) (hr' : b₁.rest = b.rest) :
    SameEnd r₁ b₁ := by
  unfold SameEnd at h ⊢
  rw [hi, hr, hi', hr', h]

/-- A break is final at a reader exactly when it is far on the token lists. -/
theorem isFinal_eq_isFar {r b : Reader} (h : SameEnd r b) : r.isFinal b = isFar r.rest b.rest := by
  unfold SameEnd at h
  unfold Reader.isFinal isFar
  rw [decide_eq_decide]
  omega

/-- Steps that agree on a pattern at every reader. -/
def StepsAgree (step : Step) (scan : Scan) (p : Pattern) : Prop :=
  ∀ r : Reader, Agrees r (step p r) (scan p r.rest)

/-- An answer behind some trees is lacking only when it was before. -/
theorem Answer.behind_eq_lacks {trees : List ParseTree} {a : Answer} :
    a.behind trees = .lacks ↔ a = .lacks := by
  cases a <;> simp [Answer.behind]

/-- Behind its first part a sequence breaks off where a part is lacking. -/
theorem scanSeq_false_ne_lacks (step : Scan) (ps : List Pattern) (ts : List Token) :
    scanSeq step false ps ts ≠ some .lacks := by
  induction ps generalizing ts with
  | nil => simp [scanSeq]
  | cons p ps ih =>
    unfold scanSeq
    split
    · simp
    · simp
    · simp
    · rename_i mid _
      simp only [ne_eq, Option.map_eq_some_iff, Answer.behind_eq_lacks, exists_eq_right]
      exact ih mid

/-- A repetition is never lacking. -/
theorem scanMany_ne_lacks (step : Scan) (p : Pattern) (capped : Bool) (rounds : Nat)
    (ts : List Token) : scanMany step p capped rounds ts ≠ some .lacks := by
  induction rounds generalizing ts with
  | zero => cases capped <;> simp [scanMany]
  | succ rounds ih =>
    unfold scanMany
    split
    · simp
    · simp
    · split <;> simp
    · rename_i mid _
      simp only [ne_eq, Option.map_eq_some_iff, Answer.behind_eq_lacks, exists_eq_right]
      exact ih mid

/-- A sequence, when its parts agree. -/
theorem agrees_matchSeq {step : Step} {scan : Scan} (ps : List Pattern)
    (h : ∀ p ∈ ps, StepsAgree step scan p) (first : Bool) (r : Reader) :
    Agrees r (matchSeq step first ps r) (scanSeq scan first ps r.rest) := by
  induction ps generalizing first r with
  | nil => exact .takes rfl
  | cons p ps ih =>
    have hp := h p (List.mem_cons_self ..) r
    simp only [matchSeq, scanSeq, bind, Option.bind]
    generalize step p r = out at hp ⊢
    generalize scan p r.rest = answer at hp ⊢
    cases hp with
    | none => exact .none
    | breaks he => exact .breaks he
    | lacks hr he =>
      cases first with
      | true => exact .lacks hr he
      | false => exact hr ▸ .breaks he
    | @takes r' trees he =>
      have hmore := ih (fun q hq => h q (List.mem_cons_of_mem _ hq)) false r'
      -- Behind its first part a sequence is never lacking, so a fault is certain there.
      have hne := scanSeq_false_ne_lacks scan ps r'.rest
      simp only []
      generalize matchSeq step false ps r' = out at hmore ⊢
      generalize scanSeq scan false ps r'.rest = answer at hmore hne ⊢
      cases hmore with
      | none => exact .none
      | breaks he' => exact .breaks (Eq.trans he' he)
      | lacks => exact absurd rfl hne
      | takes he' => exact .takes (Eq.trans he' he)

/-- A choice, when its alternatives agree. `best` is known as soon as one of them has broken off. -/
theorem agrees_matchAlt {step : Step} {scan : Scan} (ps : List Pattern)
    (h : ∀ p ∈ ps, StepsAgree step scan p) (best : Option Unexpected) (reach : Nat)
    (hbest : best = none → reach = 0) (r : Reader) :
    Agrees r (matchAlt step ps best reach r) (scanAlt scan ps best.isSome r.rest) := by
  induction ps generalizing best reach r with
  | nil =>
    cases best with
    | none => exact .lacks rfl rfl
    | some e =>
      have hplace : SameEnd r (r.note e) :=
        SameEnd.of_place (r := r) (b := r) rfl rfl rfl (note_index r e) (note_rest r e)
      have hout := Agrees.breaks (e := e) hplace
      rw [note_rest] at hout
      exact hout
  | cons p ps ih =>
    have hp := h p (List.mem_cons_self ..) r
    have hps := fun q hq => h q (List.mem_cons_of_mem p hq)
    have hstep : scanAlt scan (p :: ps) best.isSome r.rest =
      match scan p r.rest with
      | none => none
      | some (.takes trees rest) => some (.takes trees rest)
      | some .lacks => scanAlt scan ps best.isSome r.rest
      | some (.breaks rest) =>
        if isFar r.rest rest then some (.breaks rest) else scanAlt scan ps true r.rest := rfl
    rw [hstep]
    simp only [matchAlt, bind, Option.bind]
    generalize step p r = out at hp ⊢
    generalize scan p r.rest = answer at hp ⊢
    cases hp with
    | none => exact .none
    | lacks hr he => exact ih hps best reach hbest r
    | @takes b trees he =>
      have hplace : SameEnd r (r.accept b) :=
        he.of_place rfl rfl (accept_index r b) (accept_rest r b)
      have hout := @Agrees.takes _ _ trees hplace
      rw [accept_rest] at hout
      exact hout
    | @breaks b e he =>
      simp only [isFinal_eq_isFar he]
      cases hfar : isFar r.rest b.rest with
      | true =>
        have hplace : SameEnd r ((r.learn b e).accept b) :=
          he.of_place rfl rfl (accept_index _ b) (accept_rest _ b)
        have hout := Agrees.breaks (e := e) hplace
        rw [accept_rest] at hout
        simpa using hout
      | false =>
        -- The reader has only learned something, and some failure is known from here on.
        have hgo : ∀ best' reach', best'.isSome = true →
            Agrees r (matchAlt step ps best' reach' (r.learn b e))
              (scanAlt scan ps true r.rest) := by
          intro best' reach' hsome
          have hnone : best' = none → reach' = 0 := by
            rintro rfl
            simp at hsome
          have hrest := ih hps best' reach' hnone (r.learn b e)
          rw [hsome, learn_rest] at hrest
          have hback : ∀ {x y}, Agrees (r.learn b e) x y → Agrees r x y := by
            intro x y hxy
            cases hxy with
            | none => exact .none
            | lacks hr' he' =>
              exact .lacks (hr'.trans (learn_rest r b e))
                (he'.of_place (learn_index r b e).symm (learn_rest r b e).symm rfl rfl)
            | takes he' =>
              exact .takes (he'.of_place (learn_index r b e).symm (learn_rest r b e).symm rfl rfl)
            | breaks he' =>
              exact .breaks (he'.of_place (learn_index r b e).symm (learn_rest r b e).symm rfl rfl)
          exact hback hrest
        simp only [Bool.false_eq_true, if_false]
        split
        · exact hgo _ _ rfl
        · rename_i hreach
          refine hgo _ _ ?_
          cases best with
          | none =>
            rw [hbest rfl] at hreach
            omega
          | some e' => rfl

/-- A repetition, when its inner pattern agrees. -/
theorem agrees_matchMany {step : Step} {scan : Scan} {p : Pattern} (h : StepsAgree step scan p)
    (cap : Option (Pattern × Nat)) (rounds : Nat) (r : Reader) :
    Agrees r (matchMany step p cap rounds r) (scanMany scan p cap.isSome rounds r.rest) := by
  induction rounds generalizing r with
  | zero =>
    cases cap with
    | none => exact .takes rfl
    | some o => exact .breaks rfl
  | succ rounds ih =>
    have hp := h r
    simp only [matchMany, scanMany, bind, Option.bind]
    generalize step p r = out at hp ⊢
    generalize scan p r.rest = answer at hp ⊢
    cases hp with
    | none => exact .none
    | @lacks b hr he =>
      have hplace : SameEnd r (r.accept b) :=
        he.of_place rfl rfl (accept_index r b) (accept_rest r b)
      have hout := @Agrees.takes _ _ [] hplace
      rw [accept_rest, hr] at hout
      exact hout
    -- A far break is final. A near one ends the repetition where it stands.
    | @breaks b e he =>
      simp only [isFinal_eq_isFar he]
      cases hfar : isFar r.rest b.rest with
      | true =>
        have hplace : SameEnd r (((r.note e).learn b e).accept b) :=
          he.of_place rfl rfl (accept_index _ b) (accept_rest _ b)
        have hout := Agrees.breaks (e := e) hplace
        rw [accept_rest] at hout
        simpa using hout
      | false =>
        have hindex : ((r.note e).learn b e).index = r.index :=
          (learn_index _ b e).trans (note_index r e)
        have hrest : ((r.note e).learn b e).rest = r.rest :=
          (learn_rest _ b e).trans (note_rest r e)
        have hplace : SameEnd r ((r.note e).learn b e) :=
          SameEnd.of_place (r := r) (b := r) rfl rfl rfl hindex hrest
        have hout := @Agrees.takes _ _ [] hplace
        rw [hrest] at hout
        simpa using hout
    | @takes b trees he =>
      have hplace : SameEnd r (r.accept b) :=
        he.of_place rfl rfl (accept_index r b) (accept_rest r b)
      have hmore := ih (r.accept b)
      have hne := scanMany_ne_lacks scan p cap.isSome rounds b.rest
      rw [accept_rest] at hmore
      simp only []
      generalize matchMany step p cap rounds (r.accept b) = out at hmore ⊢
      generalize scanMany scan p cap.isSome rounds b.rest = answer at hmore hne ⊢
      cases hmore with
      | none => exact .none
      | breaks he' => exact .breaks (Eq.trans he' hplace)
      | lacks => exact absurd rfl hne
      | takes he' => exact .takes (Eq.trans he' hplace)

/-- One token. Only the end of the input could be taken from an empty list. -/
theorem agrees_matchToken {p : Token → Bool} (hp : ∀ t : Token, t.cls = .eof → p t = false)
    (r : Reader) : Agrees r (some (matchToken p r)) (some (scanToken p r.rest)) := by
  unfold matchToken
  cases hr : r.rest with
  | nil =>
    have hcur : p r.current = false := by
      apply hp
      simp [Reader.current, hr]
    rw [hcur]
    exact .lacks rfl rfl
  | cons t rest =>
    have hcur : r.current = t := by simp [Reader.current, hr]
    rw [hcur]
    simp only [scanToken]
    cases p t with
    | false => exact .lacks rfl rfl
    | true =>
      have hplace : SameEnd r r.advance := by
        simp only [SameEnd, Reader.advance, hr, List.tail_cons, List.length_cons]
        omega
      have hrest : r.advance.rest = rest := by simp [Reader.advance, hr]
      exact hrest ▸ @Agrees.takes _ _ [.leaf t] hplace

/-- All parts of a list of patterns leave the end of the input alone when the list does. -/
theorem isInner_of_allInner {ps : List Pattern} (h : Pattern.allInner ps = true) {p : Pattern}
    (hp : p ∈ ps) : p.isInner = true := by
  induction ps with
  | nil => simp at hp
  | cons q ps ih =>
    rw [Pattern.allInner, Bool.and_eq_true] at h
    rcases List.mem_cons.1 hp with rfl | hp
    · exact h.1
    · exact ih h.2 hp

variable {limit : Option Nat}

/-- The matcher and its form on token lists agree. -/
theorem agrees_run (fuel : Nat) (p : Pattern) (hp : p.isInner = true) :
    StepsAgree (run limit fuel) (scan limit fuel) p := by
  induction fuel generalizing p with
  | zero =>
    intro r
    exact .none
  | succ fuel ih =>
    intro r
    cases p with
    | text t =>
      apply agrees_matchToken
      intro token heof
      simp [heof]
    | token cls =>
      apply agrees_matchToken
      intro token heof
      have hne : cls ≠ .eof := by simpa [Pattern.isInner] using hp
      simp [heof, hne.symm]
    | seq parts => exact agrees_matchSeq parts (fun q hq => ih q (isInner_of_allInner hp hq)) true r
    | alt choices =>
      exact agrees_matchAlt choices (fun q hq => ih q (isInner_of_allInner hp hq)) none 0
        (fun _ => rfl) r
    | opt inner => exact agrees_matchMany (ih inner hp) none 1 r
    | many inner =>
      have hover : (limit.map (Prod.mk (Pattern.many inner))).isSome = limit.isSome :=
        Option.isSome_map ..
      have hmany := agrees_matchMany (ih inner hp) (limit.map (Prod.mk (Pattern.many inner)))
        (limit.getD (r.rest.length + 1)) r
      rw [hover] at hmany
      exact hmany
    | rule name =>
      have hbody := ih name.pattern name.isInner_pattern r
      simp only [run, scan, bind, Option.bind]
      generalize run limit fuel name.pattern r = out at hbody ⊢
      generalize scan limit fuel name.pattern r.rest = answer at hbody ⊢
      cases hbody with
      | none => exact .none
      | lacks hr he => exact .lacks hr he
      | takes he => exact .takes he
      | @breaks r' e he =>
        -- The matcher notes the fault when it leaves a rule, which moves neither its place nor its
        -- rest.
        have hplace : SameEnd r (r'.note e) :=
          he.of_place rfl rfl (note_index r' e) (note_rest r' e)
        have hout := Agrees.breaks (e := e) hplace
        rw [note_rest] at hout
        exact hout

/-! ## Fuel -/

/-- What a step answers, the other step answers too. -/
def Extends (step step' : Scan) : Prop :=
  ∀ p ts a, step p ts = some a → step' p ts = some a

theorem scanSeq_mono {step step' : Scan} (h : Extends step step') (ps : List Pattern) (first : Bool)
    (ts : List Token) (a : Answer) (ha : scanSeq step first ps ts = some a) :
    scanSeq step' first ps ts = some a := by
  induction ps generalizing first ts a with
  | nil => exact ha
  | cons p ps ih =>
    unfold scanSeq at ha ⊢
    cases hp : step p ts with
    | none => simp [hp] at ha
    | some b =>
      rw [h p ts b hp]
      rw [hp] at ha
      cases b with
      | lacks => exact ha
      | breaks rest => exact ha
      | takes trees mid =>
        obtain ⟨c, hc, rfl⟩ := Option.map_eq_some_iff.1 ha
        exact Option.map_eq_some_iff.2 ⟨c, ih false mid c hc, rfl⟩

theorem scanAlt_mono {step step' : Scan} (h : Extends step step') (ps : List Pattern) (seen : Bool)
    (ts : List Token) (a : Answer) (ha : scanAlt step ps seen ts = some a) :
    scanAlt step' ps seen ts = some a := by
  induction ps generalizing seen with
  | nil => exact ha
  | cons p ps ih =>
    unfold scanAlt at ha ⊢
    cases hp : step p ts with
    | none => simp [hp] at ha
    | some b =>
      rw [h p ts b hp]
      rw [hp] at ha
      cases b with
      | lacks => exact ih seen ha
      | takes trees rest => exact ha
      | breaks rest =>
        simp only [] at ha ⊢
        split
        · rename_i hfar
          simpa [hfar] using ha
        · rename_i hfar
          exact ih true (by simpa [hfar] using ha)

theorem scanMany_mono {step step' : Scan} (h : Extends step step') (p : Pattern) (capped : Bool)
    (rounds : Nat) (ts : List Token) (a : Answer) (ha : scanMany step p capped rounds ts = some a) :
    scanMany step' p capped rounds ts = some a := by
  induction rounds generalizing ts a with
  | zero => exact ha
  | succ rounds ih =>
    unfold scanMany at ha ⊢
    cases hp : step p ts with
    | none => simp [hp] at ha
    | some b =>
      rw [h p ts b hp]
      rw [hp] at ha
      cases b with
      | lacks => exact ha
      | breaks rest => exact ha
      | takes trees mid =>
        obtain ⟨c, hc, rfl⟩ := Option.map_eq_some_iff.1 ha
        exact Option.map_eq_some_iff.2 ⟨c, ih mid c hc, rfl⟩

/-- One more unit of fuel keeps every answer. -/
theorem extends_scan_succ (fuel : Nat) : Extends (scan limit fuel) (scan limit (fuel + 1)) := by
  induction fuel with
  | zero =>
    intro p ts a ha
    simp [scan] at ha
  | succ fuel ih =>
    intro p ts a ha
    cases p with
    | text t => exact ha
    | token cls => exact ha
    | seq parts => exact scanSeq_mono ih parts true ts a ha
    | alt choices => exact scanAlt_mono ih choices false ts a ha
    | opt inner => exact scanMany_mono ih inner false 1 ts a ha
    | many inner => exact scanMany_mono ih inner _ _ ts a ha
    | rule name =>
      obtain ⟨b, hb, rfl⟩ := Option.map_eq_some_iff.1 ha
      exact Option.map_eq_some_iff.2 ⟨b, ih name.pattern ts b hb, rfl⟩

/-- More fuel keeps every answer. -/
theorem extends_scan {fuel fuel' : Nat} (h : fuel ≤ fuel') :
    Extends (scan limit fuel) (scan limit fuel') := by
  induction h with
  | refl => exact fun p ts a ha => ha
  | step _ ih => exact fun p ts a ha => extends_scan_succ _ p ts a (ih p ts a ha)

/-! ## What an answer takes -/

end Grammar

mutual

/-- The tokens of a match from left to right. -/
def ParseTree.leaves : ParseTree → List Token
  | .leaf token => [token]
  | .branch _ _ kids => leavesAll kids

/-- The tokens of a list of matches from left to right. -/
def ParseTree.leavesAll : List ParseTree → List Token
  | [] => []
  | tree :: trees => tree.leaves ++ leavesAll trees

end

@[simp] theorem ParseTree.leavesAll_append (xs ys : List ParseTree) :
    leavesAll (xs ++ ys) = leavesAll xs ++ leavesAll ys := by
  induction xs with
  | nil => rfl
  | cons x xs ih => simp [leavesAll, ih]

namespace Pattern

mutual

/-- Whether a pattern can match without taking a token. -/
def isNullable : Pattern → Bool
  | text _ | token _ => false
  | rule name => name = .program
  | seq parts => allNullable parts
  | alt choices => anyNullable choices
  | opt _ | many _ => true

/-- Whether all patterns of a list can match without taking a token. -/
def allNullable : List Pattern → Bool
  | [] => true
  | p :: ps => p.isNullable && allNullable ps

/-- Whether some pattern of a list can match without taking a token. -/
def anyNullable : List Pattern → Bool
  | [] => false
  | p :: ps => p.isNullable || anyNullable ps

end

end Pattern

/-- Every rule but that of a whole source takes at least one token. -/
theorem Rule.isNullable_pattern (r : Rule) : r.pattern.isNullable = decide (r = .program) := by
  cases r <;> rfl

namespace Grammar

/-- What an answer says about the tokens it takes: the trees hold a front of the list, an empty one
only where that is allowed, and a break leaves a rest that is no longer than the list. -/
inductive Answer.Splits (nullable : Bool) (ts : List Token) : Answer → Prop
  | lacks : Splits nullable ts .lacks
  | takes {trees : List ParseTree} {rest : List Token}
      (hts : ts = ParseTree.leavesAll trees ++ rest)
      (hne : nullable = false → ParseTree.leavesAll trees ≠ []) :
      Splits nullable ts (.takes trees rest)
  | breaks {rest : List Token} (hle : rest.length ≤ ts.length) : Splits nullable ts (.breaks rest)

theorem splits_scanToken (p : Token → Bool) (ts : List Token) :
    (scanToken p ts).Splits false ts := by
  cases ts with
  | nil => exact .lacks
  | cons t rest =>
    simp only [scanToken]
    split
    · exact .takes rfl (by simp [ParseTree.leavesAll, ParseTree.leaves])
    · exact .lacks

theorem splits_scanSeq {step : Scan} (h : ∀ p ts a, step p ts = some a → a.Splits p.isNullable ts)
    (ps : List Pattern) (first : Bool) (ts : List Token) (a : Answer)
    (ha : scanSeq step first ps ts = some a) : a.Splits (Pattern.allNullable ps) ts := by
  induction ps generalizing first ts a with
  | nil =>
    simp only [scanSeq, Option.some.injEq] at ha
    subst ha
    exact .takes rfl (by simp [Pattern.allNullable])
  | cons p ps ih =>
    unfold scanSeq at ha
    split at ha
    · simp at ha
    · rename_i rest hp
      obtain rfl : .breaks rest = a := by simpa using ha
      cases h p ts _ hp with
      | breaks hle => exact .breaks hle
    · split at ha <;> (simp only [Option.some.injEq] at ha; subst ha)
      · exact .lacks
      · exact .breaks (Nat.le_refl _)
    · rename_i trees mid hp
      obtain ⟨b, hb, rfl⟩ := Option.map_eq_some_iff.1 ha
      cases h p ts _ hp with
      | takes hts hne =>
        have hmid := ih false mid b hb
        cases hmid with
        | lacks => exact .lacks
        | breaks hle => exact .breaks (by rw [hts, List.length_append]; omega)
        | takes hts' hne' =>
          refine .takes (by rw [hts, hts', ParseTree.leavesAll_append, List.append_assoc]) ?_
          intro hnull
          rw [Pattern.allNullable, Bool.and_eq_false_iff] at hnull
          rw [ParseTree.leavesAll_append]
          -- Some part takes a token, and the leaves of the whole are those of all parts.
          rcases hnull with hnull | hnull
          · simp [hne hnull]
          · simp [hne' hnull]

theorem splits_scanAlt {step : Scan} (h : ∀ p ts a, step p ts = some a → a.Splits p.isNullable ts)
    (ps : List Pattern) (seen : Bool) (ts : List Token) (a : Answer)
    (ha : scanAlt step ps seen ts = some a) : a.Splits (Pattern.anyNullable ps) ts := by
  induction ps generalizing seen with
  | nil =>
    unfold scanAlt at ha
    split at ha <;> (simp only [Option.some.injEq] at ha; subst ha)
    · exact .breaks (Nat.le_refl _)
    · exact .lacks
  | cons p ps ih =>
    -- A choice may take nothing as soon as one of its alternatives may.
    have hweaken : ∀ {b : Answer}, b.Splits (Pattern.anyNullable ps) ts →
        b.Splits (Pattern.anyNullable (p :: ps)) ts := by
      rintro b (_ | ⟨hts, hne⟩ | hle)
      · exact .lacks
      · refine .takes hts fun hnull => hne ?_
        rw [Pattern.anyNullable, Bool.or_eq_false_iff] at hnull
        exact hnull.2
      · exact .breaks hle
    unfold scanAlt at ha
    split at ha
    · simp at ha
    · rename_i trees rest hp
      obtain rfl : .takes trees rest = a := by simpa using ha
      cases h p ts _ hp with
      | takes hts hne =>
        refine .takes hts fun hnull => hne ?_
        rw [Pattern.anyNullable, Bool.or_eq_false_iff] at hnull
        exact hnull.1
    · exact hweaken (ih seen ha)
    · rename_i rest hp
      split at ha
      · obtain rfl : .breaks rest = a := by simpa using ha
        cases h p ts _ hp with
        | breaks hle => exact .breaks hle
      · exact hweaken (ih true ha)

theorem splits_scanMany {step : Scan} (h : ∀ p ts a, step p ts = some a → a.Splits p.isNullable ts)
    (p : Pattern) (capped : Bool) (rounds : Nat) (ts : List Token) (a : Answer)
    (ha : scanMany step p capped rounds ts = some a) : a.Splits true ts := by
  induction rounds generalizing ts a with
  | zero =>
    simp only [scanMany, Option.some.injEq] at ha
    subst ha
    cases capped with
    | true => exact .breaks (Nat.le_refl _)
    | false => exact .takes rfl (by simp)
  | succ rounds ih =>
    unfold scanMany at ha
    split at ha
    · simp at ha
    · simp only [Option.some.injEq] at ha
      subst ha
      exact .takes rfl (by simp)
    · rename_i rest hp
      split at ha <;> (simp only [Option.some.injEq] at ha; subst ha)
      · cases h p ts _ hp with
        | breaks hle => exact .breaks hle
      · exact .takes rfl (by simp)
    · rename_i trees mid hp
      obtain ⟨b, hb, rfl⟩ := Option.map_eq_some_iff.1 ha
      cases h p ts _ hp with
      | takes hts hne =>
        have hmid := ih mid b hb
        cases hmid with
        | lacks => exact .lacks
        | breaks hle => exact .breaks (by rw [hts, List.length_append]; omega)
        | takes hts' hne' =>
          -- Each round takes a part of what is left, and the rounds take it in order.
          exact .takes (by rw [hts, hts', ParseTree.leavesAll_append, List.append_assoc]) (by simp)

/-- The trees of a match hold exactly the tokens that it takes. -/
theorem splits_scan (fuel : Nat) (p : Pattern) (ts : List Token) (a : Answer)
    (ha : scan limit fuel p ts = some a) : a.Splits p.isNullable ts := by
  induction fuel generalizing p ts a with
  | zero => simp [scan] at ha
  | succ fuel ih =>
    cases p with
    | text t =>
      obtain rfl : scanToken (hasText t) ts = a := by simpa [scan] using ha
      exact splits_scanToken _ ts
    | token cls =>
      obtain rfl : scanToken (hasClass cls) ts = a := by simpa [scan] using ha
      exact splits_scanToken _ ts
    | seq parts => exact splits_scanSeq ih parts true ts a ha
    | alt choices => exact splits_scanAlt ih choices false ts a ha
    | opt inner => exact splits_scanMany ih inner false 1 ts a ha
    | many inner => exact splits_scanMany ih inner _ _ ts a ha
    | rule name =>
      obtain ⟨b, hb, rfl⟩ := Option.map_eq_some_iff.1 ha
      have hbody := ih name.pattern ts b hb
      rw [Rule.isNullable_pattern] at hbody
      cases hbody with
      | lacks => exact .lacks
      | breaks hle => exact .breaks hle
      | takes hts hne =>
        exact .takes (by simpa [ParseTree.leavesAll, ParseTree.leaves] using hts)
          (by simpa [Pattern.isNullable, ParseTree.leavesAll, ParseTree.leaves] using hne)

/-- A match leaves no more tokens than there were, and fewer when it has to take one. -/
theorem length_rest_of_scan {fuel : Nat} {p : Pattern} {ts rest : List Token}
    {trees : List ParseTree} (h : scan limit fuel p ts = some (.takes trees rest)) :
    rest.length ≤ ts.length ∧ (p.isNullable = false → rest.length < ts.length) := by
  cases splits_scan fuel p ts _ h with
  | takes hts hne =>
    rw [hts, List.length_append]
    refine ⟨by omega, fun hnull => ?_⟩
    have hpos := List.length_pos_iff.2 (hne hnull)
    omega

/-! ## Fuel is never short

Between two tokens only finitely many patterns are entered: `Rule.rank` counts them for each rule,
and `Pattern.need` for each pattern. -/

end Grammar

/-- A bound on how deep the patterns of a rule nest before its first token. -/
def Rule.rank : Rule → Nat
  | .ident => 2
  | .templateLiteral | .arrayLiteral | .objectLiteral | .callArgs => 3
  | .varDecl | .binaryOp | .propertyKey | .templatePart => 4
  | .arrowFunction | .primary | .optionalSuffix | .suffix => 5
  | .property => 6
  | .suffixed => 7
  | .objectMember => 8
  | .unary => 9
  | .binaryChain => 11
  | .expression => 13
  | .statement | .element => 15
  | .program => 19

namespace Pattern

mutual

/-- How deep patterns nest before the first token of a pattern. -/
def need : Pattern → Nat
  | text _ | token _ => 1
  | rule name => name.rank
  | seq parts => needSeq parts + 1
  | alt choices => needAlt choices + 1
  | opt inner => inner.need + 1
  | many inner => inner.need + 1

/-- How deep patterns nest before the first token of a sequence. -/
def needSeq : List Pattern → Nat
  | [] => 0
  | p :: ps => if p.isNullable then max p.need (needSeq ps) else p.need

/-- How deep patterns nest before the first token of a choice. -/
def needAlt : List Pattern → Nat
  | [] => 0
  | p :: ps => max p.need (needAlt ps)

end

mutual

/-- Whether a pattern and all its parts need at most 64 units of fuel for a token. -/
def isModest : Pattern → Bool
  | text _ | token _ | rule _ => true
  | seq parts => allModest parts
  | alt choices => allModest choices
  | opt inner => inner.isModest && inner.need ≤ 64
  | many inner => inner.isModest && inner.need ≤ 64

/-- Whether all patterns of a list, and all ends of the list, need at most 64 units of fuel. -/
def allModest : List Pattern → Bool
  | [] => true
  | p :: ps => p.isModest && needSeq (p :: ps) ≤ 64 && allModest ps

end

end Pattern

/-- The patterns of a rule nest less deep than its rank, and each needs little fuel for a token. -/
theorem Rule.need_pattern_lt (r : Rule) : r.pattern.need < r.rank ∧ r.pattern.isModest = true := by
  cases r <;> decide

namespace Grammar

/-- Enough fuel for a pattern at every list that is no longer than `ts`. -/
def Suffices (step : Scan) (fuel : Nat) : Prop :=
  ∀ p ts, p.isModest = true → 64 * ts.length + p.need ≤ fuel → step p ts ≠ none

theorem Suffices.scanSeq_ne_none {step : Scan} {fuel : Nat} (h : Suffices step fuel)
    (hsplit : ∀ p ts trees mid, step p ts = some (.takes trees mid) →
      mid.length ≤ ts.length ∧ (p.isNullable = false → mid.length < ts.length))
    (ps : List Pattern) (hps : Pattern.allModest ps = true) (first : Bool) (ts : List Token)
    (hts : 64 * ts.length + Pattern.needSeq ps ≤ fuel) : scanSeq step first ps ts ≠ none := by
  induction ps generalizing first ts with
  | nil => simp [scanSeq]
  | cons p ps ih =>
    simp only [Pattern.allModest, Bool.and_eq_true, decide_eq_true_eq] at hps
    obtain ⟨⟨hp, -⟩, hmodest⟩ := hps
    have hneed : p.need ≤ Pattern.needSeq (p :: ps) := by
      unfold Pattern.needSeq
      split <;> omega
    unfold scanSeq
    split
    · rename_i hnone
      exact absurd hnone (h p ts hp (by omega))
    · simp
    · simp
    · rename_i trees mid htakes
      obtain ⟨hle, hlt⟩ := hsplit p ts trees mid htakes
      rw [ne_eq, Option.map_eq_none_iff]
      apply ih hmodest
      -- Either a token has been taken, or the next part stands at the same place.
      have hshort : Pattern.needSeq ps ≤ 64 := by
        cases ps with
        | nil => simp [Pattern.needSeq]
        | cons q qs =>
          simp only [Pattern.allModest, Bool.and_eq_true, decide_eq_true_eq] at hmodest
          exact hmodest.1.2
      unfold Pattern.needSeq at hts
      split at hts
      · omega
      · rename_i hnull
        have := hlt (by simpa using hnull)
        omega

theorem Suffices.scanAlt_ne_none {step : Scan} {fuel : Nat} (h : Suffices step fuel)
    (ps : List Pattern) (hps : Pattern.allModest ps = true) (seen : Bool) (ts : List Token)
    (hts : 64 * ts.length + Pattern.needAlt ps ≤ fuel) : scanAlt step ps seen ts ≠ none := by
  induction ps generalizing seen with
  | nil => simp [scanAlt]
  | cons p ps ih =>
    simp only [Pattern.allModest, Bool.and_eq_true, decide_eq_true_eq] at hps
    simp only [Pattern.needAlt] at hts
    have hrest := fun seen' => ih hps.2 seen' (by omega)
    unfold scanAlt
    split
    · rename_i hnone
      exact absurd hnone (h p ts hps.1.1 (by omega))
    · simp
    · exact hrest seen
    · split
      · simp
      · exact hrest true

theorem Suffices.scanMany_ne_none {step : Scan} {fuel : Nat} (h : Suffices step fuel)
    (hsplit : ∀ p ts trees mid, step p ts = some (.takes trees mid) → mid.length ≤ ts.length)
    (p : Pattern) (hp : p.isModest = true) (capped : Bool) (rounds : Nat) (ts : List Token)
    (hts : 64 * ts.length + p.need ≤ fuel) : scanMany step p capped rounds ts ≠ none := by
  induction rounds generalizing ts with
  | zero => simp [scanMany]
  | succ rounds ih =>
    unfold scanMany
    split
    · rename_i hnone
      exact absurd hnone (h p ts hp hts)
    · simp
    · simp
    · rename_i trees mid htakes
      have hle := hsplit p ts trees mid htakes
      rw [ne_eq, Option.map_eq_none_iff]
      exact ih mid (by omega)

/-- Fuel for 64 patterns per token is enough. -/
theorem suffices_scan (fuel : Nat) : Suffices (scan limit fuel) fuel := by
  induction fuel with
  | zero =>
    intro p ts hp hts
    -- Without fuel nothing is enough, for every pattern needs some.
    have hpos : 0 < p.need := by
      cases p with
      | rule name => exact Nat.zero_lt_of_lt name.need_pattern_lt.1
      | _ => simp [Pattern.need]
    omega
  | succ fuel ih =>
    intro p ts hp hts
    have hsplit := fun q ts' trees mid => @length_rest_of_scan limit fuel q ts' mid trees
    cases p with
    | text t => simp [scan]
    | token cls => simp [scan]
    | seq parts =>
      simp only [Pattern.need] at hts
      exact ih.scanSeq_ne_none hsplit parts hp true ts (by omega)
    | alt choices =>
      simp only [Pattern.need] at hts
      exact ih.scanAlt_ne_none choices hp false ts (by omega)
    | opt inner =>
      simp only [Pattern.need] at hts
      simp only [Pattern.isModest, Bool.and_eq_true] at hp
      exact ih.scanMany_ne_none (fun q ts' trees mid hq => (hsplit q ts' trees mid hq).1) inner
        hp.1 false 1 ts (by omega)
    | many inner =>
      simp only [Pattern.need] at hts
      simp only [Pattern.isModest, Bool.and_eq_true] at hp
      exact ih.scanMany_ne_none (fun q ts' trees mid hq => (hsplit q ts' trees mid hq).1) inner
        hp.1 limit.isSome _ ts (by omega)
    | rule name =>
      obtain ⟨hneed, hmodest⟩ := name.need_pattern_lt
      simp only [Pattern.need] at hts
      simp only [scan, ne_eq, Option.map_eq_none_iff]
      exact ih name.pattern ts hmodest (by omega)

/-! ## Reading as a relation -/

/-- A pattern gives an answer on a token list, with whatever fuel it takes. -/
def Reads (p : Pattern) (ts : List Token) (a : Answer) (limit : Option Nat := none) : Prop :=
  ∃ fuel, scan limit fuel p ts = some a

/-- A pattern gives one answer on a token list. -/
theorem Reads.unique {p : Pattern} {ts : List Token} {a b : Answer} (ha : Reads p ts a limit)
    (hb : Reads p ts b limit) : a = b := by
  obtain ⟨m, hm⟩ := ha
  obtain ⟨n, hn⟩ := hb
  have hm' := extends_scan (Nat.le_max_left m n) p ts a hm
  have hn' := extends_scan (Nat.le_max_right m n) p ts b hn
  rw [hm'] at hn'
  exact Option.some.inj hn'

/-- The input has ended at a place where no token is left but the mark of the end. -/
def AtEnd (ts : List Token) : Prop := (Reader.mk 0 ts none 0).current.cls = .eof

/-- The matcher's fuel is enough for every answer. -/
theorem Reads.scan_fuelFor {ts : List Token} {a : Answer}
    (h : Reads (.rule .program) ts a limit) :
    scan limit (fuelFor ts.length) (.rule .program) ts = some a := by
  have hne : scan limit (fuelFor ts.length) (.rule .program) ts ≠ none := by
    apply suffices_scan _ _ _ rfl
    simp only [fuelFor, Pattern.need, Rule.rank]
    omega
  obtain ⟨b, hb⟩ := Option.ne_none_iff_exists'.1 hne
  rw [hb, Reads.unique h ⟨_, hb⟩]

/-- A token list is accepted with a tree exactly when the grammar takes all of it for that tree. -/
theorem derive_eq_ok_iff {ts : List Token} {tree : ParseTree} :
    derive ts limit = .ok tree ↔
      ∃ rest, Reads (.rule .program) ts (.takes [tree] rest) limit ∧ AtEnd rest := by
  have hrun := @agrees_run limit (fuelFor ts.length) (.rule .program) rfl { index := 0, rest := ts }
  have hcurrent : ∀ r : Reader, AtEnd r.rest ↔ r.current.cls = .eof := fun r => Iff.rfl
  constructor
  · intro h
    unfold derive at h
    generalize run limit (fuelFor ts.length) (.rule .program) { index := 0, rest := ts } = out
      at h hrun
    -- Of the four ways in which the two answers agree, only one gives a tree.
    generalize hscan : scan limit (fuelFor ts.length) (.rule .program) ts = answer at hrun
    cases hrun with
    | none => simp at h
    | lacks => simp at h
    | breaks => simp at h
    | @takes r trees he =>
      split at h
      · rename_i tree' r' hout
        simp only [Option.some.injEq, Prod.mk.injEq, Outcome.matched.injEq] at hout
        obtain ⟨rfl, rfl⟩ := hout
        split at h
        · rename_i heof
          obtain rfl : tree' = tree := by simpa using h
          exact ⟨r.rest, ⟨_, hscan⟩, (hcurrent r).2 heof⟩
        · split at h
          · split at h <;> simp at h
          · simp at h
      · simp at h
      · simp at h
      · simp at h
  · rintro ⟨rest, hreads, hend⟩
    rw [hreads.scan_fuelFor] at hrun
    unfold derive
    generalize run limit (fuelFor ts.length) (.rule .program) { index := 0, rest := ts } = out
      at hrun
    cases hrun with
    | @takes r trees he =>
      simp only []
      rw [if_pos ((hcurrent r).1 hend)]

end Grammar

end CubeSchema
