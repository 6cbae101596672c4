import CubeSchema.Proofs.Grammar.Scan

/-!
# Faults lie in the source

The matcher reports a token that does not fit. This module shows that the token is one of those it
was given: the end of the input is never taken, so there is always a current token, and what is
remembered from a branch that was given up is about a token too. The same holds of the places in the
tree of a match.
-/

namespace CubeSchema

mutual

/-- Where the rules of a match start. -/
def ParseTree.places : ParseTree → List Position
  | .leaf _ => []
  | .branch _ pos kids => pos :: placesAll kids

/-- Where the rules of a list of matches start. -/
def ParseTree.placesAll : List ParseTree → List Position
  | [] => []
  | tree :: trees => tree.places ++ placesAll trees

end

@[simp] theorem ParseTree.placesAll_append (xs ys : List ParseTree) :
    placesAll (xs ++ ys) = placesAll xs ++ placesAll ys := by
  induction xs with
  | nil => rfl
  | cons x xs ih => simp [placesAll, ih]

namespace Grammar

/-- A reader within a list of tokens. -/
structure Within (all : List Token) (r : Reader) : Prop where
  /-- What it has ahead is an end of the list. -/
  rest : r.rest <:+ all
  /-- The end of the input is still ahead. -/
  ended : ∃ t ∈ r.rest, t.cls = .eof
  /-- What it remembers is about a token of the list. -/
  deepest : ∀ e ∈ r.deepest, e.token ∈ all

/-- What an outcome holds is about tokens of a list. -/
def Outcome.Within (all : List Token) : Outcome → Prop
  | .mismatch => True
  | .matched trees => ∀ p ∈ ParseTree.placesAll trees, p ∈ all.map Token.pos
  | .failed e => e.token ∈ all

/-- A step at a pattern does not leave a list of tokens. -/
def StaysWithin (all : List Token) (step : Step) (p : Pattern) : Prop :=
  ∀ ⦃r out r'⦄, Within all r → step p r = some (out, r') → Outcome.Within all out ∧ Within all r'

namespace Within

variable {all : List Token} {r b : Reader} {e : Unexpected}

theorem exists_rest (h : Within all r) : ∃ rest, r.rest = r.current :: rest := by
  obtain ⟨t, ht, -⟩ := h.ended
  cases hr : r.rest with
  | nil => simp [hr] at ht
  | cons u rest => exact ⟨rest, by simp [Reader.current, hr]⟩

theorem current_mem (h : Within all r) : r.current ∈ all := by
  obtain ⟨rest, hr⟩ := h.exists_rest
  exact h.rest.subset (hr ▸ List.mem_cons_self ..)

/-- Any token but the end may be taken. -/
theorem advance (h : Within all r) (hcls : r.current.cls ≠ .eof) : Within all r.advance := by
  obtain ⟨rest, hr⟩ := h.exists_rest
  have hrest : r.advance.rest = rest := by rw [Reader.advance, hr, List.tail_cons]
  refine ⟨?_, ?_, h.deepest⟩
  · rw [hrest]
    exact (List.suffix_cons r.current rest).trans (hr ▸ h.rest)
  · obtain ⟨t, ht, heof⟩ := h.ended
    rw [hr] at ht
    rw [hrest]
    rcases List.mem_cons.1 ht with rfl | ht
    · exact absurd heof hcls
    · exact ⟨t, ht, heof⟩

theorem note (h : Within all r) (he : e.token ∈ all) : Within all (r.note e) := by
  unfold Reader.note
  split
  · exact ⟨h.rest, h.ended, fun x hx => Option.some.inj hx ▸ he⟩
  · exact h

theorem accept (h : Within all r) (hb : Within all b) : Within all (r.accept b) := by
  unfold Reader.accept
  split
  · exact hb
  · exact ⟨hb.rest, hb.ended, h.deepest⟩

theorem learn (h : Within all r) (hb : Within all b) (he : e.token ∈ all) :
    Within all (r.learn b e) := by
  unfold Reader.learn
  split
  · exact ⟨h.rest, h.ended, hb.deepest⟩
  · split
    · exact ⟨h.rest, h.ended, fun x hx => Option.some.inj hx ▸ he⟩
    · exact h

end Within

variable {all : List Token} {step : Step} {r r' : Reader} {out : Outcome}

/-- The trees of two matches in a row. -/
theorem within_append {xs ys : List ParseTree} (hx : Outcome.Within all (.matched xs))
    (hy : Outcome.Within all (.matched ys)) : Outcome.Within all (.matched (xs ++ ys)) := by
  intro p hp
  rw [ParseTree.placesAll_append] at hp
  rcases List.mem_append.1 hp with hp | hp
  · exact hx p hp
  · exact hy p hp

theorem within_matchToken {p : Token → Bool} (hp : ∀ t : Token, t.cls = .eof → p t = false)
    (h : Within all r) (hout : matchToken p r = (out, r')) :
    Outcome.Within all out ∧ Within all r' := by
  unfold matchToken at hout
  split at hout
  · rename_i hcurrent
    obtain ⟨rfl, rfl⟩ := Prod.mk.inj hout
    refine ⟨fun q hq => by simp [ParseTree.placesAll, ParseTree.places] at hq, h.advance ?_⟩
    intro heof
    simp [hp _ heof] at hcurrent
  · obtain ⟨rfl, rfl⟩ := Prod.mk.inj hout
    exact ⟨trivial, h⟩

theorem within_matchSeq {ps : List Pattern} (hps : ∀ p ∈ ps, StaysWithin all step p) (first : Bool)
    (h : Within all r) (hout : matchSeq step first ps r = some (out, r')) :
    Outcome.Within all out ∧ Within all r' := by
  induction ps generalizing first r out r' with
  | nil =>
    obtain ⟨rfl, rfl⟩ := Prod.mk.inj (Option.some.inj hout)
    exact ⟨fun q hq => by simp [ParseTree.placesAll] at hq, h⟩
  | cons p ps ih =>
    rw [matchSeq] at hout
    obtain ⟨⟨o, b⟩, hstep, hout⟩ := Option.bind_eq_some_iff.1 hout
    obtain ⟨ho, hb⟩ := hps p (List.mem_cons_self ..) h hstep
    -- Each answer of the first part, and behind a match each answer of the others.
    cases o with
    | failed e =>
      obtain ⟨rfl, rfl⟩ := Prod.mk.inj (Option.some.inj hout)
      exact ⟨ho, hb⟩
    | mismatch =>
      cases first with
      | true =>
        obtain ⟨rfl, rfl⟩ := Prod.mk.inj (Option.some.inj hout)
        exact ⟨trivial, hb⟩
      | false =>
        obtain ⟨rfl, rfl⟩ := Prod.mk.inj (Option.some.inj hout)
        exact ⟨hb.current_mem, hb⟩
    | matched trees =>
      obtain ⟨⟨o, c⟩, hmore, hout⟩ := Option.bind_eq_some_iff.1 hout
      obtain ⟨ho', hc⟩ := ih (fun q hq => hps q (List.mem_cons_of_mem p hq)) false hb hmore
      cases o with
      | matched more =>
        obtain ⟨rfl, rfl⟩ := Prod.mk.inj (Option.some.inj hout)
        exact ⟨within_append ho ho', hc⟩
      | mismatch =>
        obtain ⟨rfl, rfl⟩ := Prod.mk.inj (Option.some.inj hout)
        exact ⟨trivial, hc⟩
      | failed e =>
        obtain ⟨rfl, rfl⟩ := Prod.mk.inj (Option.some.inj hout)
        exact ⟨ho', hc⟩

theorem within_matchAlt {ps : List Pattern} (hps : ∀ p ∈ ps, StaysWithin all step p)
    {best : Option Unexpected} (hbest : ∀ e ∈ best, e.token ∈ all) (reach : Nat)
    (h : Within all r) (hout : matchAlt step ps best reach r = some (out, r')) :
    Outcome.Within all out ∧ Within all r' := by
  induction ps generalizing best reach r with
  | nil =>
    cases best with
    | none =>
      obtain ⟨rfl, rfl⟩ := Prod.mk.inj (Option.some.inj hout)
      exact ⟨trivial, h⟩
    | some e =>
      obtain ⟨rfl, rfl⟩ := Prod.mk.inj (Option.some.inj hout)
      exact ⟨hbest e rfl, h.note (hbest e rfl)⟩
  | cons p ps ih =>
    have hps' := fun q hq => hps q (List.mem_cons_of_mem p hq)
    rw [matchAlt] at hout
    obtain ⟨⟨o, b⟩, hstep, hout⟩ := Option.bind_eq_some_iff.1 hout
    obtain ⟨ho, hb⟩ := hps p (List.mem_cons_self ..) h hstep
    cases o with
    | matched trees =>
      obtain ⟨rfl, rfl⟩ := Prod.mk.inj (Option.some.inj hout)
      exact ⟨ho, h.accept hb⟩
    | mismatch => exact ih hps' hbest reach h hout
    | failed e =>
      have hlearn := h.learn hb ho
      simp only [] at hout
      split at hout
      · obtain ⟨rfl, rfl⟩ := Prod.mk.inj (Option.some.inj hout)
        exact ⟨ho, hlearn.accept hb⟩
      · split at hout
        · exact ih hps' (fun x hx => Option.some.inj hx ▸ ho) b.index hlearn hout
        · exact ih hps' hbest reach hlearn hout

theorem within_matchMany {p : Pattern} (hp : StaysWithin all step p)
    (cap : Option (Pattern × Nat)) (rounds : Nat) (h : Within all r)
    (hout : matchMany step p cap rounds r = some (out, r')) :
    Outcome.Within all out ∧ Within all r' := by
  have hnone : Outcome.Within all (.matched []) := fun q hq => by
    simp [ParseTree.placesAll] at hq
  induction rounds generalizing r out r' with
  | zero =>
    rw [matchMany] at hout
    split at hout
    · obtain ⟨rfl, rfl⟩ := Prod.mk.inj (Option.some.inj hout)
      exact ⟨h.current_mem, h⟩
    · obtain ⟨rfl, rfl⟩ := Prod.mk.inj (Option.some.inj hout)
      exact ⟨hnone, h⟩
  | succ rounds ih =>
    rw [matchMany] at hout
    obtain ⟨⟨o, b⟩, hstep, hout⟩ := Option.bind_eq_some_iff.1 hout
    obtain ⟨ho, hb⟩ := hp h hstep
    cases o with
    | mismatch =>
      obtain ⟨rfl, rfl⟩ := Prod.mk.inj (Option.some.inj hout)
      exact ⟨hnone, h.accept hb⟩
    | failed e =>
      -- A failed round is either far away, so that it counts, or the rounds before it are kept.
      have hlearn := (h.note ho).learn hb ho
      simp only [] at hout
      split at hout
      · obtain ⟨rfl, rfl⟩ := Prod.mk.inj (Option.some.inj hout)
        exact ⟨ho, hlearn.accept hb⟩
      · obtain ⟨rfl, rfl⟩ := Prod.mk.inj (Option.some.inj hout)
        exact ⟨hnone, hlearn⟩
    | matched trees =>
      obtain ⟨⟨o, c⟩, hmore, hout⟩ := Option.bind_eq_some_iff.1 hout
      obtain ⟨ho', hc⟩ := ih (h.accept hb) hmore
      cases o with
      | matched more =>
        obtain ⟨rfl, rfl⟩ := Prod.mk.inj (Option.some.inj hout)
        exact ⟨within_append ho ho', hc⟩
      | mismatch =>
        obtain ⟨rfl, rfl⟩ := Prod.mk.inj (Option.some.inj hout)
        exact ⟨trivial, hc⟩
      | failed e =>
        obtain ⟨rfl, rfl⟩ := Prod.mk.inj (Option.some.inj hout)
        exact ⟨ho', hc⟩

/-- The matcher does not leave the tokens it was given. -/
theorem staysWithin_run (limit : Option Nat) (fuel : Nat) (p : Pattern) (hp : p.isInner = true) :
    StaysWithin all (run limit fuel) p := by
  induction fuel generalizing p with
  | zero => exact fun _ _ _ _ hout => nomatch hout
  | succ fuel ih =>
    intro r out r' h hout
    cases p with
    | text t => exact within_matchToken (by intro u hu; simp [hu]) h (Option.some.inj hout)
    | token cls =>
      have hne : cls ≠ .eof := by simpa [Pattern.isInner] using hp
      exact within_matchToken (by intro u hu; simp [hu, hne.symm]) h (Option.some.inj hout)
    | seq parts =>
      exact within_matchSeq (fun q hq => ih q (isInner_of_allInner hp hq)) true h hout
    | alt choices =>
      exact within_matchAlt (fun q hq => ih q (isInner_of_allInner hp hq)) (by simp) 0 h hout
    | opt inner => exact within_matchMany (ih inner hp) none 1 h hout
    | many inner => exact within_matchMany (ih inner hp) _ _ h hout
    | rule name =>
      rw [run] at hout
      obtain ⟨⟨o, b⟩, hbody, hout⟩ := Option.bind_eq_some_iff.1 hout
      obtain ⟨ho, hb⟩ := ih name.pattern name.isInner_pattern h hbody
      cases o with
      | matched trees =>
        obtain ⟨rfl, rfl⟩ := Prod.mk.inj (Option.some.inj hout)
        refine ⟨fun q hq => ?_, hb⟩
        simp only [ParseTree.placesAll, ParseTree.places, List.append_nil] at hq
        rcases List.mem_cons.1 hq with rfl | hq
        · exact List.mem_map_of_mem h.current_mem
        · exact ho q hq
      | mismatch =>
        obtain ⟨rfl, rfl⟩ := Prod.mk.inj (Option.some.inj hout)
        exact ⟨trivial, hb⟩
      | failed e =>
        obtain ⟨rfl, rfl⟩ := Prod.mk.inj (Option.some.inj hout)
        exact ⟨ho, hb.note ho⟩

/-- A fault is about one of the tokens, and the rules of a match start at tokens. -/
theorem within_derive {ts : List Token} (hend : ∃ t ∈ ts, t.cls = .eof) (limit : Option Nat) :
    (∀ e, derive ts limit = .error e → e.token ∈ ts) ∧
      ∀ tree, derive ts limit = .ok tree → ∀ p ∈ tree.places, p ∈ ts.map Token.pos := by
  have hstart : Within ts { index := 0, rest := ts } := ⟨List.suffix_rfl, hend, by simp⟩
  have hrun := fun out r => @staysWithin_run ts limit (fuelFor ts.length) (.rule .program) rfl
    { index := 0, rest := ts } out r hstart
  unfold derive
  generalize run limit (fuelFor ts.length) (.rule .program) { index := 0, rest := ts } = answer
    at hrun ⊢
  -- The fault of a program is the deepest one, the current token, or what the match itself says.
  match answer, hrun with
  | none, _ => exact ⟨fun e he => Except.error.inj he ▸ hstart.current_mem, fun _ h => nomatch h⟩
  | some (out, r), hrun =>
    obtain ⟨hout, hr⟩ := hrun out r rfl
    split
    · rename_i tree r' heq
      obtain ⟨rfl, rfl⟩ := Prod.mk.inj (Option.some.inj heq)
      refine ⟨fun e he => ?_, fun tree' htree p hp => ?_⟩
      · split at he
        · cases he
        · split at he
          · rename_i x hx
            split at he
            · exact Except.error.inj he ▸ hr.deepest x hx
            · exact Except.error.inj he ▸ hr.current_mem
          · exact Except.error.inj he ▸ hr.current_mem
      · have hsame : tree = tree' := by
          split at htree
          · exact Except.ok.inj htree
          · split at htree
            · split at htree <;> cases htree
            · cases htree
        subst hsame
        exact hout p (by simpa [ParseTree.placesAll] using hp)
    · rename_i e r' heq
      obtain ⟨rfl, rfl⟩ := Prod.mk.inj (Option.some.inj heq)
      exact ⟨fun x hx => Except.error.inj hx ▸ hout, fun _ h => nomatch h⟩
    · rename_i o r' _ _ heq
      obtain ⟨rfl, rfl⟩ := Prod.mk.inj (Option.some.inj heq)
      exact ⟨fun x hx => Except.error.inj hx ▸ hr.current_mem, fun _ h => nomatch h⟩
    · rename_i heq
      cases heq

end Grammar

end CubeSchema
