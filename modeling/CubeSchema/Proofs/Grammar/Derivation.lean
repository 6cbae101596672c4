import CubeSchema.Proofs.Grammar.Reads

/-!
# Derivations

What the grammar allows, with no regard to which alternative is tried first and to where a
repetition stops. Every match is a derivation (`Reads.derives`), so that what is shown by induction
over derivations holds of every tree that the matcher yields. `OccursIn` tells what stands in a tree
and which tokens stand in front of it there.
-/

namespace CubeSchema

namespace Grammar

/-- A front of the tokens `ts` can be taken as `p` with these trees, and `rest` is left. -/
inductive Derives : Pattern → List Token → List ParseTree → List Token → Prop
  | text {t : Text} {token : Token} {rest : List Token} (ht : hasText t token = true) :
      Derives (.text t) (token :: rest) [.leaf token] rest
  | token {cls : TokenClass} {token : Token} {rest : List Token} (ht : token.cls = cls) :
      Derives (.token cls) (token :: rest) [.leaf token] rest
  | rule {r : Rule} {ts rest : List Token} {kids : List ParseTree}
      (body : Derives r.pattern ts kids rest) :
      Derives (.rule r) ts [.branch r (startOf ts) kids] rest
  | noParts {ts : List Token} : Derives (.seq []) ts [] ts
  | parts {p : Pattern} {ps : List Pattern} {ts mid rest : List Token}
      {front back : List ParseTree} (first : Derives p ts front mid)
      (more : Derives (.seq ps) mid back rest) : Derives (.seq (p :: ps)) ts (front ++ back) rest
  | choice {p : Pattern} {ps : List Pattern} {ts rest : List Token} {trees : List ParseTree}
      (hp : p ∈ ps) (chosen : Derives p ts trees rest) : Derives (.alt ps) ts trees rest
  | absent {p : Pattern} {ts : List Token} : Derives (.opt p) ts [] ts
  | present {p : Pattern} {ts rest : List Token} {trees : List ParseTree}
      (inner : Derives p ts trees rest) : Derives (.opt p) ts trees rest
  | stop {p : Pattern} {ts : List Token} : Derives (.many p) ts [] ts
  | round {p : Pattern} {ts mid rest : List Token} {front back : List ParseTree}
      (first : Derives p ts front mid) (more : Derives (.many p) mid back rest) :
      Derives (.many p) ts (front ++ back) rest

theorem Derives.exists_token {t : Text} {ts rest : List Token} {trees : List ParseTree}
    (h : Derives (.text t) ts trees rest) :
    ∃ token, ts = token :: rest ∧ hasText t token = true ∧ trees = [.leaf token] := by
  cases h with
  | text ht => exact ⟨_, rfl, ht, rfl⟩

theorem Derives.exists_parts {p : Pattern} {ps : List Pattern} {ts rest : List Token}
    {trees : List ParseTree} (h : Derives (.seq (p :: ps)) ts trees rest) :
    ∃ front mid back, Derives p ts front mid ∧ Derives (.seq ps) mid back rest ∧
      trees = front ++ back := by
  cases h with
  | parts first more => exact ⟨_, _, _, first, more, rfl⟩

/-- All matches of a step are derivations. -/
def IsDerived (step : Scan) : Prop :=
  ∀ p ts trees rest, step p ts = some (.takes trees rest) → Derives p ts trees rest

section

variable {step : Scan} (h : IsDerived step) {ts rest : List Token} {trees : List ParseTree}

include h

theorem derives_of_scanSeq {first : Bool} {ps : List Pattern}
    (ha : scanSeq step first ps ts = some (.takes trees rest)) :
    Derives (.seq ps) ts trees rest := by
  induction ps generalizing first ts trees with
  | nil =>
    obtain ⟨rfl, rfl⟩ := Answer.takes.inj (Option.some.inj ha)
    exact .noParts
  | cons p ps ih =>
    unfold scanSeq at ha
    split at ha
    · cases ha
    · cases ha
    · split at ha <;> cases ha
    · rename_i front mid hp
      obtain ⟨a, hmore, hbehind⟩ := Option.map_eq_some_iff.1 ha
      obtain ⟨back, rfl, rfl⟩ := Answer.behind_eq_takes hbehind
      exact .parts (h _ _ _ _ hp) (ih hmore)

theorem derives_of_scanAlt {seen : Bool} {ps : List Pattern}
    (ha : scanAlt step ps seen ts = some (.takes trees rest)) :
    Derives (.alt ps) ts trees rest := by
  induction ps generalizing seen with
  | nil =>
    unfold scanAlt at ha
    split at ha <;> cases ha
  | cons p ps ih =>
    have hlater : Derives (.alt ps) ts trees rest → Derives (.alt (p :: ps)) ts trees rest := by
      intro h
      cases h with
      | choice hq chosen => exact .choice (List.mem_cons_of_mem _ hq) chosen
    unfold scanAlt at ha
    split at ha
    · cases ha
    · rename_i hp
      exact .choice (List.mem_cons_self ..) (h _ _ _ _ (hp.trans ha))
    · exact hlater (ih ha)
    · split at ha
      · cases ha
      · exact hlater (ih ha)

theorem derives_of_scanMany {p : Pattern} {capped : Bool} {rounds : Nat}
    (ha : scanMany step p capped rounds ts = some (.takes trees rest)) :
    Derives (.many p) ts trees rest := by
  induction rounds generalizing ts trees with
  | zero =>
    unfold scanMany at ha
    split at ha <;> cases ha
    exact .stop
  | succ rounds ih =>
    rcases takes_of_scanMany ha with ⟨rfl, rfl⟩ | ⟨front, mid, back, hp, hmore, rfl⟩
    · exact .stop
    · exact .round (h _ _ _ _ hp) (ih hmore)

theorem derives_of_scanOnce {p : Pattern}
    (ha : scanMany step p false 1 ts = some (.takes trees rest)) :
    Derives (.opt p) ts trees rest := by
  rcases takes_of_scanMany ha with ⟨rfl, rfl⟩ | ⟨front, mid, back, hp, hmore, rfl⟩
  · exact .absent
  · obtain ⟨rfl, rfl⟩ := Answer.takes.inj (Option.some.inj hmore)
    rw [List.append_nil]
    exact .present (h _ _ _ _ hp)

end

theorem isDerived_scan (limit : Option Nat) (fuel : Nat) : IsDerived (scan limit fuel) := by
  induction fuel with
  | zero => exact fun p ts trees rest h => by cases h
  | succ fuel ih =>
    intro p ts trees rest h
    cases p with
    | text t =>
      obtain ⟨token, rfl, ht, rfl⟩ := reads_text_takes.1 ⟨_, h⟩
      exact .text ht
    | token cls =>
      obtain ⟨token, rfl, ht, rfl⟩ := reads_token_takes.1 ⟨_, h⟩
      exact .token ht
    | seq ps => exact derives_of_scanSeq ih h
    | alt ps => exact derives_of_scanAlt ih h
    | opt p => exact derives_of_scanOnce ih h
    | many p => exact derives_of_scanMany ih h
    | rule r =>
      obtain ⟨a, ha, hnamed⟩ := Option.map_eq_some_iff.1 h
      obtain ⟨kids, rfl, rfl⟩ := Answer.named_eq_takes hnamed
      exact .rule (ih _ _ _ _ ha)

/-- A match is a derivation. -/
theorem Reads.derives {limit : Option Nat} {p : Pattern} {ts rest : List Token}
    {trees : List ParseTree} (h : Reads p ts (.takes trees rest) limit) :
    Derives p ts trees rest := by
  obtain ⟨fuel, h⟩ := h
  exact isDerived_scan limit fuel _ _ _ _ h

end Grammar

/-! ## Parts of a tree -/

/-- The tree `x` stands among these trees or in one of them, behind the tokens `before`. -/
inductive ParseTree.OccursIn (x : ParseTree) : List Token → List ParseTree → Prop
  | here {trees : List ParseTree} : OccursIn x [] (x :: trees)
  | inside {r : Rule} {pos : Position} {kids trees : List ParseTree} {before : List Token}
      (h : OccursIn x before kids) : OccursIn x before (.branch r pos kids :: trees)
  | behind {y : ParseTree} {trees : List ParseTree} {before : List Token}
      (h : OccursIn x before trees) : OccursIn x (y.leaves ++ before) (y :: trees)

namespace ParseTree

/-- The tokens of a tree are those in front of a part, those of the part and those behind it. -/
theorem OccursIn.leaves_eq {x : ParseTree} {before : List Token} {trees : List ParseTree}
    (h : x.OccursIn before trees) : ∃ after, leavesAll trees = before ++ x.leaves ++ after := by
  induction h with
  | @here trees => exact ⟨leavesAll trees, rfl⟩
  | @inside r pos kids trees before _ ih =>
    obtain ⟨after, hkids⟩ := ih
    refine ⟨after ++ leavesAll trees, ?_⟩
    rw [leavesAll, leaves, hkids, List.append_assoc]
  | @behind y trees before _ ih =>
    obtain ⟨after, htrees⟩ := ih
    refine ⟨after, ?_⟩
    rw [leavesAll, htrees]
    simp only [List.append_assoc]

/-- What stands among two lists of trees stands among one of them. -/
theorem OccursIn.of_append {x : ParseTree} {before : List Token} {front back : List ParseTree}
    (h : x.OccursIn before (front ++ back)) : x.OccursIn before front ∨
      ∃ before', x.OccursIn before' back ∧ before = leavesAll front ++ before' := by
  induction front generalizing before with
  | nil => exact .inr ⟨before, h, rfl⟩
  | cons y front ih =>
    cases h with
    | here => exact .inl .here
    | inside h => exact .inl (.inside h)
    | behind hmore =>
      rcases ih hmore with hfront | ⟨before', hback, rfl⟩
      · exact .inl (.behind hfront)
      · exact .inr ⟨before', hback, (List.append_assoc ..).symm⟩

/-- In a tree by itself, a part is the tree or stands in it. -/
theorem OccursIn.of_branch {x : ParseTree} {before : List Token} {r : Rule} {pos : Position}
    {kids : List ParseTree} (h : x.OccursIn before [.branch r pos kids]) :
    x = .branch r pos kids ∨ x.OccursIn before kids := by
  cases h with
  | here => exact .inl rfl
  | inside h => exact .inr h
  | behind h => cases h

end ParseTree

end CubeSchema
