import CubeSchema.Proofs.Grammar.Scan

/-!
# Rules for reading

How the answer of a pattern follows from the answers of its parts, without fuel. The equivalences
for `takes` are used in both directions: to show that a text is read, and to find out what a text
must look like that has been read. A choice goes on behind an alternative that declines: one that is
lacking, or that breaks off nearby.
-/

namespace CubeSchema.Grammar

/-- A break within the lookahead is not far. -/
theorem isFar_eq_false {ts rest : List Token} (h : ts.length ≤ Reader.lookahead + rest.length) :
    isFar ts rest = false := by
  unfold isFar
  exact decide_eq_false (by omega)

/-- A pattern does not match here, and a choice may go on to its next alternative. -/
def Declines (p : Pattern) (ts : List Token) (limit : Option Nat := none) : Prop :=
  Reads p ts .lacks limit ∨ ∃ rest, Reads p ts (.breaks rest) limit ∧ isFar ts rest = false

/-- A pattern does not match here and has not moved when it says so. -/
def Refuses (p : Pattern) (ts : List Token) (limit : Option Nat := none) : Prop :=
  Reads p ts .lacks limit ∨ Reads p ts (.breaks ts) limit

variable {limit : Option Nat}

theorem Refuses.declines {p : Pattern} {ts : List Token} (h : Refuses p ts limit) :
    Declines p ts limit := by
  rcases h with h | h
  · exact .inl h
  · exact .inr ⟨ts, h, isFar_eq_false (by omega)⟩

/-- A pattern that declines does not match. -/
theorem Declines.not_takes {p : Pattern} {ts rest : List Token} {trees : List ParseTree}
    (h : Declines p ts limit) : ¬ Reads p ts (.takes trees rest) limit := by
  intro ht
  rcases h with h | ⟨b, h, -⟩
  · exact absurd (h.unique ht) (by simp)
  · exact absurd (h.unique ht) (by simp)

/-! ## What is left -/

/-- What a pattern takes is a front of the token list. -/
theorem Reads.eq_append {p : Pattern} {ts rest : List Token} {trees : List ParseTree}
    (h : Reads p ts (.takes trees rest) limit) : ts = ParseTree.leavesAll trees ++ rest := by
  obtain ⟨fuel, h⟩ := h
  cases splits_scan fuel p ts _ h with
  | takes hts _ => exact hts

/-- A pattern that has to take a token leaves fewer. -/
theorem Reads.length_lt {p : Pattern} {ts rest : List Token} {trees : List ParseTree}
    (h : Reads p ts (.takes trees rest) limit) (hp : p.isNullable = false) :
    rest.length < ts.length := by
  obtain ⟨fuel, h⟩ := h
  exact (length_rest_of_scan h).2 hp

/-- No pattern leaves more tokens than there were. -/
theorem Reads.length_le {p : Pattern} {ts rest : List Token} {trees : List ParseTree}
    (h : Reads p ts (.takes trees rest) limit) : rest.length ≤ ts.length := by
  obtain ⟨fuel, h⟩ := h
  exact (length_rest_of_scan h).1

/-- A break leaves no more tokens than there were. -/
theorem Reads.length_breaks {p : Pattern} {ts rest : List Token}
    (h : Reads p ts (.breaks rest) limit) : rest.length ≤ ts.length := by
  obtain ⟨fuel, h⟩ := h
  cases splits_scan fuel p ts _ h with
  | breaks hle => exact hle

/-! ## Answers with something in front -/

/-- What an answer behind some trees takes are these trees and what it takes itself. -/
theorem Answer.behind_eq_takes {front trees : List ParseTree} {rest : List Token} {a : Answer}
    (h : a.behind front = .takes trees rest) :
    ∃ back, a = .takes back rest ∧ front ++ back = trees := by
  cases a with
  | lacks => cases h
  | breaks b => cases h
  | takes back rest' =>
    obtain ⟨htrees, rfl⟩ := Answer.takes.inj h
    exact ⟨back, rfl, htrees⟩

/-- What an answer with a name on it takes is a branch of that name. -/
theorem Answer.named_eq_takes {name : Rule} {ts rest : List Token} {trees : List ParseTree}
    {a : Answer} (h : a.named name ts = .takes trees rest) :
    ∃ kids, a = .takes kids rest ∧ [.branch name (startOf ts) kids] = trees := by
  cases a with
  | lacks => cases h
  | breaks b => cases h
  | takes kids rest' =>
    obtain ⟨htrees, rfl⟩ := Answer.takes.inj h
    exact ⟨kids, rfl, htrees⟩

/-! ## Tokens and rules -/

theorem reads_text_takes {t : Text} {ts rest : List Token} {trees : List ParseTree} :
    Reads (.text t) ts (.takes trees rest) limit ↔
      ∃ token, ts = token :: rest ∧ hasText t token = true ∧ trees = [.leaf token] := by
  constructor
  · rintro ⟨_ | fuel, h⟩
    · simp [scan] at h
    · cases ts with
      | nil => simp [scan, scanToken] at h
      | cons token ts =>
        cases ht : hasText t token <;> simp [scan, scanToken, ht] at h
        exact ⟨token, by rw [h.2], ht, h.1.symm⟩
  · rintro ⟨token, rfl, ht, rfl⟩
    exact ⟨1, by simp [scan, scanToken, ht]⟩

theorem reads_token_takes {cls : TokenClass} {ts rest : List Token} {trees : List ParseTree} :
    Reads (.token cls) ts (.takes trees rest) limit ↔
      ∃ token, ts = token :: rest ∧ token.cls = cls ∧ trees = [.leaf token] := by
  constructor
  · rintro ⟨_ | fuel, h⟩
    · simp [scan] at h
    · cases ts with
      | nil => simp [scan, scanToken] at h
      | cons token ts =>
        by_cases ht : token.cls = cls <;> simp [scan, scanToken, hasClass, ht] at h
        exact ⟨token, by rw [h.2], ht, h.1.symm⟩
  · rintro ⟨token, rfl, ht, rfl⟩
    exact ⟨1, by simp [scan, scanToken, hasClass, ht]⟩

theorem reads_text_cons {t : Text} {token : Token} (h : hasText t token = true) (ts : List Token) :
    Reads (.text t) (token :: ts) (.takes [.leaf token] ts) :=
  reads_text_takes.2 ⟨token, rfl, h, rfl⟩

theorem reads_token_cons {cls : TokenClass} {token : Token} (h : token.cls = cls)
    (ts : List Token) : Reads (.token cls) (token :: ts) (.takes [.leaf token] ts) :=
  reads_token_takes.2 ⟨token, rfl, h, rfl⟩

theorem reads_text_lacks {t : Text} {token : Token} {ts : List Token}
    (h : hasText t token = false) : Reads (.text t) (token :: ts) .lacks limit :=
  ⟨1, by simp [scan, scanToken, h]⟩

theorem reads_token_lacks {cls : TokenClass} {token : Token} {ts : List Token}
    (h : token.cls ≠ cls) : Reads (.token cls) (token :: ts) .lacks limit :=
  ⟨1, by simp [scan, scanToken, hasClass, h]⟩

theorem Reads.rule {name : Rule} {ts : List Token} {a : Answer}
    (h : Reads name.pattern ts a limit) : Reads (.rule name) ts (a.named name ts) limit := by
  obtain ⟨fuel, h⟩ := h
  exact ⟨fuel + 1, by simp [scan, h]⟩

theorem reads_rule_takes {name : Rule} {ts rest : List Token} {trees : List ParseTree} :
    Reads (.rule name) ts (.takes trees rest) limit ↔
      ∃ kids, Reads name.pattern ts (.takes kids rest) limit ∧
        trees = [.branch name (startOf ts) kids] := by
  constructor
  · rintro ⟨_ | fuel, h⟩
    · simp [scan] at h
    · obtain ⟨a, ha, hnamed⟩ := Option.map_eq_some_iff.1 h
      obtain ⟨kids, rfl, rfl⟩ := Answer.named_eq_takes hnamed
      exact ⟨kids, ⟨fuel, ha⟩, rfl⟩
  · rintro ⟨kids, h, rfl⟩
    exact h.rule

theorem Refuses.rule {name : Rule} {ts : List Token} (h : Refuses name.pattern ts limit) :
    Refuses (.rule name) ts limit := by
  rcases h with h | h
  · exact .inl h.rule
  · exact .inr h.rule

theorem Declines.rule {name : Rule} {ts : List Token} (h : Declines name.pattern ts limit) :
    Declines (.rule name) ts limit := by
  rcases h with h | ⟨rest, h, hfar⟩
  · exact .inl h.rule
  · exact .inr ⟨rest, h.rule, hfar⟩

/-! ## Sequences -/

/-- A sequence is read when its parts are, whatever fuel they need. -/
theorem reads_seq_iff {ps : List Pattern} {ts : List Token} {a : Answer} :
    Reads (.seq ps) ts a limit ↔ ∃ fuel, scanSeq (scan limit fuel) true ps ts = some a := by
  constructor
  · rintro ⟨_ | fuel, h⟩
    · simp [scan] at h
    · exact ⟨fuel, h⟩
  · rintro ⟨fuel, h⟩
    exact ⟨fuel + 1, h⟩

/-- What a sequence takes does not depend on whether something has been taken before it. -/
theorem scanSeq_takes_iff (step : Scan) (first first' : Bool) (ps : List Pattern)
    (ts rest : List Token) (trees : List ParseTree) :
    scanSeq step first ps ts = some (.takes trees rest) ↔
      scanSeq step first' ps ts = some (.takes trees rest) := by
  cases ps with
  | nil => rfl
  | cons p ps =>
    unfold scanSeq
    cases step p ts with
    | none => rfl
    | some a =>
      cases a with
      | lacks => cases first <;> cases first' <;> simp
      | breaks b => rfl
      | takes trees' mid => rfl

/-- Behind other parts, a sequence breaks off where it does in front, and also where it is lacking
in front. -/
theorem scanSeq_breaks_behind {step : Scan} {ps : List Pattern} {ts rest : List Token}
    (h : scanSeq step true ps ts = some (.breaks rest) ∨
      scanSeq step true ps ts = some .lacks ∧ rest = ts) :
    scanSeq step false ps ts = some (.breaks rest) := by
  cases ps with
  | nil => simp [scanSeq] at h
  | cons p ps =>
    unfold scanSeq at h ⊢
    cases hp : step p ts with
    | none => simp [hp] at h
    | some a =>
      cases a with
      | lacks => simpa [hp, eq_comm] using h
      | breaks b => simpa [hp] using h
      | takes trees mid =>
        -- The other parts stand behind the first one now, so they are never lacking.
        simp only [hp] at h ⊢
        refine h.resolve_right fun hlacks => ?_
        obtain ⟨b, hb, hbehind⟩ := Option.map_eq_some_iff.1 hlacks.1
        obtain rfl := Answer.behind_eq_lacks.1 hbehind
        exact scanSeq_false_ne_lacks _ ps mid hb

/-- An empty sequence takes nothing. -/
theorem reads_seq_nil {ts rest : List Token} {trees : List ParseTree} :
    Reads (.seq []) ts (.takes trees rest) limit ↔ trees = [] ∧ rest = ts := by
  rw [reads_seq_iff]
  simp [scanSeq, eq_comm]

/-- A sequence takes what its first part takes and then what its other parts take. -/
theorem reads_seq_cons {p : Pattern} {ps : List Pattern} {ts rest : List Token}
    {trees : List ParseTree} : Reads (.seq (p :: ps)) ts (.takes trees rest) limit ↔
      ∃ front mid back, Reads p ts (.takes front mid) limit ∧
        Reads (.seq ps) mid (.takes back rest) limit ∧ trees = front ++ back := by
  constructor
  · intro h
    obtain ⟨fuel, h⟩ := reads_seq_iff.1 h
    unfold scanSeq at h
    split at h
    · simp at h
    · simp at h
    · simp at h
    · rename_i front mid hp
      obtain ⟨a, ha, hbehind⟩ := Option.map_eq_some_iff.1 h
      obtain ⟨back, rfl, rfl⟩ := Answer.behind_eq_takes hbehind
      exact ⟨front, mid, back, ⟨fuel, hp⟩,
        reads_seq_iff.2 ⟨fuel, (scanSeq_takes_iff _ false true ps mid rest back).1 ha⟩, rfl⟩
  · rintro ⟨front, mid, back, ⟨m, hm⟩, hs, rfl⟩
    obtain ⟨n, hn⟩ := reads_seq_iff.1 hs
    -- The larger amount of fuel suffices for the first part and for the others.
    have hp := extends_scan (Nat.le_max_left m n) p ts _ hm
    have hps := scanSeq_mono (extends_scan (Nat.le_max_right m n)) ps true mid _ hn
    rw [scanSeq_takes_iff _ true false] at hps
    refine reads_seq_iff.2 ⟨max m n, ?_⟩
    unfold scanSeq
    simp [hp, hps, Answer.behind]

theorem Reads.seq {p : Pattern} {ps : List Pattern} {ts mid rest : List Token}
    {front back : List ParseTree} (h : Reads p ts (.takes front mid) limit)
    (hs : Reads (.seq ps) mid (.takes back rest) limit) :
    Reads (.seq (p :: ps)) ts (.takes (front ++ back) rest) limit :=
  reads_seq_cons.2 ⟨front, mid, back, h, hs, rfl⟩

theorem Reads.seq_last {p : Pattern} {ts rest : List Token} {trees : List ParseTree}
    (h : Reads p ts (.takes trees rest) limit) : Reads (.seq [p]) ts (.takes trees rest) limit :=
  reads_seq_cons.2 ⟨trees, rest, [], h, reads_seq_nil.2 ⟨rfl, rfl⟩, (List.append_nil _).symm⟩

/-- A sequence is lacking where its first part is. -/
theorem Reads.seq_lacks {p : Pattern} {ps : List Pattern} {ts : List Token}
    (h : Reads p ts .lacks limit) : Reads (.seq (p :: ps)) ts .lacks limit := by
  obtain ⟨fuel, h⟩ := h
  refine reads_seq_iff.2 ⟨fuel, ?_⟩
  unfold scanSeq
  simp [h]

/-- A sequence breaks off where its first part does. -/
theorem Reads.seq_breaks {p : Pattern} {ps : List Pattern} {ts rest : List Token}
    (h : Reads p ts (.breaks rest) limit) : Reads (.seq (p :: ps)) ts (.breaks rest) limit := by
  obtain ⟨fuel, h⟩ := h
  refine reads_seq_iff.2 ⟨fuel, ?_⟩
  unfold scanSeq
  simp [h]

/-- A sequence breaks off where its other parts break off, or are lacking, behind its first one. -/
theorem Reads.seq_breaks_later {p : Pattern} {ps : List Pattern} {ts mid rest : List Token}
    {front : List ParseTree} (hp : Reads p ts (.takes front mid) limit)
    (h : Reads (.seq ps) mid (.breaks rest) limit ∨
      (Reads (.seq ps) mid .lacks limit ∧ rest = mid)) :
    Reads (.seq (p :: ps)) ts (.breaks rest) limit := by
  have hlater : ∃ fuel, scanSeq (scan limit fuel) false ps mid = some (.breaks rest) := by
    rcases h with h | ⟨h, hrest⟩
    · obtain ⟨fuel, h⟩ := reads_seq_iff.1 h
      exact ⟨fuel, scanSeq_breaks_behind (.inl h)⟩
    · obtain ⟨fuel, h⟩ := reads_seq_iff.1 h
      exact ⟨fuel, scanSeq_breaks_behind (.inr ⟨h, hrest⟩)⟩
  obtain ⟨m, hm⟩ := hp
  obtain ⟨n, hn⟩ := hlater
  have hp := extends_scan (Nat.le_max_left m n) p ts _ hm
  have hps := scanSeq_mono (extends_scan (Nat.le_max_right m n)) ps false mid _ hn
  refine reads_seq_iff.2 ⟨max m n, ?_⟩
  unfold scanSeq
  simp [hp, hps, Answer.behind]

/-- A sequence declines where its first part does. -/
theorem Declines.seq {p : Pattern} {ps : List Pattern} {ts : List Token} (h : Declines p ts limit) :
    Declines (.seq (p :: ps)) ts limit := by
  rcases h with h | ⟨rest, h, hfar⟩
  · exact .inl h.seq_lacks
  · exact .inr ⟨rest, h.seq_breaks, hfar⟩

/-! ## Choices -/

/-- What a choice takes does not depend on whether an alternative has broken off before. -/
theorem scanAlt_takes_iff (step : Scan) (seen seen' : Bool) (ps : List Pattern)
    (ts rest : List Token) (trees : List ParseTree) :
    scanAlt step ps seen ts = some (.takes trees rest) ↔
      scanAlt step ps seen' ts = some (.takes trees rest) := by
  induction ps generalizing seen seen' with
  | nil => cases seen <;> cases seen' <;> simp [scanAlt]
  | cons p ps ih =>
    unfold scanAlt
    cases step p ts with
    | none => rfl
    | some a =>
      cases a with
      | takes trees' rest' => rfl
      | lacks => exact ih seen seen'
      | breaks b => rfl

/-- A choice is read when its alternatives are, whatever fuel they need. -/
theorem reads_alt_iff {ps : List Pattern} {ts : List Token} {a : Answer} :
    Reads (.alt ps) ts a limit ↔ ∃ fuel, scanAlt (scan limit fuel) ps false ts = some a := by
  constructor
  · rintro ⟨_ | fuel, h⟩
    · simp [scan] at h
    · exact ⟨fuel, h⟩
  · rintro ⟨fuel, h⟩
    exact ⟨fuel + 1, h⟩

/-- A choice goes on behind an alternative that is lacking. -/
theorem Reads.alt_behind_lacks {p : Pattern} {ps : List Pattern} {ts : List Token} {a : Answer}
    (h : Reads (.alt ps) ts a limit) (hp : Reads p ts .lacks limit) :
    Reads (.alt (p :: ps)) ts a limit := by
  obtain ⟨m, hm⟩ := hp
  obtain ⟨n, hn⟩ := reads_alt_iff.1 h
  have hp := extends_scan (Nat.le_max_left m n) p ts _ hm
  have hps := scanAlt_mono (extends_scan (Nat.le_max_right m n)) ps false ts _ hn
  refine reads_alt_iff.2 ⟨max m n, ?_⟩
  unfold scanAlt
  simp [hp, hps]

/-- An empty choice takes nothing. -/
theorem reads_alt_nil {ts rest : List Token} {trees : List ParseTree} :
    ¬ Reads (.alt []) ts (.takes trees rest) limit := by
  simp [reads_alt_iff, scanAlt]

/-- A choice takes what its first alternative takes, or what the others take when that one
declines. -/
theorem reads_alt_cons {p : Pattern} {ps : List Pattern} {ts rest : List Token}
    {trees : List ParseTree} : Reads (.alt (p :: ps)) ts (.takes trees rest) limit ↔
      Reads p ts (.takes trees rest) limit ∨
        Declines p ts limit ∧ Reads (.alt ps) ts (.takes trees rest) limit := by
  constructor
  · intro h
    obtain ⟨fuel, h⟩ := reads_alt_iff.1 h
    unfold scanAlt at h
    split at h
    · simp at h
    · rename_i hp
      simp only [Option.some.injEq, Answer.takes.injEq] at h
      obtain ⟨rfl, rfl⟩ := h
      exact .inl ⟨fuel, hp⟩
    · rename_i hp
      exact .inr ⟨.inl ⟨fuel, hp⟩, reads_alt_iff.2 ⟨fuel, h⟩⟩
    · rename_i b hp
      split at h
      · simp at h
      · rename_i hfar
        exact .inr ⟨.inr ⟨b, ⟨fuel, hp⟩, by simpa using hfar⟩, reads_alt_iff.2 ⟨fuel,
          (scanAlt_takes_iff _ true false ps ts rest trees).1 h⟩⟩
  · rintro (⟨fuel, h⟩ | ⟨hp | ⟨b, ⟨m, hm⟩, hfar⟩, hs⟩)
    · exact ⟨fuel + 1, by simp [scan, scanAlt, h]⟩
    · exact hs.alt_behind_lacks hp
    · -- An alternative that has broken off nearby does not matter for what the others take.
      obtain ⟨n, hn⟩ := reads_alt_iff.1 hs
      have hp := extends_scan (Nat.le_max_left m n) p ts _ hm
      have hps := scanAlt_mono (extends_scan (Nat.le_max_right m n)) ps false ts _ hn
      rw [scanAlt_takes_iff _ false true] at hps
      refine reads_alt_iff.2 ⟨max m n, ?_⟩
      unfold scanAlt
      simp [hp, hfar, hps]

theorem Reads.alt {p : Pattern} {ps : List Pattern} {ts rest : List Token}
    {trees : List ParseTree} (h : Reads p ts (.takes trees rest) limit) :
    Reads (.alt (p :: ps)) ts (.takes trees rest) limit := reads_alt_cons.2 (.inl h)

theorem Declines.alt {p : Pattern} {ps : List Pattern} {ts rest : List Token}
    {trees : List ParseTree} (hp : Declines p ts limit)
    (h : Reads (.alt ps) ts (.takes trees rest) limit) :
    Reads (.alt (p :: ps)) ts (.takes trees rest) limit := reads_alt_cons.2 (.inr ⟨hp, h⟩)

/-- A choice is lacking where all its alternatives are. -/
theorem reads_alt_lacks {ps : List Pattern} {ts : List Token}
    (h : ∀ p ∈ ps, Reads p ts .lacks limit) : Reads (.alt ps) ts .lacks limit := by
  induction ps with
  | nil => exact ⟨1, rfl⟩
  | cons p ps ih =>
    have hps := ih fun q hq => h q (List.mem_cons_of_mem _ hq)
    exact hps.alt_behind_lacks (h p (List.mem_cons_self ..))

/-- A choice whose alternatives all decline has not moved when it does so itself. -/
theorem refuses_alt {ps : List Pattern} {ts : List Token} (h : ∀ p ∈ ps, Declines p ts limit) :
    Refuses (.alt ps) ts limit := by
  -- Whether an alternative has broken off before decides which of the two answers it is.
  have hscan : ∀ seen, ∃ fuel a, scanAlt (scan limit fuel) ps seen ts = some a ∧
      (a = .lacks ∨ a = .breaks ts) := by
    induction ps with
    | nil =>
      intro seen
      cases seen with
      | false => exact ⟨0, .lacks, rfl, .inl rfl⟩
      | true => exact ⟨0, .breaks ts, rfl, .inr rfl⟩
    | cons p ps ih =>
      have ih := ih fun q hq => h q (List.mem_cons_of_mem _ hq)
      intro seen
      rcases h p (List.mem_cons_self ..) with ⟨m, hm⟩ | ⟨b, ⟨m, hm⟩, hfar⟩
      · obtain ⟨n, a, hn, ha⟩ := ih seen
        have hp := extends_scan (Nat.le_max_left m n) p ts _ hm
        have hps := scanAlt_mono (extends_scan (Nat.le_max_right m n)) ps seen ts _ hn
        refine ⟨max m n, a, ?_, ha⟩
        unfold scanAlt
        simp [hp, hps]
      · obtain ⟨n, a, hn, ha⟩ := ih true
        have hp := extends_scan (Nat.le_max_left m n) p ts _ hm
        have hps := scanAlt_mono (extends_scan (Nat.le_max_right m n)) ps true ts _ hn
        refine ⟨max m n, a, ?_, ha⟩
        unfold scanAlt
        simp [hp, hfar, hps]
  obtain ⟨fuel, a, hscan, rfl | rfl⟩ := hscan false
  · exact .inl (reads_alt_iff.2 ⟨fuel, hscan⟩)
  · exact .inr (reads_alt_iff.2 ⟨fuel, hscan⟩)

/-! ## Repetitions -/

/-- An optional pattern takes what its inner pattern takes, or nothing when that one declines. -/
theorem reads_opt {p : Pattern} {ts rest : List Token} {trees : List ParseTree} :
    Reads (.opt p) ts (.takes trees rest) limit ↔
      Reads p ts (.takes trees rest) limit ∨ Declines p ts limit ∧ trees = [] ∧ rest = ts := by
  constructor
  · rintro ⟨_ | fuel, h⟩
    · simp [scan] at h
    · simp only [scan] at h
      unfold scanMany at h
      split at h
      · simp at h
      · rename_i hp
        simp only [Option.some.injEq, Answer.takes.injEq] at h
        exact .inr ⟨.inl ⟨fuel, hp⟩, h.1.symm, h.2.symm⟩
      · rename_i b hp
        split at h
        · simp at h
        · rename_i hfar
          simp only [Option.some.injEq, Answer.takes.injEq] at h
          exact .inr ⟨.inr ⟨b, ⟨fuel, hp⟩, by simpa using hfar⟩, h.1.symm, h.2.symm⟩
      · rename_i hp
        simp only [scanMany, Bool.false_eq_true, if_false, Option.map_some, Answer.behind,
          List.append_nil, Option.some.injEq, Answer.takes.injEq] at h
        obtain ⟨rfl, rfl⟩ := h
        exact .inl ⟨fuel, hp⟩
  · rintro (⟨fuel, h⟩ | ⟨⟨fuel, h⟩ | ⟨b, ⟨fuel, h⟩, hfar⟩, rfl, rfl⟩)
    · exact ⟨fuel + 1, by simp [scan, scanMany, h, Answer.behind]⟩
    · exact ⟨fuel + 1, by simp [scan, scanMany, h]⟩
    · exact ⟨fuel + 1, by simp [scan, scanMany, h, hfar]⟩

theorem Reads.opt {p : Pattern} {ts rest : List Token} {trees : List ParseTree}
    (h : Reads p ts (.takes trees rest) limit) : Reads (.opt p) ts (.takes trees rest) limit :=
  reads_opt.2 (.inl h)

theorem Declines.opt {p : Pattern} {ts : List Token} (h : Declines p ts limit) :
    Reads (.opt p) ts (.takes [] ts) limit := reads_opt.2 (.inr ⟨h, rfl, rfl⟩)

theorem Reads.opt_lacks {p : Pattern} {ts : List Token} (h : Reads p ts .lacks limit) :
    Reads (.opt p) ts (.takes [] ts) limit := Declines.opt (.inl h)

/-- A limit leaves room for this many rounds. -/
def Allows (limit : Option Nat) (n : Nat) : Prop := ∀ most ∈ limit, n < most

theorem allows_some {most n : Nat} : Allows (some most) n ↔ n < most := by simp [Allows]

theorem Allows.of_le {m n : Nat} (h : Allows limit n) (hle : m ≤ n) : Allows limit m :=
  fun most hmost => Nat.lt_of_le_of_lt hle (h most hmost)

/-- A pattern is taken `n` times in a row. -/
inductive Rounds (limit : Option Nat) (p : Pattern) :
    Nat → List Token → List ParseTree → List Token → Prop
  | nil {ts : List Token} : Rounds limit p 0 ts [] ts
  | cons {n : Nat} {ts mid rest : List Token} {front back : List ParseTree}
      (first : Reads p ts (.takes front mid) limit) (more : Rounds limit p n mid back rest) :
      Rounds limit p (n + 1) ts (front ++ back) rest

/-- Rounds that take a token each are not more than the tokens they take. -/
theorem Rounds.length_le {p : Pattern} {n : Nat} {ts rest : List Token} {trees : List ParseTree}
    (h : Rounds limit p n ts trees rest) (hp : p.isNullable = false) :
    n + rest.length ≤ ts.length := by
  induction h with
  | nil => simp
  | cons first _ ih =>
    have hshort := first.length_lt hp
    omega

/-- A repetition stops, or it takes one round and goes on. -/
theorem takes_of_scanMany {step : Scan} {p : Pattern} {capped : Bool} {rounds : Nat}
    {ts rest : List Token} {trees : List ParseTree}
    (h : scanMany step p capped (rounds + 1) ts = some (.takes trees rest)) :
    (trees = [] ∧ rest = ts) ∨ ∃ front mid back, step p ts = some (.takes front mid) ∧
      scanMany step p capped rounds mid = some (.takes back rest) ∧ trees = front ++ back := by
  unfold scanMany at h
  split at h
  · cases h
  · cases h
    exact .inl ⟨rfl, rfl⟩
  · split at h <;> cases h
    exact .inl ⟨rfl, rfl⟩
  · rename_i front mid hp
    obtain ⟨a, hmore, hbehind⟩ := Option.map_eq_some_iff.1 h
    obtain ⟨back, rfl, rfl⟩ := Answer.behind_eq_takes hbehind
    exact .inr ⟨front, mid, back, hp, hmore, rfl⟩

/-- What a repetition takes is what its inner pattern takes some number of times, within the
limit. -/
theorem Reads.rounds {p : Pattern} {ts rest : List Token} {trees : List ParseTree}
    (h : Reads (.many p) ts (.takes trees rest) limit) :
    ∃ n, Rounds limit p n ts trees rest ∧ Allows limit n := by
  obtain ⟨_ | fuel, h⟩ := h
  · simp [scan] at h
  · have hscan : ∀ (capped : Bool) (rounds : Nat) (ts : List Token) (trees : List ParseTree),
        scanMany (scan limit fuel) p capped rounds ts = some (.takes trees rest) →
          ∃ n, Rounds limit p n ts trees rest ∧ (capped = true → n < rounds) := by
      intro capped rounds
      induction rounds with
      | zero =>
        intro ts trees h
        cases capped with
        | true => simp [scanMany] at h
        | false =>
          obtain ⟨rfl, rfl⟩ := Answer.takes.inj (Option.some.inj h)
          exact ⟨0, .nil, by simp⟩
      | succ rounds ih =>
        intro ts trees h
        rcases takes_of_scanMany h with ⟨rfl, rfl⟩ | ⟨front, mid, back, hp, hmore, rfl⟩
        · exact ⟨0, .nil, fun _ => Nat.succ_pos rounds⟩
        · obtain ⟨n, hn, hlt⟩ := ih mid back hmore
          exact ⟨n + 1, .cons ⟨fuel, hp⟩ hn, fun hover => Nat.succ_lt_succ (hlt hover)⟩
    obtain ⟨n, hn, hlt⟩ := hscan _ _ ts trees h
    refine ⟨n, hn, fun most hmost => ?_⟩
    obtain rfl := Option.mem_def.1 hmost
    exact hlt rfl

/-- A repetition takes what its inner pattern takes until it declines, if the limit allows it. As
every round takes a token, the matcher sees the end of the rounds where there is no limit. -/
theorem Rounds.reads_many {p : Pattern} {n : Nat} {ts rest : List Token} {trees : List ParseTree}
    (h : Rounds limit p n ts trees rest) (hp : p.isNullable = false) (hend : Declines p rest limit)
    (hn : Allows limit n) : Reads (.many p) ts (.takes trees rest) limit := by
  have hscan : ∃ fuel, ∀ capped rounds, n < rounds →
      scanMany (scan limit fuel) p capped rounds ts = some (.takes trees rest) := by
    clear hn
    induction h with
    | nil =>
      rcases hend with ⟨fuel, h⟩ | ⟨b, ⟨fuel, h⟩, hfar⟩
      · refine ⟨fuel, fun capped rounds hlt => ?_⟩
        obtain ⟨k, rfl⟩ := Nat.exists_eq_succ_of_ne_zero (Nat.ne_of_gt hlt)
        simp [scanMany, h]
      · refine ⟨fuel, fun capped rounds hlt => ?_⟩
        obtain ⟨k, rfl⟩ := Nat.exists_eq_succ_of_ne_zero (Nat.ne_of_gt hlt)
        simp [scanMany, h, hfar]
    | @cons n ts mid rest front back first more ih =>
      obtain ⟨m, hm⟩ := first
      obtain ⟨m', hm'⟩ := ih hend
      refine ⟨max m m', fun capped rounds hlt => ?_⟩
      obtain ⟨k, rfl⟩ := Nat.exists_eq_succ_of_ne_zero (Nat.ne_of_gt (Nat.zero_lt_of_lt hlt))
      have hfirst := extends_scan (Nat.le_max_left m m') p ts _ hm
      have hmore := scanMany_mono (extends_scan (Nat.le_max_right m m')) p capped k mid _
        (hm' capped k (Nat.lt_of_succ_lt_succ hlt))
      unfold scanMany
      simp [hfirst, hmore, Answer.behind]
  obtain ⟨fuel, hscan⟩ := hscan
  refine ⟨fuel + 1, hscan _ _ ?_⟩
  cases limit with
  | none => exact Nat.lt_succ_of_le (Nat.le_of_add_right_le (h.length_le hp))
  | some most => exact hn most rfl

/-! ## Repetitions without a limit -/

/-- A pattern is taken some number of times in a row. -/
def Repeats (p : Pattern) (ts : List Token) (trees : List ParseTree) (rest : List Token) : Prop :=
  ∃ n, Rounds none p n ts trees rest

namespace Repeats

variable {p : Pattern} {ts mid rest : List Token} {front back trees : List ParseTree}

theorem nil : Repeats p ts [] ts := ⟨0, .nil⟩

theorem cons (first : Reads p ts (.takes front mid)) (more : Repeats p mid back rest) :
    Repeats p ts (front ++ back) rest := by
  obtain ⟨n, more⟩ := more
  exact ⟨n + 1, .cons first more⟩

/-- What holds of no round, and of one round more, holds of all repetitions. -/
@[induction_eliminator]
theorem induct {p : Pattern} {motive : ∀ ts trees rest, Repeats p ts trees rest → Prop}
    (nil : ∀ {ts : List Token}, motive ts [] ts nil)
    (cons : ∀ {ts mid rest : List Token} {front back : List ParseTree}
      (first : Reads p ts (.takes front mid)) (more : Repeats p mid back rest),
      motive mid back rest more → motive ts (front ++ back) rest (cons first more))
    {ts : List Token} {trees : List ParseTree} {rest : List Token}
    (h : Repeats p ts trees rest) : motive ts trees rest h := by
  obtain ⟨n, hn⟩ := h
  induction hn with
  | nil => exact nil
  | cons first more ih => exact cons first ⟨_, more⟩ ih

/-- One run after the other. -/
theorem trans (h : Repeats p ts front mid) (hb : Repeats p mid back rest) :
    Repeats p ts (front ++ back) rest := by
  induction h with
  | nil => exact hb
  | cons first _ ih =>
    rw [List.append_assoc]
    exact .cons first (ih hb)

/-- One more at the end. -/
theorem snoc (h : Repeats p ts front mid) (last : Reads p mid (.takes back rest)) :
    Repeats p ts (front ++ back) rest := by
  have hlast : Repeats p mid (back ++ []) rest := .cons last .nil
  rw [List.append_nil] at hlast
  exact h.trans hlast

theorem reads_many (h : Repeats p ts trees rest) (hp : p.isNullable = false)
    (hend : Declines p rest) : Reads (.many p) ts (.takes trees rest) := by
  obtain ⟨n, h⟩ := h
  exact h.reads_many hp hend (by simp [Allows])

end Repeats

theorem Reads.repeats {p : Pattern} {ts rest : List Token} {trees : List ParseTree}
    (h : Reads (.many p) ts (.takes trees rest)) : Repeats p ts trees rest := by
  obtain ⟨n, h, -⟩ := h.rounds
  exact ⟨n, h⟩

end CubeSchema.Grammar
