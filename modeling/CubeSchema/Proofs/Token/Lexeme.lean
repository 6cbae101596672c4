import CubeSchema.Token.Lexeme
import Mathlib.Data.List.TakeWhile

/-!
# Lexemes do not depend on what stands far behind them

A name, a number or a string that was read from one text is read again wherever it is written, as
long as the byte behind it cannot belong to it. `run_append` and `run_eq_min` say this for a run of
bytes, and each matcher inherits both directions: `…_append` writes a lexeme in front of a new rest,
and `…_truncate` forgets the rest that it was read with.
-/

namespace CubeSchema.Lexeme

/-- A test of bytes that all 256 of them pass. -/
theorem forall_byte {p : UInt8 → Bool}
    (h : ((List.range 256).all fun n => p n.toUInt8) = true) (b : UInt8) : p b = true := by
  simpa using List.all_eq_true.1 h b.toNat (List.mem_range.2 b.toNat_lt)

/-- A text is empty, or its first byte fails the test. -/
def HeadNot (p : UInt8 → Bool) (t : Text) : Prop := ∀ b ∈ t.head?, p b = false

theorem run_append {p : UInt8 → Bool} {rest : Text} (h : HeadNot p rest) (t : Text) :
    run p (t ++ rest) = run p t := by
  induction t with
  | nil =>
    cases rest with
    | nil => rfl
    | cons b rest => simp [run, h b rfl]
  | cons b t ih =>
    unfold run at ih ⊢
    rw [List.cons_append, List.takeWhile_cons, List.takeWhile_cons]
    split
    · rw [List.length_cons, List.length_cons, ih]
    · rfl

theorem run_eq_min (p : UInt8 → Bool) (t rest : Text) :
    run p t = min (run p (t ++ rest)) t.length := by
  induction t with
  | nil => simp [run]
  | cons b t ih =>
    unfold run at ih ⊢
    rw [List.cons_append, List.takeWhile_cons, List.takeWhile_cons]
    split
    · rw [List.length_cons, List.length_cons, List.length_cons, ih]
      omega
    · simp

theorem run_le_length (p : UInt8 → Bool) (t : Text) : run p t ≤ t.length := by
  have h := run_eq_min p t []
  rw [List.append_nil] at h
  omega

theorem take_run (p : UInt8 → Bool) (t : Text) : t.take (run p t) = t.takeWhile p :=
  (List.prefix_iff_eq_take.1 ( List.takeWhile_prefix p)).symm

theorem drop_run (p : UInt8 → Bool) (t : Text) : t.drop (run p t) = t.dropWhile p := by
  have hsplit := List.takeWhile_append_dropWhile (p := p) (l := t)
  have hlength : (t.takeWhile p).length = run p t := rfl
  calc t.drop (run p t) = (t.takeWhile p ++ t.dropWhile p).drop (run p t) := by rw [hsplit]
    _ = t.dropWhile p := by rw [← hlength, List.drop_left]

theorem exactly_single (b : UInt8) (t : Text) :
    exactly [b] t = if t.head? = some b then 1 else 0 := by
  cases t with
  | nil => simp [exactly, Text.startsWith]
  | cons c t =>
    by_cases hc : c = b
    · simp [exactly, Text.startsWith, List.isPrefixOf, hc]
    · have hc' : b ≠ c := fun h => hc h.symm
      simp [exactly, Text.startsWith, List.isPrefixOf, hc, hc']

/-! ## Numbers -/

/-- The bytes that may stand right behind a number. -/
def isNumberStop (b : UInt8) : Bool :=
  [10, 32, 40, 41, 44, 46, 58, 59, 63, 91, 93, 125].contains b

/-- A text is empty or starts with a byte that may stand right behind a number. -/
def Stopped (rest : Text) : Prop := ∀ b ∈ rest.head?, isNumberStop b = true

/-- A byte behind a number is none of the bytes that belong to one. -/
theorem Stopped.headNot {rest : Text} (h : Stopped rest) {p : UInt8 → Bool}
    (hp : ([10, 32, 40, 41, 44, 46, 58, 59, 63, 91, 93, 125].all fun b => !p b) = true) :
    HeadNot p rest := by
  intro b hb
  simpa using List.all_eq_true.1 hp b (by simpa [isNumberStop] using h b hb)

/-- A text consists of the bytes of a whole number alone, so that a point behind it would belong to
it. -/
def isWhole (t : Text) : Bool := t.all isDecimalPart

theorem based_single (mark : Char) (isPart : UInt8 → Bool) (b : UInt8) :
    based mark isPart [b] = 0 := by
  unfold based
  split
  · rename_i heq
    simp at heq
  · rfl

theorem based_cons (mark : Char) (isPart : UInt8 → Bool) (b m : UInt8) (t : Text) :
    based mark isPart (b :: m :: t) =
      if b = 48 ∧ (m = ascii mark ∨ m = ascii mark - 32) ∧ run isPart t ≠ 0 then run isPart t + 2
      else 0 := by
  by_cases hb : b = 48
  · subst hb
    by_cases hm : m = ascii mark ∨ m = ascii mark - 32 <;>
      by_cases hr : run isPart t = 0 <;> simp [based, hm, hr]
  · have : based mark isPart (b :: m :: t) = 0 := by
      unfold based
      split
      · rename_i heq
        simp only [List.cons.injEq] at heq
        exact absurd heq.1 hb
      · rfl
    simp [this, hb]

theorem based_append {mark : Char} {isPart : UInt8 → Bool} {t rest : Text} (ht : t ≠ [])
    (hm : HeadNot (fun b => b = ascii mark || b = ascii mark - 32) rest)
    (hp : HeadNot isPart rest) : based mark isPart (t ++ rest) = based mark isPart t := by
  match t, rest with
  | [], _ => exact absurd rfl ht
  | [b], [] => rfl
  | [b], c :: rest =>
    have hc : ¬ (c = ascii mark ∨ c = ascii mark - 32) := by simpa using hm c rfl
    rw [based_single, List.cons_append, List.nil_append, based_cons, if_neg (by simp [hc])]
  | b :: m :: t, rest =>
    rw [List.cons_append, List.cons_append, based_cons, based_cons, run_append hp]

theorem based_truncate {mark : Char} {isPart : UInt8 → Bool} {t rest : Text} (ht : t ≠ [])
    (h : based mark isPart (t ++ rest) ≤ t.length) :
    based mark isPart t = based mark isPart (t ++ rest) := by
  match t, rest with
  | [], _ => exact absurd rfl ht
  | [b], [] => rfl
  | [b], c :: rest =>
    rw [based_single]
    rw [List.cons_append, List.nil_append, based_cons] at h ⊢
    split at h
    · simp at h
    · rename_i hcond
      rw [if_neg hcond]
  | b :: m :: t, rest =>
    have hmin := run_eq_min isPart t rest
    rw [List.cons_append, List.cons_append, based_cons] at h ⊢
    rw [based_cons]
    simp only [List.length_cons] at h
    split at h
    · rename_i hcond
      have hrun : run isPart t = run isPart (t ++ rest) := by omega
      rw [hrun]
    · rename_i hcond
      have hrun : run isPart (t ++ rest) = 0 → run isPart t = 0 := by omega
      rw [if_neg hcond, if_neg fun hcond' => hcond ⟨hcond'.1, hcond'.2.1, fun h0 =>
        hcond'.2.2 (hrun h0)⟩]

/-- The length of a fraction with its point, zero when there is none. -/
def fraction : Matcher
  | [] => 0
  | b :: t => if b = 46 then 1 + run Text.isDigit t else 0

theorem decimal_cons (b : UInt8) (t : Text) : decimal (b :: t) =
    if Text.isDigit b then
      1 + run isDecimalPart t + fraction ((b :: t).drop (1 + run isDecimalPart t))
    else if b = 46 ∧ run Text.isDigit t ≠ 0 then run Text.isDigit t + 1 else 0 := by
  simp only [decimal]
  split
  · generalize (b :: t).drop (1 + run isDecimalPart t) = u
    split
    · simp [fraction, Nat.add_assoc]
    · rename_i hne
      cases u with
      | nil => rfl
      | cons c u =>
        have hc : c ≠ 46 := fun hc => hne u (by rw [hc])
        simp [fraction, hc]
  · by_cases hb : b = 46 <;> by_cases hr : run Text.isDigit t = 0 <;> simp [hb, hr]

theorem fraction_le_length (t : Text) : fraction t ≤ t.length := by
  cases t with
  | nil => simp [fraction]
  | cons b t =>
    have hrun := run_le_length Text.isDigit t
    simp only [fraction, List.length_cons]
    split <;> omega

theorem decimal_le_length (t : Text) : decimal t ≤ t.length := by
  cases t with
  | nil => simp [decimal]
  | cons b t =>
    have hrun := run_le_length isDecimalPart t
    have hdigits := run_le_length Text.isDigit t
    have hfrac := fraction_le_length ((b :: t).drop (1 + run isDecimalPart t))
    rw [List.length_drop] at hfrac
    rw [decimal_cons, List.length_cons] at *
    split
    · omega
    · split <;> omega

/-- A run over a whole text consists of bytes that satisfy the test. -/
theorem all_of_run_eq_length {p : UInt8 → Bool} {t : Text} (h : run p t = t.length) :
    ∀ b ∈ t, p b = true := by
  have htake : t.takeWhile p = t :=
    (List.takeWhile_prefix p).eq_of_length h
  exact List.takeWhile_eq_self_iff.1 htake

theorem decimal_append {t rest : Text} (h : Stopped rest)
    (hpoint : rest.head? = some 46 → isWhole t = false) (ht : t ≠ []) :
    decimal (t ++ rest) = decimal t := by
  have hpart : HeadNot isDecimalPart rest := h.headNot (by decide)
  have hdigit : HeadNot Text.isDigit rest := h.headNot (by decide)
  cases t with
  | nil => exact absurd rfl ht
  | cons b t =>
    have hrun := run_le_length isDecimalPart t
    have hdrop : (b :: (t ++ rest)).drop (1 + run isDecimalPart t) =
        (b :: t).drop (1 + run isDecimalPart t) ++ rest := by
      rw [← List.cons_append, List.drop_append_of_le_length (by rw [List.length_cons]; omega)]
    rw [List.cons_append, decimal_cons, decimal_cons, run_append hpart, run_append hdigit, hdrop]
    split
    · rename_i hb
      congr 1
      cases hback : (b :: t).drop (1 + run isDecimalPart t) with
      | cons c back =>
        rw [List.cons_append]
        simp only [fraction, run_append hdigit]
      | nil =>
        -- All of the text belongs to the whole part, so that no point may follow it.
        cases rest with
        | nil => rfl
        | cons c rest =>
          have hc : c ≠ 46 := by
            intro hc
            have hlen := List.drop_eq_nil_iff.1 hback
            rw [List.length_cons] at hlen
            have hall := all_of_run_eq_length (p := isDecimalPart) (t := t) (by omega)
            have hwhole : isWhole (b :: t) = true := by
              rw [isWhole, List.all_cons, List.all_eq_true.2 hall]
              simp [isDecimalPart, hb]
            rw [hpoint (by rw [hc]; rfl)] at hwhole
            simp at hwhole
          simp [fraction, hc]
    · rfl

theorem decimal_truncate {t rest : Text} (h : decimal (t ++ rest) ≤ t.length) :
    decimal t = decimal (t ++ rest) := by
  cases t with
  | nil => simp only [List.length_nil, Nat.le_zero] at h; rw [h]; rfl
  | cons b t =>
    have hmin := run_eq_min isDecimalPart t rest
    have hmin' := run_eq_min Text.isDigit t rest
    rw [List.cons_append, decimal_cons] at h ⊢
    rw [decimal_cons]
    simp only [List.length_cons] at h
    split at h
    · rename_i hb
      have hrun : run isDecimalPart t = run isDecimalPart (t ++ rest) := by omega
      have hdrop : (b :: (t ++ rest)).drop (1 + run isDecimalPart t) =
          (b :: t).drop (1 + run isDecimalPart t) ++ rest := by
        rw [← List.cons_append, List.drop_append_of_le_length (by rw [List.length_cons]; omega)]
      rw [← hrun, hdrop] at h ⊢
      rw [if_pos hb, if_pos hb]
      congr 1
      have hlen : ((b :: t).drop (1 + run isDecimalPart t)).length =
          t.length - run isDecimalPart t := by
        rw [List.length_drop, List.length_cons]
        omega
      -- What is left of the shorter text decides whether the fraction starts inside of it.
      generalize (b :: t).drop (1 + run isDecimalPart t) = back at h hlen
      cases back with
      | nil =>
        rw [List.nil_append] at h ⊢
        rw [List.length_nil] at hlen
        have hzero : fraction rest = 0 := by omega
        rw [hzero]
        rfl
      | cons c back =>
        have hmin'' := run_eq_min Text.isDigit back rest
        rw [List.length_cons] at hlen
        simp only [List.cons_append, fraction] at h ⊢
        split at h
        · rename_i hc
          simp only [hc, if_true]
          omega
        · rename_i hc
          simp [hc]
    · rename_i hb
      rw [if_neg hb, if_neg hb]
      split at h
      · rename_i hcond
        have hrun : run Text.isDigit t = run Text.isDigit (t ++ rest) := by omega
        rw [hrun]
      · rename_i hcond
        have hrun : run Text.isDigit (t ++ rest) = 0 → run Text.isDigit t = 0 := by omega
        rw [if_neg hcond, if_neg fun hcond' => hcond ⟨hcond'.1, fun h0 => hcond'.2 (hrun h0)⟩]

/-- The length of an exponent's digits with its optional sign, zero when there is no digit. -/
def signedDigits : Matcher
  | [] => 0
  | s :: t =>
    if s = ascii '+' ∨ s = ascii '-' then if run Text.isDigit t = 0 then 0 else run Text.isDigit t + 1
    else run Text.isDigit (s :: t)

theorem exponent_cons (m : UInt8) (t : Text) : exponent (m :: t) =
    if (m = ascii 'e' ∨ m = ascii 'E') ∧ signedDigits t ≠ 0 then signedDigits t + 1 else 0 := by
  by_cases hm : m = ascii 'e' ∨ m = ascii 'E'
  · cases t with
    | nil => simp [exponent, signedDigits]
    | cons s t =>
      by_cases hs : s = ascii '+' ∨ s = ascii '-'
      · by_cases hr : run Text.isDigit t = 0 <;> simp [exponent, signedDigits, hm, hs, hr]
      · by_cases hr : run Text.isDigit (s :: t) = 0 <;> simp [exponent, signedDigits, hm, hs, hr]
  · simp [exponent, hm]

theorem signedDigits_append {t rest : Text} (hd : HeadNot Text.isDigit rest)
    (hs : HeadNot (fun b => b = ascii '+' || b = ascii '-') rest) :
    signedDigits (t ++ rest) = signedDigits t := by
  match t, rest with
  | [], [] => rfl
  | [], c :: rest =>
    have hc : ¬ (c = ascii '+' ∨ c = ascii '-') := by simpa using hs c rfl
    have hrun : run Text.isDigit (c :: rest) = 0 := by simp [run, hd c rfl]
    simp [signedDigits, hc, hrun]
  | s :: t, rest =>
    have hrun := run_append hd (s :: t)
    rw [List.cons_append] at hrun ⊢
    simp only [signedDigits, run_append hd, hrun]

theorem signedDigits_truncate {t rest : Text} (h : signedDigits (t ++ rest) ≤ t.length) :
    signedDigits t = signedDigits (t ++ rest) := by
  cases t with
  | nil => simp only [List.length_nil, Nat.le_zero] at h; rw [h]; rfl
  | cons s t =>
    have hmin := run_eq_min Text.isDigit t rest
    have hmin' := run_eq_min Text.isDigit (s :: t) rest
    rw [List.cons_append] at h hmin' ⊢
    simp only [signedDigits, List.length_cons] at h hmin' ⊢
    split at h
    · rename_i hs
      simp only [hs, if_true]
      split at h
      · rename_i h0
        rw [if_pos h0, if_pos (by omega)]
      · rename_i h0
        rw [if_neg h0, if_neg (by omega)]
        omega
    · rename_i hs
      simp only [hs, if_false]
      omega

theorem exponent_append {t rest : Text} (h : Stopped rest) :
    exponent (t ++ rest) = exponent t := by
  have hd : HeadNot Text.isDigit rest := h.headNot (by decide)
  have hs : HeadNot (fun b => b = ascii '+' || b = ascii '-') rest := h.headNot (by decide)
  have he : HeadNot (fun b => b = ascii 'e' || b = ascii 'E') rest := h.headNot (by decide)
  match t, rest with
  | [], [] => rfl
  | [], c :: rest =>
    have hc : ¬ (c = ascii 'e' ∨ c = ascii 'E') := by simpa using he c rfl
    rw [List.nil_append, exponent_cons, if_neg (by simp [hc])]
    rfl
  | m :: t, rest => rw [List.cons_append, exponent_cons, exponent_cons, signedDigits_append hd hs]

theorem exponent_truncate {t rest : Text} (h : exponent (t ++ rest) ≤ t.length) :
    exponent t = exponent (t ++ rest) := by
  cases t with
  | nil => simp only [List.length_nil, Nat.le_zero] at h; rw [h]; rfl
  | cons m t =>
    rw [List.cons_append, exponent_cons] at h ⊢
    rw [exponent_cons]
    simp only [List.length_cons] at h
    split at h
    · rename_i hcond
      rw [@signedDigits_truncate t rest (by omega)]
    · rename_i hcond
      by_cases hm : m = ascii 'e' ∨ m = ascii 'E'
      · have h0 : signedDigits (t ++ rest) = 0 := by
          by_contra hne
          exact hcond ⟨hm, hne⟩
        rw [@signedDigits_truncate t rest (by omega)]
      · simp [hm]

theorem exponent_le_length (t : Text) : exponent t ≤ t.length := by
  cases t with
  | nil => simp [exponent]
  | cons m t =>
    rw [exponent_cons, List.length_cons]
    have hle : signedDigits t ≤ t.length := by
      cases t with
      | nil => simp [signedDigits]
      | cons s t =>
        have h1 := run_le_length Text.isDigit t
        have h2 := run_le_length Text.isDigit (s :: t)
        simp only [signedDigits, List.length_cons] at *
        split
        · split <;> omega
        · exact h2
    split <;> omega

theorem scientific_eq (t : Text) :
    scientific t = if decimal t = 0 then 0 else decimal t + exponent (t.drop (decimal t)) := rfl

theorem scientific_le_length (t : Text) : scientific t ≤ t.length := by
  have h1 := decimal_le_length t
  have h2 := exponent_le_length (t.drop (decimal t))
  rw [List.length_drop] at h2
  rw [scientific_eq]
  split <;> omega

theorem scientific_append {t rest : Text} (h : Stopped rest)
    (hpoint : rest.head? = some 46 → isWhole t = false) (ht : t ≠ []) :
    scientific (t ++ rest) = scientific t := by
  rw [scientific_eq, scientific_eq, decimal_append h hpoint ht,
    List.drop_append_of_le_length (decimal_le_length t), exponent_append h]

theorem scientific_truncate {t rest : Text} (h : scientific (t ++ rest) ≤ t.length) :
    scientific t = scientific (t ++ rest) := by
  rw [scientific_eq (t ++ rest)] at h ⊢
  have hle : decimal (t ++ rest) ≤ t.length := by split at h <;> omega
  have hdec := decimal_truncate hle
  rw [scientific_eq]
  rw [← hdec, List.drop_append_of_le_length (decimal_le_length t)] at h ⊢
  split at h
  · rename_i h0
    rw [if_pos h0, if_pos h0]
  · rename_i h0
    rw [if_neg h0, if_neg h0, @exponent_truncate _ rest]
    rw [List.length_drop]
    omega

/-- A matcher that gives the same length in front of every stop, and when its rest is forgotten. -/
structure Local (m : Matcher) : Prop where
  /-- In front of a stop. -/
  append : ∀ {t rest : Text}, t ≠ [] → Stopped rest →
    (rest.head? = some 46 → isWhole t = false) → m (t ++ rest) = m t
  /-- With the rest forgotten. -/
  truncate : ∀ {t rest : Text}, t ≠ [] → m (t ++ rest) ≤ t.length → m t = m (t ++ rest)

theorem local_based (mark : Char) (isPart : UInt8 → Bool)
    (hm : ([10, 32, 40, 41, 44, 46, 58, 59, 63, 91, 93, 125].all fun b =>
      !(decide (b = ascii mark) || decide (b = ascii mark - 32))) = true)
    (hp : ([10, 32, 40, 41, 44, 46, 58, 59, 63, 91, 93, 125].all fun b => !isPart b) = true) :
    Local (based mark isPart) where
  append ht h _ := based_append ht (h.headNot hm) (h.headNot hp)
  truncate ht h := based_truncate ht h

theorem local_scientific : Local scientific where
  append ht h hpoint := scientific_append h hpoint ht
  truncate _ h := scientific_truncate h

theorem local_firstMatch {ms : List Matcher} (h : ∀ m ∈ ms, Local m) : Local (firstMatch ms) := by
  induction ms with
  | nil => exact ⟨fun _ _ _ => rfl, fun _ _ => rfl⟩
  | cons m ms ih =>
    have hm := h m (List.mem_cons_self ..)
    have hms := ih fun k hk => h k (List.mem_cons_of_mem _ hk)
    constructor
    · intro t rest ht hstop hpoint
      simp only [firstMatch, hm.append ht hstop hpoint, hms.append ht hstop hpoint]
    · intro t rest ht hle
      simp only [firstMatch] at hle ⊢
      split at hle
      · rename_i h0
        have hzero : m t = m (t ++ rest) := hm.truncate ht (by omega)
        rw [if_pos (hzero.trans h0), if_pos h0]
        exact hms.truncate ht hle
      · rename_i h0
        have heq := hm.truncate ht hle
        rw [if_neg h0, if_neg (by rw [heq]; exact h0), heq]

/-- What a number is before its optional last letter. -/
def numberBody : Matcher :=
  firstMatch [based 'x' isHexPart, based 'b' isBinaryPart, based 'o' isOctalPart, scientific]

theorem local_numberBody : Local numberBody := by
  apply local_firstMatch
  intro m hm
  simp only [List.mem_cons, List.not_mem_nil, or_false] at hm
  rcases hm with rfl | rfl | rfl | rfl
  · exact local_based _ _ (by decide) (by decide)
  · exact local_based _ _ (by decide) (by decide)
  · exact local_based _ _ (by decide) (by decide)
  · exact local_scientific

theorem number_eq (t : Text) : number t =
    if numberBody t = 0 then 0
    else numberBody t + if (t.drop (numberBody t)).head? = some 110 then 1 else 0 := by
  rw [← exactly_single]
  rfl

/-- A number: a text that is read as one as a whole. -/
def IsNumber (t : Text) : Prop := t ≠ [] ∧ number t = t.length

instance (t : Text) : Decidable (IsNumber t) := inferInstanceAs (Decidable (_ ∧ _))

/-- A number that was read with some rest is a number. -/
theorem isNumber_of_append {t rest : Text} (ht : t ≠ []) (h : number (t ++ rest) = t.length) :
    IsNumber t := by
  refine ⟨ht, ?_⟩
  rw [number_eq] at h ⊢
  split at h
  · have := List.length_pos_iff.2 ht
    omega
  · rename_i h0
    have hbody : numberBody t = numberBody (t ++ rest) :=
      local_numberBody.truncate ht (by split at h <;> omega)
    rw [← hbody] at h h0
    rw [if_neg h0, ← h]
    congr 1
    rw [List.drop_append_of_le_length (by split at h <;> omega)]
    cases hback : t.drop (numberBody t) with
    | cons b back => rfl
    | nil =>
      -- The body is all of the text, so that no letter can be left for the rest.
      have hlen := List.drop_eq_nil_iff.1 hback
      rw [if_neg (by simp), List.nil_append, if_neg]
      intro hhead
      rw [List.drop_append_of_le_length (by omega), hback, List.nil_append, if_pos hhead] at h
      omega

/-- A number is read again in front of every stop. -/
theorem IsNumber.number_append {t rest : Text} (h : IsNumber t) (hstop : Stopped rest)
    (hpoint : rest.head? = some 46 → isWhole t = false) : number (t ++ rest) = t.length := by
  obtain ⟨ht, h⟩ := h
  rw [number_eq] at h ⊢
  rw [local_numberBody.append ht hstop hpoint]
  split at h
  · have := List.length_pos_iff.2 ht
    omega
  · rename_i h0
    rw [if_neg h0, ← h]
    congr 1
    rw [List.drop_append_of_le_length (by split at h <;> omega)]
    cases hback : t.drop (numberBody t) with
    | cons b back => rfl
    | nil =>
      cases rest with
      | nil => rfl
      | cons c rest =>
        have hc := hstop.headNot (p := (· = 110)) (by decide) c rfl
        have hc' : c ≠ 110 := by simpa using hc
        simp [hc']

/-- A byte that is neither a digit nor a point starts no number. -/
theorem number_cons_eq_zero {b : UInt8} (hdigit : Text.isDigit b = false) (hpoint : b ≠ 46)
    (t : Text) : number (b :: t) = 0 := by
  have h48 : b ≠ 48 := by
    rintro rfl
    exact absurd hdigit (by decide)
  have hbased : ∀ mark isPart, based mark isPart (b :: t) = 0 := by
    intro mark isPart
    cases t with
    | nil => exact based_single mark isPart b
    | cons m t => rw [based_cons, if_neg (by simp [h48])]
  have hdec : decimal (b :: t) = 0 := by
    rw [decimal_cons, if_neg (by simp [hdigit]), if_neg (by simp [hpoint])]
  have hbody : numberBody (b :: t) = 0 := by
    simp [numberBody, firstMatch, hbased, scientific_eq, hdec]
  rw [number_eq, if_pos hbody]

/-- A number starts with a digit or a point. -/
theorem IsNumber.head {t : Text} (h : IsNumber t) :
    ∃ b u, t = b :: u ∧ (Text.isDigit b = true ∨ b = 46) := by
  obtain ⟨ht, h⟩ := h
  cases t with
  | nil => exact absurd rfl ht
  | cons b t =>
    refine ⟨b, t, rfl, ?_⟩
    by_contra hb
    rw [not_or, Bool.not_eq_true] at hb
    rw [number_cons_eq_zero hb.1 hb.2] at h
    simp at h

/-! ## Strings -/

theorem quoteEnd?_cons (q b : UInt8) (t : Text) : quoteEnd? q (b :: t) =
    if b = q then some 1
    else if b = 92 then (quoteEnd? q t.tail).map (· + 2)
    else if b = Text.newline then none
    else (quoteEnd? q t).map (· + 1) := by
  cases t with
  | nil => simp [quoteEnd?]
  | cons c t => simp [quoteEnd?]

/-- The end of a quoted text does not depend on what follows it. -/
theorem quoteEnd?_append {q : UInt8} {t rest : Text} {n : Nat}
    (h : quoteEnd? q (t ++ rest) = some n) (hn : n ≤ t.length) (rest' : Text) :
    quoteEnd? q (t ++ rest') = some n := by
  induction hlen : t.length using Nat.strong_induction_on generalizing t n with
  | _ k ih =>
    cases t with
    | nil =>
      -- An end mark takes at least one byte.
      obtain rfl : n = 0 := by simpa using hn
      cases rest with
      | nil => simp [quoteEnd?] at h
      | cons b rest =>
        rw [List.nil_append, quoteEnd?_cons] at h
        split at h
        · simp at h
        · split at h
          · simp at h
          · split at h <;> simp at h
    | cons b t =>
      rw [List.length_cons] at hlen hn
      rw [List.cons_append, quoteEnd?_cons] at h ⊢
      split at h
      · rename_i hb
        rw [if_pos hb]
        exact h
      · rename_i hb
        rw [if_neg hb]
        split at h
        · rename_i hesc
          rw [if_pos hesc]
          obtain ⟨m, hm, rfl⟩ := Option.map_eq_some_iff.1 h
          cases t with
          | nil => rw [List.length_nil] at hn; omega
          | cons c t =>
            rw [List.length_cons] at hlen hn
            rw [List.cons_append, List.tail_cons] at hm ⊢
            rw [ih t.length (by omega) hm (by omega) rfl]
            rfl
        · rename_i hesc
          rw [if_neg hesc]
          split at h
          · simp at h
          · rename_i hline
            rw [if_neg hline]
            obtain ⟨m, hm, rfl⟩ := Option.map_eq_some_iff.1 h
            rw [ih t.length (by omega) hm (by omega) rfl]
            rfl

/-- A string literal: a text that is read as one as a whole. -/
def IsString (t : Text) : Prop := t ≠ [] ∧ string t = t.length

instance (t : Text) : Decidable (IsString t) := inferInstanceAs (Decidable (_ ∧ _))

/-- A string literal that was read with some rest is read with every rest. -/
theorem string_append_of_append {t rest : Text} (ht : t ≠ []) (h : string (t ++ rest) = t.length)
    (rest' : Text) : string (t ++ rest') = t.length := by
  cases t with
  | nil => exact absurd rfl ht
  | cons b t =>
    simp only [List.cons_append, string, List.length_cons] at h ⊢
    split at h
    · rename_i hb
      rw [if_pos hb]
      cases hend : quoteEnd? b (t ++ rest) with
      | none => simp [hend] at h
      | some n =>
        simp only [hend, Option.map_some, Option.getD_some] at h
        rw [quoteEnd?_append hend (by omega) rest']
        simpa using h
    · omega

theorem isString_of_append {t rest : Text} (ht : t ≠ []) (h : string (t ++ rest) = t.length) :
    IsString t := by
  have h' := string_append_of_append ht h []
  rw [List.append_nil] at h'
  exact ⟨ht, h'⟩

theorem IsString.string_append {t : Text} (h : IsString t) (rest : Text) :
    string (t ++ rest) = t.length := by
  have h' : string (t ++ []) = t.length := by simpa using h.2
  exact string_append_of_append h.1 h' rest

/-- A string literal starts with a quote. -/
theorem IsString.head {t : Text} (h : IsString t) : ∃ b u, t = b :: u ∧ (b = 34 ∨ b = 39) := by
  obtain ⟨ht, h⟩ := h
  cases t with
  | nil => exact absurd rfl ht
  | cons b t =>
    refine ⟨b, t, rfl, ?_⟩
    by_contra hb
    have hb' : (decide (b = 34) || decide (b = 39)) = false := by simpa using hb
    simp [string, hb'] at h

/-! ## Names -/

/-- A name: a text that is read as one as a whole. -/
def IsName (t : Text) : Prop := t ≠ [] ∧ ident t = t.length

instance (t : Text) : Decidable (IsName t) := inferInstanceAs (Decidable (_ ∧ _))

theorem isName_of_append {t rest : Text} (ht : t ≠ []) (h : ident (t ++ rest) = t.length) :
    IsName t := by
  refine ⟨ht, ?_⟩
  cases t with
  | nil => exact absurd rfl ht
  | cons b t =>
    have hmin := run_eq_min isNamePart t rest
    simp only [List.cons_append, ident, List.length_cons] at h ⊢
    split at h
    · rename_i hb
      rw [if_pos hb]
      omega
    · omega

theorem IsName.ident_append {t rest : Text} (h : IsName t) (hrest : HeadNot isNamePart rest) :
    ident (t ++ rest) = t.length := by
  obtain ⟨ht, h⟩ := h
  cases t with
  | nil => exact absurd rfl ht
  | cons b t =>
    simp only [List.cons_append, ident, run_append hrest] at h ⊢
    exact h

/-- A name starts with a letter, an underscore or a dollar sign. -/
theorem IsName.head {t : Text} (h : IsName t) : ∃ b u, t = b :: u ∧ isNameStart b = true := by
  obtain ⟨ht, h⟩ := h
  cases t with
  | nil => exact absurd rfl ht
  | cons b t =>
    refine ⟨b, t, rfl, ?_⟩
    by_contra hb
    simp [ident, hb] at h

/-! ## Template chunks -/

/-- A chunk of a template: a backslash hides the byte behind it, and neither a backtick nor a dollar
sign with an opening brace stands unhidden. -/
def isChunk : Text → Bool
  | [] => true
  | [b] => b ≠ 92 && b ≠ 96
  | b :: c :: rest =>
    if b = 92 then isChunk rest
    else if b = 96 then false
    else if b = 36 && c = 123 then false
    else isChunk (c :: rest)

/-- A dollar sign in front of such a text does not belong to a run of characters. -/
def HoldsDollar (t : Text) : Prop :=
  t.head? = none ∨ t.head? = some 123 ∨ t.head? = some 96 ∨ t.head? = some 92 ∨ t.head? = some 36

instance (t : Text) : Decidable (HoldsDollar t) := inferInstanceAs (Decidable (_ ∨ _))

theorem templateChars_plain {b : UInt8} (h96 : b ≠ 96) (h92 : b ≠ 92) (h36 : b ≠ 36) (t : Text) :
    templateChars (b :: t) = 1 + templateChars t := by
  cases t with
  | nil => simp [templateChars, h96, h92, h36]
  | cons c t => simp [templateChars, h96, h92, h36]

theorem templateChars_backslash (c : UInt8) (t : Text) :
    templateChars (92 :: c :: t) = 2 + templateChars t := by
  simp [templateChars]

theorem templateChars_dollar (t : Text) :
    templateChars (36 :: t) = if HoldsDollar t then 0 else 1 + templateChars t := by
  cases t with
  | nil => simp [templateChars, HoldsDollar]
  | cons c t =>
    by_cases hc : HoldsDollar (c :: t)
    · rw [if_pos hc]
      rcases hc with hc | hc | hc | hc | hc <;> simp only [List.head?_cons, Option.some.injEq] at hc
      · simp at hc
      all_goals simp [templateChars, hc]
    · rw [if_neg hc]
      simp only [HoldsDollar, List.head?_cons, Option.some.injEq, not_or] at hc
      obtain ⟨-, h1, h2, h3, h4⟩ := hc
      rw [templateChars_plain h2 h3 h4]
      simp [templateChars, h1, h2, h3, h4]
      omega

theorem isChunk_plain {b : UInt8} (h96 : b ≠ 96) (h92 : b ≠ 92) (t : Text)
    (h : b = 36 → t.head? ≠ some 123) : isChunk (b :: t) = isChunk t := by
  cases t with
  | nil => simp [isChunk, h92, h96]
  | cons c t =>
    have hc : ¬ (b = 36 ∧ c = 123) := by simpa using h
    simp [isChunk, h92, h96, hc]

/-- The end of a chunk: a backtick, or a dollar sign with an opening brace. -/
def EndsChunk (t : Text) : Prop := (∃ r, t = 96 :: r) ∨ ∃ r, t = 36 :: 123 :: r

theorem EndsChunk.holdsDollar {t : Text} (h : EndsChunk t) : HoldsDollar t := by
  rcases h with ⟨r, rfl⟩ | ⟨r, rfl⟩ <;> simp [HoldsDollar]

theorem EndsChunk.templateChars_eq_zero {t : Text} (h : EndsChunk t) : templateChars t = 0 := by
  rcases h with ⟨_ | ⟨c, r⟩, rfl⟩ | ⟨r, rfl⟩ <;> simp [templateChars]

/-- How many characters are read does not depend on what ends the chunk. -/
theorem templateChars_ends {u rest rest' : Text} (hu : isChunk u = true) (hrest : EndsChunk rest)
    (hrest' : EndsChunk rest') : templateChars (u ++ rest) = templateChars (u ++ rest') := by
  fun_induction isChunk u with
  | case1 => rw [List.nil_append, List.nil_append, hrest.templateChars_eq_zero,
      hrest'.templateChars_eq_zero]
  | case2 b =>
    have hb : b ≠ 92 ∧ b ≠ 96 := by simpa using hu
    by_cases h36 : b = 36
    · rw [h36, List.cons_append, List.nil_append, List.cons_append, List.nil_append,
        templateChars_dollar, templateChars_dollar, if_pos hrest.holdsDollar,
        if_pos hrest'.holdsDollar]
    · rw [List.cons_append, List.nil_append, List.cons_append, List.nil_append,
        templateChars_plain hb.2 hb.1 h36, templateChars_plain hb.2 hb.1 h36,
        hrest.templateChars_eq_zero, hrest'.templateChars_eq_zero]
  | case3 c t ih =>
    simp only [List.cons_append, templateChars_backslash, ih hu]
  | case4 => simp at hu
  | case5 => simp at hu
  | case6 b c t h92 h96 h36 ih =>
    simp only [List.cons_append] at ih ⊢
    by_cases hb : b = 36
    · -- What follows the dollar sign belongs to the chunk, whatever ends it.
      have hhold : HoldsDollar (c :: (t ++ rest)) ↔ HoldsDollar (c :: (t ++ rest')) := by
        simp [HoldsDollar]
      rw [hb, templateChars_dollar, templateChars_dollar]
      simp only [hhold, ih hu]
    · rw [templateChars_plain h96 h92 hb, templateChars_plain h96 h92 hb, ih hu]

/-- In front of the end of a chunk, the characters read stay within the chunk and leave a chunk. -/
theorem templateChars_chunk {u rest : Text} (hu : isChunk u = true) (hrest : EndsChunk rest) :
    templateChars (u ++ rest) ≤ u.length ∧
      isChunk (u.drop (templateChars (u ++ rest))) = true := by
  have hplain : ∀ {b : UInt8} {t : Text} {n : Nat}, n ≤ t.length ∧ isChunk (t.drop n) = true →
      1 + n ≤ (b :: t).length ∧ isChunk ((b :: t).drop (1 + n)) = true := by
    intro b t n h
    rw [Nat.add_comm, List.drop_succ_cons, List.length_cons]
    exact ⟨by omega, h.2⟩
  -- The cases are those of a chunk: its end, a last byte, a backslash with what it escapes, a
  -- backtick, a hole, and a plain byte.
  fun_induction isChunk u with
  | case1 =>
    rw [List.nil_append, hrest.templateChars_eq_zero]
    simp [isChunk]
  | case2 b =>
    have hb : b ≠ 92 ∧ b ≠ 96 := by simpa using hu
    by_cases h36 : b = 36
    · rw [h36, List.cons_append, List.nil_append, templateChars_dollar,
        if_pos hrest.holdsDollar]
      simp [isChunk]
    · rw [List.cons_append, List.nil_append, templateChars_plain hb.2 hb.1 h36,
        hrest.templateChars_eq_zero]
      simp [isChunk]
  | case3 c t ih =>
    obtain ⟨hle, hdrop⟩ := ih hu
    rw [List.cons_append, List.cons_append, templateChars_backslash, Nat.add_comm]
    simp only [List.length_cons, List.drop_succ_cons]
    exact ⟨by omega, hdrop⟩
  | case4 => simp at hu
  | case5 => simp at hu
  | case6 b c t h92 h96 h36 ih =>
    have hc : b = 36 → (c :: (t ++ rest)).head? ≠ some 123 := by simpa using h36
    by_cases hb : b = 36
    · subst hb
      rw [List.cons_append, List.cons_append, templateChars_dollar]
      split
      · simpa [isChunk] using ⟨by simpa using hc rfl, hu⟩
      · exact hplain (ih hu)
    · rw [List.cons_append, List.cons_append, templateChars_plain h96 h92 hb]
      exact hplain (ih hu)

/-- A chunk whose first characters are not read is empty or starts with a dollar sign. -/
theorem dollar_of_templateChars_eq_zero {b : UInt8} {u rest : Text} (hu : isChunk (b :: u) = true)
    (h : templateChars (b :: u ++ rest) = 0) : b = 36 ∧ isChunk u = true := by
  have h92 : b ≠ 92 := by
    rintro rfl
    cases u with
    | nil => simp [isChunk] at hu
    | cons c u =>
      rw [List.cons_append, List.cons_append, templateChars_backslash] at h
      omega
  have h96 : b ≠ 96 := by
    rintro rfl
    cases u <;> simp [isChunk] at hu
  have h36 : b = 36 := by
    by_contra h36
    rw [List.cons_append, templateChars_plain h96 h92 h36] at h
    omega
  refine ⟨h36, ?_⟩
  by_cases hhead : u.head? = some 123
  · cases u with
    | nil => simp at hhead
    | cons c u =>
      simp only [List.head?_cons, Option.some.injEq] at hhead
      simp [isChunk, h36, hhead] at hu
  · rwa [isChunk_plain h96 h92 u fun _ => hhead] at hu

/-- Characters that were read are a chunk in front of every chunk. -/
theorem isChunk_take_append (t w : Text) :
    isChunk (t.take (templateChars t) ++ w) = isChunk w := by
  induction hlen : t.length using Nat.strong_induction_on generalizing t with
  | _ k ih =>
    -- A backslash takes the next byte with it, which is why one step back is not enough for the
    -- induction.
    cases t with
    | nil => rfl
    | cons b t =>
      rw [List.length_cons] at hlen
      by_cases h96 : b = 96
      · cases t <;> simp [templateChars, h96]
      by_cases h92 : b = 92
      · cases t with
        | nil => simp [templateChars, h92]
        | cons c t =>
          rw [List.length_cons] at hlen
          rw [h92, templateChars_backslash, Nat.add_comm]
          simpa [isChunk] using ih t.length (by omega) t rfl
      have hgo := ih t.length (by omega) t rfl
      by_cases h36 : b = 36
      · rw [h36, templateChars_dollar]
        split
        · rfl
        · rename_i hhold
          rw [Nat.add_comm, List.take_succ_cons, List.cons_append,
            isChunk_plain (by decide) (by decide) _ ?_]
          · exact hgo
          · -- The next byte has been read too, and it is no brace.
            intro _
            cases t with
            | nil => simp [HoldsDollar] at hhold
            | cons c t =>
              simp only [HoldsDollar, List.head?_cons, Option.some.injEq, not_or] at hhold
              obtain ⟨-, h1, h2, h3, h4⟩ := hhold
              rw [templateChars_plain h2 h3 h4, Nat.add_comm, List.take_succ_cons]
              simpa using h1
      · rw [templateChars_plain h96 h92 h36, Nat.add_comm, List.take_succ_cons, List.cons_append,
          isChunk_plain h96 h92 _ fun h => absurd h h36]
        exact hgo

end CubeSchema.Lexeme
