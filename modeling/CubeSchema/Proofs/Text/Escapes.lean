import Mathlib.Data.Nat.Digits.Defs
import CubeSchema.Proofs.Text.Utf8
import CubeSchema.Text.Escape

/-!
# Which chunks can be decoded

`WellEscaped` says of a chunk, read from left to right, that each of its backslashes starts an
escape. What may follow a backslash is `StartsEscape`, with the numbers that may stand between
braces as a parameter. `unescape_isSome` shows that `unescape` decodes exactly the chunks that are
well escaped with the numbers of `isEscapeNumber`.

These numbers are not the code points. A number of 32 bits whose highest bit is set is taken for a
negative one, so it passes the comparison with the last code point and is accepted; see
`beyondLastPoint_accepted`.
-/

namespace CubeSchema.Text

/-! ## The grammar of escapes -/

/-- `t` is written in hexadecimal digits, whose values are `vs`. -/
def IsHex (t : Text) (vs : List Nat) : Prop := t.map hexValue? = vs.map some

/-- The texts that may follow a backslash. The numbers between braces satisfy `named`. -/
inductive StartsEscape (named : Nat → Prop) : Text → Prop
  | zero {rest : Text} (hrest : ∀ d ∈ rest.head?, isDigit d = false) :
    StartsEscape named (ascii '0' :: rest)
  | hex {digits rest : Text} {vs : List Nat} (hdigits : IsHex digits vs)
      (hlen : digits.length = 2) :
    StartsEscape named (ascii 'x' :: (digits ++ rest))
  | unicode {digits rest : Text} {vs : List Nat} (hdigits : IsHex digits vs)
      (hlen : digits.length = 4) :
    StartsEscape named (ascii 'u' :: (digits ++ rest))
  | braced {digits rest : Text} {vs : List Nat} (hdigits : IsHex digits vs) (hne : digits ≠ [])
      (hnamed : named (Nat.ofDigits 16 vs.reverse)) :
    StartsEscape named (ascii 'u' :: 123 :: (digits ++ 125 :: rest))
  | other {e : UInt8} {rest : Text} (hzero : e ≠ ascii '0') (hhex : e ≠ ascii 'x')
      (hunicode : e ≠ ascii 'u') :
    StartsEscape named (e :: rest)

/-- The texts in which each backslash starts an escape. The byte behind a backslash belongs to the
escape; what else belongs to it are no backslashes, so the reading may go on right behind it. -/
inductive WellEscaped (named : Nat → Prop) : Text → Prop
  | nil : WellEscaped named []
  | plain {b : UInt8} {t : Text} (hb : b ≠ 92) (ht : WellEscaped named t) :
    WellEscaped named (b :: t)
  | escape {e : UInt8} {t : Text} (he : StartsEscape named (e :: t)) (ht : WellEscaped named t) :
    WellEscaped named (92 :: e :: t)

/-- The numbers that the braces of an escape may hold: the numbers up to the last code point, and
those that a word of 32 bits holds as a negative number. -/
def isEscapeNumber (v : Nat) : Prop := v ≤ 0x10FFFF ∨ 0x80000000 ≤ v ∧ v ≤ 0xFFFFFFFF

variable {named : Nat → Prop}

theorem wellEscaped_backslash {t : Text} :
    WellEscaped named (92 :: t) ↔
      ∃ e rest, t = e :: rest ∧ StartsEscape named (e :: rest) ∧ WellEscaped named rest := by
  constructor
  · intro h
    cases h with
    | plain hb => exact absurd rfl hb
    | escape he ht => exact ⟨_, _, rfl, he, ht⟩
  · rintro ⟨e, rest, rfl, he, ht⟩
    exact .escape he ht

theorem wellEscaped_plain {b : UInt8} (hb : b ≠ 92) {t : Text} :
    WellEscaped named (b :: t) ↔ WellEscaped named t := by
  refine ⟨fun h => ?_, .plain hb⟩
  cases h with
  | plain _ ht => exact ht
  | escape => exact absurd rfl hb

/-- Bytes that are no backslashes do not matter. -/
theorem wellEscaped_drop {t : Text} {k : Nat} (hplain : ∀ b ∈ t.take k, b ≠ 92) :
    WellEscaped named (t.drop k) ↔ WellEscaped named t := by
  induction k generalizing t with
  | zero => rfl
  | succ k ih =>
    cases t with
    | nil => rfl
    | cons b t =>
      rw [List.take_succ_cons, List.forall_mem_cons] at hplain
      rw [List.drop_succ_cons, ih hplain.2, wellEscaped_plain hplain.1]

/-! ## Hexadecimal digits -/

@[simp]
theorem isHex_nil {vs : List Nat} : IsHex [] vs ↔ vs = [] := by
  cases vs <;> simp [IsHex]

theorem isHex_cons {b : UInt8} {t : Text} {vs : List Nat} :
    IsHex (b :: t) vs ↔ ∃ d ds, hexValue? b = some d ∧ IsHex t ds ∧ d :: ds = vs := by
  cases vs <;> simp [IsHex]

theorem IsHex.unique {t : Text} {vs vs' : List Nat} (h : IsHex t vs) (h' : IsHex t vs') :
    vs = vs' :=
  (List.map_inj_right fun _ _ => Option.some.inj).1 (h.symm.trans h')

/-- A byte that is no hexadecimal digit does not occur among them. -/
theorem IsHex.ne_of_mem {t : Text} {vs : List Nat} (h : IsHex t vs) {b c : UInt8} (hb : b ∈ t)
    (hc : hexValue? c = none) : b ≠ c := by
  rintro rfl
  have hmem : hexValue? b ∈ vs.map some := h ▸ List.mem_map_of_mem hb
  obtain ⟨v, -, hv⟩ := List.mem_map.1 hmem
  exact absurd (hv.trans hc) (by simp)

/-- Reading digit after digit behind a number that was read before. -/
theorem foldlM_hexValue? (t : Text) (n v : Nat) :
    t.foldlM (fun n b => (hexValue? b).map (16 * n + ·)) n = some v ↔
      ∃ vs, IsHex t vs ∧ vs.foldl (fun n d => d + 16 * n) n = v := by
  induction t generalizing n with
  | nil => simp
  | cons b t ih =>
    cases hb : hexValue? b with
    | none => simp [isHex_cons, hb]
    | some d =>
      simp only [List.foldlM_cons, hb, Option.map_some, Option.bind_eq_bind, Option.bind_some, ih,
        isHex_cons, Option.some.injEq]
      constructor
      · rintro ⟨ds, hds, hv⟩
        exact ⟨d :: ds, ⟨d, ds, rfl, hds, rfl⟩, by rwa [List.foldl_cons, Nat.add_comm]⟩
      · rintro ⟨_, ⟨_, ds, rfl, hds, rfl⟩, hv⟩
        exact ⟨ds, hds, by rwa [List.foldl_cons, Nat.add_comm] at hv⟩

/-- A hexadecimal number is its digits by place, the last one first. -/
theorem hexNumber?_eq_some {t : Text} {v : Nat} :
    hexNumber? t = some v ↔ t ≠ [] ∧ ∃ vs, IsHex t vs ∧ Nat.ofDigits 16 vs.reverse = v := by
  unfold hexNumber?
  split_ifs with hempty
  · simp [List.isEmpty_iff.1 hempty]
  · have hne : t ≠ [] := by rintro rfl; exact hempty rfl
    simp [hne, foldlM_hexValue?, Nat.ofDigits_eq_foldr]

theorem numericEscape?_isSome {v : Nat} : (numericEscape? v).isSome ↔ isEscapeNumber v := by
  unfold numericEscape? isEscapeNumber
  split_ifs <;> simp_all

/-! ## One escape

A decoded escape takes its first byte and `k` bytes more, none of which is a backslash. -/

theorem IsHex.ne_backslash {t : Text} {vs : List Nat} (h : IsHex t vs) : ∀ b ∈ t, b ≠ 92 :=
  fun _ hb => h.ne_of_mem hb (by decide)

theorem escape?_zero (rest : Text) :
    escape? (ascii '0' :: rest) = if rest.head?.any isDigit then none else some ([0], 1) := rfl

theorem escape?_hex (rest : Text) :
    escape? (ascii 'x' :: rest) = if rest.length < 2 then none else
      (hexNumber? (rest.take 2)).map fun v => (encode v, 3) := rfl

theorem escape?_braced (inner : Text) :
    escape? (ascii 'u' :: 123 :: inner) =
      if (inner.takeWhile (· ≠ 125)).length = inner.length then none else
        ((hexNumber? (inner.takeWhile (· ≠ 125))).bind numericEscape?).map fun t =>
          (t, (inner.takeWhile (· ≠ 125)).length + 3) := rfl

theorem escape?_unicode {rest : Text} (hrest : rest.head? ≠ some 123) :
    escape? (ascii 'u' :: rest) = if rest.length < 4 then none else
      (hexNumber? (rest.take 4)).map fun v => (encode v, 5) := by
  unfold escape?
  dsimp only
  iterate 10 rw [if_neg (by decide)]
  rw [if_pos rfl]
  split
  · exact absurd rfl hrest
  · rfl

/-- Every other escape is decoded. -/
theorem escape?_other {e : UInt8} (hzero : e ≠ ascii '0') (hhex : e ≠ ascii 'x')
    (hunicode : e ≠ ascii 'u') (rest : Text) :
    ∃ d k, escape? (e :: rest) = some (d, k + 1) ∧ ∀ b ∈ rest.take k, b ≠ 92 := by
  have hsingle {c : Prop} [Decidable c] {x : Text} {a : Option (Text × Nat)}
      (h : ∃ d k, a = some (d, k + 1) ∧ ∀ b ∈ rest.take k, b ≠ 92) :
      ∃ d k, (if c then some (x, 1) else a) = some (d, k + 1) ∧ ∀ b ∈ rest.take k, b ≠ 92 := by
    split
    · exact ⟨x, 0, rfl, by simp⟩
    · exact h
  unfold escape?
  dsimp only
  rw [if_neg hzero, if_neg hhex, if_neg hunicode]
  iterate 7 refine hsingle ?_
  -- Only a line break and a byte beyond ASCII can take more than one byte.
  split
  · split
    · rename_i hpair
      obtain ⟨more, rfl⟩ := List.head?_eq_some_iff.1 hpair
      exact ⟨[], 1, rfl, by simp⟩
    · exact ⟨[], 0, rfl, by simp⟩
  · refine ⟨encode (firstGlyph e rest).value, (firstGlyph e rest).size - 1, ?_, ?_⟩
    · rw [Nat.sub_add_cancel (size_firstGlyph_pos e rest)]
    · rintro _ hb rfl
      exact absurd (isContinuation_of_mem_glyph hb) (by decide)

/-- What stands between braces is read up to the first closing brace. -/
theorem takeWhile_digits {digits rest : Text} {vs : List Nat} (h : IsHex digits vs) :
    (digits ++ 125 :: rest).takeWhile (· ≠ 125) = digits := by
  rw [List.takeWhile_append_of_pos]
  · simp
  · intro d hd
    simpa using h.ne_of_mem hd (by decide : hexValue? 125 = none)

theorem exists_closing {inner : Text}
    (h : ¬ (inner.takeWhile (· ≠ 125)).length = inner.length) :
    ∃ rest, inner = inner.takeWhile (· ≠ 125) ++ 125 :: rest := by
  have hsplit := List.takeWhile_append_dropWhile (p := (· ≠ 125)) (l := inner)
  cases hrest : inner.dropWhile (· ≠ 125) with
  | nil =>
    rw [hrest, List.append_nil] at hsplit
    exact absurd (congrArg List.length hsplit) h
  | cons c rest =>
    have hc := List.head?_dropWhile_not (· ≠ 125) inner
    rw [hrest] at hc
    obtain rfl : c = 125 := by simpa using hc
    exact ⟨rest, by rw [← hrest, hsplit]⟩

/-- The number between the braces of an escape is the one that its digits tell. -/
theorem IsHex.named_of_braced {digits rest : Text} {vs : List Nat} (hdigits : IsHex digits vs)
    (h : StartsEscape named (ascii 'u' :: 123 :: (digits ++ 125 :: rest))) :
    named (Nat.ofDigits 16 vs.reverse) := by
  generalize htext : ascii 'u' :: 123 :: (digits ++ 125 :: rest) = t at h
  cases h with
  | zero | hex => exact absurd (List.cons.inj htext).1 (by decide)
  | other _ _ hunicode => exact absurd (List.cons.inj htext).1.symm hunicode
  | unicode hdigits' hlen =>
    obtain ⟨d, more, rfl⟩ := List.exists_cons_of_length_eq_add_one hlen
    have hd : d = 123 := (List.cons.inj (List.cons.inj htext).2).1.symm
    exact absurd hd (hdigits'.ne_of_mem List.mem_cons_self (by decide))
  | braced hdigits' _ hnamed =>
    have hbehind := (List.cons.inj (List.cons.inj htext).2).2
    have hsame := congrArg (List.takeWhile (· ≠ 125)) hbehind
    rw [takeWhile_digits hdigits, takeWhile_digits hdigits'] at hsame
    subst hsame
    obtain rfl := hdigits.unique hdigits'
    exact hnamed

/-- A number of `n` digits in front of a text. -/
theorem hexNumber?_take_of_append {digits rest : Text} {vs : List Nat} (h : IsHex digits vs)
    {n : Nat} (hlen : digits.length = n) (hn : 0 < n) :
    ¬ (digits ++ rest).length < n ∧
      hexNumber? ((digits ++ rest).take n) = some (Nat.ofDigits 16 vs.reverse) := by
  have hne : digits ≠ [] := by rintro rfl; exact absurd hlen (by simpa using hn.ne)
  refine ⟨by simp [hlen], ?_⟩
  rw [List.take_left' hlen, hexNumber?_eq_some]
  exact ⟨hne, vs, h, rfl⟩

/-- An escape is decoded. -/
theorem StartsEscape.isSome {t : Text} (h : StartsEscape isEscapeNumber t) :
    (escape? t).isSome := by
  cases h with
  | @zero rest hrest =>
    have hnone : rest.head?.any isDigit = false := by
      cases hhead : rest.head? with
      | none => rfl
      | some d => exact hrest d hhead
    rw [escape?_zero, hnone]
    rfl
  | hex hdigits hlen =>
    obtain ⟨hlong, hnumber⟩ := hexNumber?_take_of_append hdigits hlen (by decide)
    rw [escape?_hex, if_neg hlong, hnumber]
    rfl
  | @unicode digits rest vs hdigits hlen =>
    obtain ⟨hlong, hnumber⟩ := hexNumber?_take_of_append hdigits hlen (by decide)
    -- A digit is no brace, so the digits are read as four and not up to a closing brace.
    have hhead : (digits ++ rest).head? ≠ some 123 := by
      obtain ⟨d, more, rfl⟩ := List.exists_cons_of_length_eq_add_one hlen
      simpa using hdigits.ne_of_mem List.mem_cons_self (by decide : hexValue? 123 = none)
    rw [escape?_unicode hhead, if_neg hlong, hnumber]
    rfl
  | @braced digits rest vs hdigits hne hnamed =>
    have hclosed : digits.length ≠ (digits ++ 125 :: rest).length := by simp
    have hnumber : hexNumber? digits = some (Nat.ofDigits 16 vs.reverse) :=
      hexNumber?_eq_some.2 ⟨hne, vs, hdigits, rfl⟩
    rw [escape?_braced, takeWhile_digits hdigits, if_neg hclosed, hnumber, Option.isSome_map]
    exact numericEscape?_isSome.2 hnamed
  | other hzero hhex hunicode =>
    obtain ⟨d, k, hother, -⟩ := escape?_other hzero hhex hunicode _
    rw [hother]
    rfl

/-- A number of fixed length that is decoded stands in front of the text. -/
theorem exists_digits_of_fixed {rest d : Text} {n k : Nat}
    (h : (if rest.length < n then none else
      (hexNumber? (rest.take n)).map fun v => (encode v, n + 1)) = some (d, k)) :
    ∃ digits more vs, rest = digits ++ more ∧ IsHex digits vs ∧ digits.length = n ∧ k = n + 1 := by
  split_ifs at h with hlen
  obtain ⟨v, hnumber, hv⟩ := Option.map_eq_some_iff.1 h
  obtain ⟨-, rfl⟩ := hv
  obtain ⟨-, vs, hvs, -⟩ := hexNumber?_eq_some.1 hnumber
  exact ⟨_, _, vs, (List.take_append_drop n rest).symm, hvs, by simp; omega, rfl⟩

/-- An escape with braces that is decoded holds digits up to its closing brace. -/
theorem exists_digits_of_braced {inner d : Text} {k : Nat}
    (h : escape? (ascii 'u' :: 123 :: inner) = some (d, k)) :
    ∃ digits more vs, inner = digits ++ 125 :: more ∧ IsHex digits vs ∧ digits ≠ [] ∧
      isEscapeNumber (Nat.ofDigits 16 vs.reverse) ∧ k = digits.length + 3 := by
  rw [escape?_braced] at h
  split_ifs at h with hopen
  obtain ⟨more, hinner⟩ := exists_closing hopen
  obtain ⟨t, hnumber, ht⟩ := Option.map_eq_some_iff.1 h
  obtain ⟨v, hv, hnamed⟩ := Option.bind_eq_some_iff.1 hnumber
  obtain ⟨-, rfl⟩ := ht
  obtain ⟨hne, vs, hvs, rfl⟩ := hexNumber?_eq_some.1 hv
  exact ⟨_, more, vs, hinner, hvs, hne, numericEscape?_isSome.1 (by rw [hnamed]; rfl), rfl⟩

/-- What is decoded is an escape. -/
theorem startsEscape_of_escape? {e : UInt8} {rest d : Text} {n : Nat}
    (h : escape? (e :: rest) = some (d, n)) :
    StartsEscape isEscapeNumber (e :: rest) ∧ ∃ k, n = k + 1 ∧ ∀ b ∈ rest.take k, b ≠ 92 := by
  -- The byte behind the backslash decides: a zero, two digits, four digits or some in braces, and
  -- every other byte stands for itself.
  by_cases hzero : e = ascii '0'
  · subst hzero
    rw [escape?_zero] at h
    split_ifs at h with hdigit
    obtain ⟨-, rfl⟩ := h
    refine ⟨.zero fun d hd => ?_, 0, rfl, by simp⟩
    rw [Option.mem_def.1 hd] at hdigit
    simpa using hdigit
  by_cases hhex : e = ascii 'x'
  · subst hhex
    obtain ⟨digits, more, vs, rfl, hvs, hlen, rfl⟩ := exists_digits_of_fixed h
    exact ⟨.hex hvs hlen, 2, rfl, by rw [List.take_left' hlen]; exact hvs.ne_backslash⟩
  by_cases hunicode : e = ascii 'u'
  · subst hunicode
    by_cases hbrace : rest.head? = some 123
    · obtain ⟨inner, rfl⟩ : ∃ inner, rest = 123 :: inner := List.head?_eq_some_iff.1 hbrace
      obtain ⟨digits, more, vs, rfl, hvs, hne, hnamed, rfl⟩ := exists_digits_of_braced h
      refine ⟨.braced hvs hne hnamed, digits.length + 2, rfl, fun b hb => ?_⟩
      have hb' : b = 123 ∨ b ∈ digits ∨ b = 125 := by
        simpa [List.take_append, List.take_of_length_le (Nat.le_succ _)] using hb
      rcases hb' with rfl | hb' | rfl
      · decide
      · exact hvs.ne_backslash b hb'
      · decide
    · rw [escape?_unicode hbrace] at h
      obtain ⟨digits, more, vs, rfl, hvs, hlen, rfl⟩ := exists_digits_of_fixed h
      exact ⟨.unicode hvs hlen, 4, rfl, by rw [List.take_left' hlen]; exact hvs.ne_backslash⟩
  · obtain ⟨d', k, hother, hplain⟩ := escape?_other hzero hhex hunicode rest
    obtain ⟨-, rfl⟩ := Prod.mk.inj (Option.some.inj (h.symm.trans hother))
    exact ⟨.other hzero hhex hunicode, k, rfl, hplain⟩

/-! ## Whole chunks -/

theorem unescapeFrom_isSome (skip : Nat) (t : Text) :
    (unescapeFrom skip t).isSome ↔ WellEscaped isEscapeNumber (t.drop skip) := by
  fun_induction unescapeFrom skip t with
  | case1 => simpa using .nil
  | case2 skip b rest ih => exact ih
  | case3 rest ih =>
    rw [List.drop_zero, wellEscaped_backslash]
    constructor
    · intro h
      obtain ⟨decoded, hdecoded⟩ := Option.isSome_iff_exists.1 h
      obtain ⟨⟨front, size⟩, hescape, hbehind⟩ := Option.bind_eq_some_iff.1 hdecoded
      obtain ⟨back, hback, -⟩ := Option.bind_eq_some_iff.1 hbehind
      cases rest with
      | nil => cases hescape
      | cons e more =>
        -- The bytes that the escape takes are no backslashes, so that skipping them loses no
        -- escape.
        obtain ⟨hstarts, k, rfl, hplain⟩ := startsEscape_of_escape? hescape
        have hmore := (ih (k + 1)).1 (by rw [hback]; rfl)
        rw [List.drop_succ_cons, wellEscaped_drop hplain] at hmore
        exact ⟨e, more, rfl, hstarts, hmore⟩
    · rintro ⟨e, more, rfl, hstarts, hmore⟩
      obtain ⟨⟨decoded, size⟩, hescape⟩ := Option.isSome_iff_exists.1 hstarts.isSome
      obtain ⟨-, k, rfl, hplain⟩ := startsEscape_of_escape? hescape
      have hrest : (unescapeFrom (k + 1) (e :: more)).isSome := by
        rw [ih, List.drop_succ_cons, wellEscaped_drop hplain]
        exact hmore
      obtain ⟨decodedRest, hdecodedRest⟩ := Option.isSome_iff_exists.1 hrest
      simp [hescape, hdecodedRest]
  | case4 b rest hb ih =>
    have hsome : (do return b :: (← unescapeFrom 0 rest)).isSome ↔
        (unescapeFrom 0 rest).isSome := by
      cases unescapeFrom 0 rest <;> simp
    rw [hsome, ih, List.drop_zero, List.drop_zero, wellEscaped_plain hb]

/-- A chunk is decoded if and only if each of its backslashes starts an escape, the numbers between
braces being those of `isEscapeNumber`. -/
theorem unescape_isSome (t : Text) :
    t.unescape.isSome ↔ WellEscaped isEscapeNumber t :=
  unescapeFrom_isSome 0 t

/-- The escape of a number that is negative as a word of 32 bits. -/
def beyondLastPoint : Text := lit "\\u\x7b80000000\x7d"

/-- An escaped number above the last code point is accepted, as a replacement character. -/
theorem beyondLastPoint_accepted :
    beyondLastPoint.unescape = some (encode 0xFFFD) ∧
      ¬ WellEscaped (· ≤ 0x10FFFF) beyondLastPoint := by
  refine ⟨by decide, fun h => ?_⟩
  have hdigits : IsHex (lit "80000000") [8, 0, 0, 0, 0, 0, 0, 0] := rfl
  obtain ⟨_, _, heq, hstarts, -⟩ := wellEscaped_backslash.1 h
  rw [← heq] at hstarts
  exact absurd (hdigits.named_of_braced hstarts) (by decide)

end CubeSchema.Text
