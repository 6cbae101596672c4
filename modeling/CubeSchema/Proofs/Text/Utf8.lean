import Mathlib.Tactic.SplitIfs
import CubeSchema.Text.Utf8

/-!
# Decoding and encoding

A well-formed sequence is the encoding of its code point (`firstGlyph_point`), and its bytes behind
the first are continuation bytes. So a text of well-formed sequences is the encoding of its code
points (`repaired_eq_self`).
-/

namespace CubeSchema.Text

theorem toUInt8_eq {n : Nat} {b : UInt8} (h : n = b.toNat) : n.toUInt8 = b := by
  subst h
  exact UInt8.ofNat_toNat

/-- A continuation byte is its six bits behind a marker. -/
theorem toNat_of_isContinuation {c : UInt8} (h : isContinuation c = true) :
    c.toNat = 0x80 + payload c := by
  simp only [isContinuation, Bool.and_eq_true, decide_eq_true_eq, UInt8.le_iff_toNat_le] at h
  have hlow : 128 ≤ c.toNat := h.1
  have hhigh : c.toNat ≤ 191 := h.2
  unfold payload
  omega

theorem payload_lt (c : UInt8) : payload c < 64 := Nat.mod_lt _ (by decide)

/-- A well-formed sequence is the encoding of its code point. -/
theorem firstGlyph_point {b : UInt8} {rest : Text} {v n : Nat}
    (h : firstGlyph b rest = .point v n) :
    ∃ tail more, rest = tail ++ more ∧ n = tail.length + 1 ∧ encode v = b :: tail ∧
      ∀ c ∈ tail, isContinuation c = true := by
  have hb : b.toNat < 256 := b.toNat_lt
  unfold firstGlyph at h
  simp only [Bool.and_eq_true, Bool.or_eq_true, decide_eq_true_eq] at h
  -- One case for each length of a sequence, from a single byte up to four.
  split_ifs at h with h₁ h₂ h₃ h₄
  · obtain ⟨rfl, rfl⟩ := h
    exact ⟨[], rest, rfl, rfl, by rw [encode, if_pos h₁, toUInt8_eq rfl], by simp⟩
  · rcases rest with _ | ⟨c, more⟩
    · simp at h
    · dsimp only at h
      split_ifs at h with hc
      obtain ⟨rfl, rfl⟩ := h
      refine ⟨[c], more, rfl, rfl, ?_, by simpa using hc⟩
      -- The range of the first byte tells which case of the encoding the code point is in.
      have hc' := toNat_of_isContinuation hc
      have hlt := payload_lt c
      rw [encode, if_neg (by omega), if_pos (by omega), toUInt8_eq (b := b) (by omega),
        toUInt8_eq (b := c) (by omega)]
  · rcases rest with _ | ⟨c, _ | ⟨d, more⟩⟩
    · simp at h
    · simp at h
    · dsimp only at h
      split_ifs at h with hv
      obtain ⟨⟨⟨hc, hd⟩, hlow⟩, hpoint⟩ := hv
      obtain ⟨rfl, rfl⟩ := h
      refine ⟨[c, d], more, rfl, rfl, ?_, by simp [hc, hd]⟩
      have hc' := toNat_of_isContinuation hc
      have hd' := toNat_of_isContinuation hd
      have hlt := payload_lt c
      have hlt' := payload_lt d
      rw [encode, if_neg (by omega), if_neg (by omega), if_neg (by simp; omega), if_pos (by omega),
        toUInt8_eq (b := b) (by omega), toUInt8_eq (b := c) (by omega),
        toUInt8_eq (b := d) (by omega)]
  · rcases rest with _ | ⟨c, _ | ⟨d, _ | ⟨e, more⟩⟩⟩
    · simp at h
    · simp at h
    · simp at h
    · dsimp only at h
      split_ifs at h with hv
      obtain ⟨⟨⟨⟨hc, hd⟩, he⟩, hlow⟩, hpoint⟩ := hv
      obtain ⟨rfl, rfl⟩ := h
      refine ⟨[c, d, e], more, rfl, rfl, ?_, by simp [hc, hd, he]⟩
      have hc' := toNat_of_isContinuation hc
      have hd' := toNat_of_isContinuation hd
      have he' := toNat_of_isContinuation he
      have hlt := payload_lt c
      have hlt' := payload_lt d
      have hlt'' := payload_lt e
      rw [encode, if_neg (by omega), if_neg (by omega), if_neg (by simp; omega),
        if_neg (by omega), toUInt8_eq (b := b) (by omega), toUInt8_eq (b := c) (by omega),
        toUInt8_eq (b := d) (by omega), toUInt8_eq (b := e) (by omega)]

/-- Behind the first byte of a glyph there are continuation bytes only. -/
theorem isContinuation_of_mem_glyph {b c : UInt8} {rest : Text}
    (hc : c ∈ rest.take ((firstGlyph b rest).size - 1)) : isContinuation c = true := by
  cases hglyph : firstGlyph b rest with
  | stray => simp [hglyph, Glyph.size] at hc
  | point v n =>
    obtain ⟨tail, more, rfl, rfl, -, htail⟩ := firstGlyph_point hglyph
    rw [hglyph] at hc
    exact htail c (by simpa [Glyph.size] using hc)

theorem size_firstGlyph_pos (b : UInt8) (rest : Text) : 0 < (firstGlyph b rest).size := by
  cases hglyph : firstGlyph b rest with
  | stray => exact Nat.one_pos
  | point v n =>
    obtain ⟨tail, more, rfl, rfl, -⟩ := firstGlyph_point hglyph
    exact Nat.succ_pos _

/-- An encoded code point is one ASCII byte, or has no ASCII byte. -/
theorem mem_encode {v : Nat} {b : UInt8} (hb : b ∈ encode v) : b.toNat = v ∨ 128 ≤ b.toNat := by
  have hbyte : ∀ {n : Nat}, n < 256 → n.toUInt8.toNat = n := fun h => UInt8.toNat_ofNat_of_lt' h
  have hhigh : ∀ {n : Nat}, 128 ≤ n → n < 256 → 128 ≤ n.toUInt8.toNat := fun h h' => by
    rwa [hbyte h']
  unfold encode at hb
  split_ifs at hb with h₁ h₂ h₃ h₄ <;>
    simp only [List.mem_cons, List.not_mem_nil, or_false] at hb
  · subst hb
    exact .inl (hbyte (by omega))
  · right
    rcases hb with rfl | rfl <;> exact hhigh (by omega) (by omega)
  · right
    rcases hb with rfl | rfl | rfl <;> decide
  · right
    rcases hb with rfl | rfl | rfl <;> exact hhigh (by omega) (by omega)
  · right
    simp only [Bool.or_eq_true, decide_eq_true_eq, not_or, Nat.not_lt] at h₃
    rcases hb with rfl | rfl | rfl | rfl <;> exact hhigh (by omega) (by omega)

/-- Well-formed sequences are the encoding of their code points. -/
theorem ofCodePoints_glyphsFrom {skip : Nat} {t : Text}
    (h : ∀ g ∈ glyphsFrom skip t, ∃ v n, g = .point v n) :
    ofCodePoints ((glyphsFrom skip t).map Glyph.value) = t.drop skip := by
  induction t generalizing skip with
  | nil => simp [glyphsFrom, ofCodePoints]
  | cons b rest ih =>
    cases skip with
    | succ skip => exact ih h
    | zero =>
      rw [glyphsFrom, List.forall_mem_cons] at h
      obtain ⟨⟨v, n, hglyph⟩, hrest⟩ := h
      obtain ⟨tail, more, rfl, rfl, hencode, -⟩ := firstGlyph_point hglyph
      have hmore : ofCodePoints ((glyphsFrom tail.length (tail ++ more)).map Glyph.value) =
          more := by
        have hskip := ih hrest
        rw [hglyph] at hskip
        simpa [Glyph.size] using hskip
      simp only [ofCodePoints] at hmore ⊢
      simp [glyphsFrom, hglyph, Glyph.size, Glyph.value, hencode, hmore]

/-- A text of well-formed sequences is the encoding of its code points. -/
theorem repaired_eq_self {t : Text} (h : t.isUtf8 = true) : t.repaired = t := by
  refine @ofCodePoints_glyphsFrom 0 t fun g hg => ?_
  have hpoint := List.all_eq_true.1 h g hg
  cases g with
  | point v n => exact ⟨v, n, rfl⟩
  | stray => simp at hpoint

end CubeSchema.Text
