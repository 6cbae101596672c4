import CubeSchema.Proofs.Text.Escapes
import CubeSchema.Proofs.Token.Lexeme

/-!
# Quoted texts

`Text.singleQuoted` writes a text code point by code point, each either as it is or as an escape
(`singleQuotedPoint_cases`). Two readers have to agree with it: the lexer, which looks for the
closing quote, and `unescape`, which decodes what stands between the quotes. Both take a written
code point off the front of a text as a whole, so that a quoted text is one string literal
(`isString_singleQuoted`) and holds the text that was quoted (`unescape_singleQuoted`).
-/

namespace CubeSchema.Text

open Lexeme

/-- A byte that stands for itself between single quotes. -/
def IsPlain (b : UInt8) : Prop := b ≠ 92 ∧ b ≠ 39 ∧ b ≠ newline

instance (b : UInt8) : Decidable (IsPlain b) := inferInstanceAs (Decidable (_ ∧ _))

/-- A written code point is an escape that is decoded as the code point, whatever follows it, or the
code point itself. -/
theorem singleQuotedPoint_cases (v : Nat) :
    (∃ c u, singleQuotedPoint v = 92 :: c :: u ∧ (∀ b ∈ u, IsPlain b) ∧
      ∀ t, escape? (c :: (u ++ t)) = some (encode v, u.length + 1)) ∨
    singleQuotedPoint v = encode v ∧ ∀ b ∈ encode v, IsPlain b := by
  have hcontrol : ∀ v < 32, hexNumber? (hexFixed 2 v) = some v ∧ (hexFixed 2 v).length = 2 ∧
      (hexFixed 2 v).all (IsPlain ·) = true := by decide +kernel
  unfold singleQuotedPoint
  split
  · exact .inl ⟨92, [], rfl, by simp, fun t => rfl⟩
  · exact .inl ⟨39, [], rfl, by simp, fun t => rfl⟩
  · exact .inl ⟨ascii 'n', [], rfl, by simp, fun t => rfl⟩
  · exact .inl ⟨ascii 'r', [], rfl, by simp, fun t => rfl⟩
  · exact .inl ⟨ascii 't', [], rfl, by simp, fun t => rfl⟩
  · rename_i h92 h39 h10 _ _
    split_ifs with hv
    · obtain ⟨hnumber, hlen, hplain⟩ := hcontrol v hv
      have hplain' : ∀ b ∈ hexFixed 2 v, IsPlain b := by simpa using hplain
      refine .inl ⟨ascii 'x', hexFixed 2 v, rfl, hplain', fun t => ?_⟩
      have hlong : ¬ (hexFixed 2 v ++ t).length < 2 := by
        rw [List.length_append, hlen]
        omega
      rw [escape?_hex, if_neg hlong, List.take_left' hlen, hnumber, hlen]
      rfl
    · refine .inr ⟨rfl, fun b hb => ?_⟩
      -- An encoded code point holds no ASCII byte except for itself.
      have hne : ∀ c : UInt8, c < 128 → v ≠ c.toNat → b ≠ c := by
        rintro c hc hvc rfl
        rcases mem_encode hb with h | h
        · exact hvc h.symm
        · exact absurd (show b.toNat < 128 from hc) (by omega)
      exact ⟨hne 92 (by decide) h92, hne 39 (by decide) h39, hne 10 (by decide) h10⟩

/-! ## Decoding -/

theorem unescapeFrom_eq_drop (skip : Nat) (t : Text) :
    unescapeFrom skip t = unescape (t.drop skip) := by
  induction t generalizing skip with
  | nil => simp [unescapeFrom, unescape]
  | cons b rest ih =>
    cases skip with
    | zero => rfl
    | succ skip => exact ih skip

/-- Bytes that are no backslashes are kept. -/
theorem unescape_append {u : Text} (hu : ∀ b ∈ u, b ≠ 92) (t : Text) :
    unescape (u ++ t) = t.unescape.map (u ++ ·) := by
  induction u with
  | nil => simp
  | cons b u ih =>
    rw [List.forall_mem_cons] at hu
    have hstep : unescape (b :: (u ++ t)) = (unescape (u ++ t)).map (b :: ·) := by
      rw [unescape, unescapeFrom, if_neg hu.1]
      exact Option.map_eq_bind.symm
    rw [List.cons_append, hstep, ih hu.2, Option.map_map]
    rfl

/-- An escape is replaced by its text. -/
theorem unescape_escape {u t d : Text} (h : escape? (u ++ t) = some (d, u.length)) :
    unescape (92 :: (u ++ t)) = t.unescape.map (d ++ ·) := by
  have hrest : unescapeFrom u.length (u ++ t) = unescape t := by
    rw [unescapeFrom_eq_drop, List.drop_left]
  rw [unescape, unescapeFrom, if_pos rfl, h, ← hrest]
  exact Option.map_eq_bind.symm

/-- A written code point is decoded as the code point. -/
theorem unescape_singleQuotedPoint (v : Nat) (t : Text) :
    unescape (singleQuotedPoint v ++ t) = t.unescape.map (encode v ++ ·) := by
  rcases singleQuotedPoint_cases v with ⟨c, u, hv, -, hescape⟩ | ⟨hv, hplain⟩
  · rw [hv]
    exact unescape_escape (u := c :: u) (hescape t)
  · rw [hv]
    exact unescape_append (fun b hb => (hplain b hb).1) t

theorem unescape_flatMap (vs : List Nat) :
    unescape (vs.flatMap singleQuotedPoint) = some (ofCodePoints vs) := by
  induction vs with
  | nil => rfl
  | cons v vs ih =>
    rw [List.flatMap_cons, unescape_singleQuotedPoint, ih]
    rfl

/-- What stands between the quotes of a quoted text. -/
theorem inner_singleQuoted (t : Text) :
    (t.singleQuoted.drop 1).dropLast = t.codePoints.flatMap singleQuotedPoint := by
  rw [singleQuoted, List.cons_append, List.drop_one, List.tail_cons, List.dropLast_concat]

/-- Unquoting undoes quoting, for a text of well-formed sequences. -/
theorem unescape_singleQuoted {t : Text} (h : t.isUtf8 = true) :
    unescape (t.singleQuoted.drop 1).dropLast = some t := by
  rw [inner_singleQuoted, unescape_flatMap]
  exact congrArg some (repaired_eq_self h)

/-! ## The closing quote -/

/-- The search for the closing quote goes past bytes that stand for themselves. -/
theorem quoteEnd?_append_plain {u : Text} (hu : ∀ b ∈ u, IsPlain b) (t : Text) :
    quoteEnd? 39 (u ++ t) = (quoteEnd? 39 t).map (· + u.length) := by
  induction u with
  | nil => simp
  | cons b u ih =>
    rw [List.forall_mem_cons] at hu
    obtain ⟨⟨h92, h39, h10⟩, hu⟩ := hu
    rw [List.cons_append, quoteEnd?_cons, if_neg h39, if_neg h92, if_neg h10, ih hu,
      Option.map_map]
    rfl

/-- The search for the closing quote goes past a written code point. -/
theorem quoteEnd?_singleQuotedPoint (v : Nat) (t : Text) :
    quoteEnd? 39 (singleQuotedPoint v ++ t) =
      (quoteEnd? 39 t).map (· + (singleQuotedPoint v).length) := by
  rcases singleQuotedPoint_cases v with ⟨c, u, hv, hplain, -⟩ | ⟨hv, hplain⟩
  · rw [hv, List.cons_append, quoteEnd?_cons, if_neg (by decide), if_pos rfl, List.cons_append,
      List.tail_cons, quoteEnd?_append_plain hplain, Option.map_map]
    rfl
  · rw [hv]
    exact quoteEnd?_append_plain hplain t

theorem quoteEnd?_flatMap (vs : List Nat) :
    quoteEnd? 39 (vs.flatMap singleQuotedPoint ++ [39]) =
      some ((vs.flatMap singleQuotedPoint).length + 1) := by
  induction vs with
  | nil => rfl
  | cons v vs ih =>
    rw [List.flatMap_cons, List.append_assoc, quoteEnd?_singleQuotedPoint, ih, Option.map_some,
      List.length_append]
    congr 1
    omega

/-- A quoted text is one string literal, whatever bytes were quoted. -/
theorem isString_singleQuoted (t : Text) : IsString t.singleQuoted := by
  refine ⟨by simp [singleQuoted], ?_⟩
  rw [singleQuoted, List.cons_append, string, if_pos (by decide), quoteEnd?_flatMap,
    List.length_cons, List.length_append]
  rfl

end CubeSchema.Text
