import CubeSchema.Proofs.Token.Modes
import Mathlib.Data.List.Chain

/-!
# Places of tokens

The lexer keeps the place of the next token by adding up the texts of the tokens before it. Lines
add up always; columns count glyphs, and these add up only where no glyph is cut in two. `CleanCut`
is the condition for that, and every rule of the lexer meets it at the end of its token. Hence the
place of each token, and of the failure if there is one, is the place behind all the text in front
of it. Tokens of a template touch the token before them, because nothing is dropped there.
-/

namespace CubeSchema

open Lexeme

namespace Text

/-! ## Cutting between glyphs -/

/-- No glyph is cut in two between these texts, because one of the bytes at the cut is ASCII. -/
def CleanCut (u v : Text) : Prop := (∀ b ∈ u.getLast?, b < 128) ∨ ∀ b ∈ v.head?, b < 128

theorem cleanCut_nil (v : Text) : CleanCut [] v := .inl (by simp)

/-- Only the last byte in front of the cut counts. -/
theorem CleanCut.of_suffix {u u' v : Text} (h : CleanCut u v) (hsuffix : u' <:+ u) :
    CleanCut u' v := by
  rcases h with h | h
  · left
    intro b hb
    obtain ⟨w, rfl⟩ := hsuffix
    refine h b ?_
    rw [List.getLast?_append, Option.mem_def.1 hb]
    rfl
  · exact .inr h

theorem CleanCut.extend {u v : Text} (h : CleanCut u v) (hu : u ≠ []) (w : Text) :
    CleanCut (w ++ u) v := by
  obtain ⟨front, b, rfl⟩ := List.eq_nil_or_concat u |>.resolve_left hu
  refine h.imp_left fun h c hc => h c ?_
  rw [List.concat_eq_append, ← List.append_assoc, List.getLast?_concat] at hc
  rwa [List.concat_eq_append, List.getLast?_concat]

theorem CleanCut.take {u v : Text} (h : CleanCut u v) (n : Nat) : CleanCut u (v.take n) := by
  refine h.imp_right fun h b hb => h b ?_
  rw [List.head?_take] at hb
  split at hb
  · cases hb
  · exact hb

theorem isContinuation_of_lt {b : UInt8} (h : b < 128) : isContinuation b = false := by
  simp only [isContinuation, Bool.and_eq_false_iff, decide_eq_false_iff_not]
  exact .inl (by simpa using h)

/-- A glyph in front of a clean cut is the same without the text behind the cut. -/
theorem firstGlyph_append {b : UInt8} {rest v : Text} (h : CleanCut (b :: rest) v) :
    firstGlyph b (rest ++ v) = firstGlyph b rest ∧
      (firstGlyph b rest).size ≤ rest.length + 1 := by
  -- A longer glyph would need a continuation byte on both sides of the cut.
  have hcut : ∀ c : UInt8, (b :: rest).getLast? = some c →
      c < 128 ∨ ∀ x ∈ v.head?, isContinuation x = false := by
    intro c hc
    rcases h with h | h
    · exact .inl (h c hc)
    · exact .inr fun x hx => isContinuation_of_lt (h x hx)
  unfold firstGlyph
  rcases rest with _ | ⟨c, _ | ⟨d, _ | ⟨e, rest⟩⟩⟩
  · rcases hcut b rfl with hb | hv
    · have hsmall : b.toNat < 128 := hb
      simp [hsmall, Glyph.size]
    · rcases v with _ | ⟨x, _ | ⟨y, _ | ⟨z, v⟩⟩⟩ <;> grind [Glyph.size]
  · have hc : isContinuation c = false ∨ ∀ x ∈ v.head?, isContinuation x = false :=
      (hcut c rfl).imp_left isContinuation_of_lt
    rcases v with _ | ⟨y, _ | ⟨z, v⟩⟩ <;> grind [Glyph.size]
  · have hd : isContinuation d = false ∨ ∀ x ∈ v.head?, isContinuation x = false :=
      (hcut d rfl).imp_left isContinuation_of_lt
    rcases v with _ | ⟨z, v⟩ <;> grind [Glyph.size]
  · grind [Glyph.size]

theorem glyphsFrom_append {u v : Text} (h : CleanCut u v) {skip : Nat} (hskip : skip ≤ u.length) :
    glyphsFrom skip (u ++ v) = glyphsFrom skip u ++ glyphs v := by
  induction u generalizing skip with
  | nil =>
    obtain rfl : skip = 0 := by simpa using hskip
    rfl
  | cons b rest ih =>
    have hrest : CleanCut rest v := h.of_suffix (List.suffix_cons b rest)
    cases skip with
    | succ skip => exact ih hrest (by simpa using hskip)
    | zero =>
      obtain ⟨hsame, hsize⟩ := firstGlyph_append h
      have hmore : glyphsFrom ((firstGlyph b rest).size - 1) (rest ++ v) =
          glyphsFrom ((firstGlyph b rest).size - 1) rest ++ glyphs v := ih hrest (by omega)
      show firstGlyph b (rest ++ v) ::
          glyphsFrom ((firstGlyph b (rest ++ v)).size - 1) (rest ++ v) =
        firstGlyph b rest :: glyphsFrom ((firstGlyph b rest).size - 1) rest ++ glyphs v
      rw [hsame, hmore]
      rfl

/-- Glyphs on both sides of a clean cut add up. -/
theorem glyphCount_append {u v : Text} (h : CleanCut u v) :
    (u ++ v).glyphCount = u.glyphCount + v.glyphCount := by
  rw [glyphCount, glyphs, glyphsFrom_append h (Nat.zero_le _), List.length_append]
  rfl

/-- The text behind the last line feed. -/
def lastLine (t : Text) : Text := (t.reverse.takeWhile (· ≠ newline)).reverse

theorem lastLine_suffix (t : Text) : lastLine t <:+ t := by
  have h := List.takeWhile_prefix (fun b : UInt8 => decide (b ≠ newline)) (l := t.reverse)
  rw [← List.reverse_suffix] at h
  rwa [List.reverse_reverse] at h

theorem lastLine_append_of_not_mem {u v : Text} (h : newline ∉ v) :
    lastLine (u ++ v) = lastLine u ++ v := by
  have hall : ∀ b ∈ v.reverse, decide (b ≠ newline) = true := by
    intro b hb
    have : b ≠ newline := fun heq => h (heq ▸ List.mem_reverse.1 hb)
    simpa using this
  unfold lastLine
  rw [List.reverse_append, List.takeWhile_append_of_pos hall, List.reverse_append,
    List.reverse_reverse]

theorem lastLine_append_of_mem {u v : Text} (h : newline ∈ v) :
    lastLine (u ++ v) = lastLine v := by
  unfold lastLine
  rw [List.reverse_append, List.takeWhile_append, if_neg]
  intro heq
  have hself := ( List.takeWhile_prefix (fun b : UInt8 => decide (b ≠ newline))).eq_of_length heq
  have hall := List.takeWhile_eq_self_iff.1 hself newline (List.mem_reverse.2 h)
  simp at hall

end Text

open Text

/-- The place behind a text that starts a file. -/
def Position.behind (file t : Text) : Position :=
  { file, line := 1 + t.count newline, column := 1 + t.lastLine.glyphCount, offset := t.length }

/-- Places are kept by adding up texts, as long as no glyph is cut. -/
theorem Position.advance_behind {file u v : Text} (h : CleanCut u v) :
    (Position.behind file u).advance v = .behind file (u ++ v) := by
  have hline : (1 : Int) + (u.count newline : Int) + (v.count newline : Int) =
      1 + ((u ++ v).count newline : Int) := by
    rw [List.count_append]
    push_cast
    omega
  have hcolumn : (if v.count newline = 0 then (1 : Int) + u.lastLine.glyphCount else 1) +
      (v.lastLine.glyphCount : Int) = 1 + ((u ++ v).lastLine.glyphCount : Int) := by
    by_cases hv : newline ∈ v
    · rw [if_neg (by rw [List.count_eq_zero]; exact not_not_intro hv), lastLine_append_of_mem hv]
    · have hwhole : v.lastLine = v := by
        have := lastLine_append_of_not_mem (u := []) hv
        simpa [lastLine] using this
      rw [if_pos (List.count_eq_zero.2 hv), lastLine_append_of_not_mem hv,
        glyphCount_append (h.of_suffix (lastLine_suffix u)), hwhole]
      push_cast
      omega
  have hoffset : (u.length : Int) + (v.length : Int) = ((u ++ v).length : Int) := by simp
  unfold Position.advance Position.behind
  simp only [Position.mk.injEq, true_and]
  exact ⟨hline, hcolumn, hoffset⟩

/-! ## Where rules cut -/

namespace Lexeme

/-- A matcher that takes ASCII bytes only. -/
def TakesAscii (m : Matcher) : Prop := ∀ t : Text, ∀ b ∈ t.take (m t), b < 128

/-- The classes of bytes that tokens are made of. -/
def byteClasses : List (UInt8 → Bool) :=
  [isBlank, Text.isDigit, isDecimalPart, isHexPart, isBinaryPart, isOctalPart, isNameStart,
    isNamePart]

/-- Only ASCII bytes belong to the classes. -/
theorem lt_of_mem_byteClasses {p : UInt8 → Bool} (hp : p ∈ byteClasses) {b : UInt8}
    (hb : p b = true) : b < 128 := by
  have hall : byteClasses.all (fun p =>
      (List.range 256).all fun n => !p n.toUInt8 || n.toUInt8 < 128) = true := by decide +kernel
  have hbyte := forall_byte (p := fun b => !p b || b < 128) (List.all_eq_true.1 hall p hp) b
  simpa [hb] using hbyte

theorem takesAscii_run {p : UInt8 → Bool} (hp : ∀ b, p b = true → b < 128) :
    TakesAscii (run p) := by
  intro t b hb
  rw [take_run] at hb
  exact hp b (List.mem_takeWhile_imp hb)

/-- A byte in front of what a matcher takes. -/
theorem ascii_cons {m : Matcher} (hm : TakesAscii m) {b : UInt8} (hb : b < 128) (t : Text) :
    ∀ c ∈ (b :: t).take (m t + 1), c < 128 := by
  intro c hc
  rcases List.mem_cons.1 (List.take_succ_cons ▸ hc) with rfl | hc
  · exact hb
  · exact hm t c hc

/-- What one matcher takes behind another. -/
theorem ascii_add {m : Matcher} (hm : TakesAscii m) {n : Nat} {t : Text}
    (hn : ∀ c ∈ t.take n, c < 128) : ∀ c ∈ t.take (n + m (t.drop n)), c < 128 := by
  intro c hc
  rw [List.take_add] at hc
  rcases List.mem_append.1 hc with hc | hc
  · exact hn c hc
  · exact hm _ c hc

theorem takesAscii_exactly {p : Text} (hp : ∀ b ∈ p, b < 128) : TakesAscii (exactly p) := by
  intro t b hb
  by_cases h : exactly p t = 0
  · simp [h] at hb
  · rw [take_exactly h] at hb
    exact hp b hb

theorem isDigit_lt {b : UInt8} (h : Text.isDigit b = true) : b < 128 :=
  lt_of_mem_byteClasses (p := Text.isDigit) (by simp [byteClasses]) h

theorem takesAscii_digits : TakesAscii (run Text.isDigit) := takesAscii_run fun _ => isDigit_lt

theorem takesAscii_based {mark : Char} {isPart : UInt8 → Bool}
    (hm : ∀ m, m = ascii mark ∨ m = ascii mark - 32 → m < 128)
    (hp : ∀ b, isPart b = true → b < 128) : TakesAscii (based mark isPart) := by
  intro t
  match t with
  | [] => simp
  | [b] => simp [based_single]
  | b :: m :: t =>
    rw [based_cons]
    split
    · rename_i h
      obtain ⟨rfl, hmark, -⟩ := h
      intro c hc
      rcases List.mem_cons.1 (List.take_succ_cons ▸ hc) with rfl | hc
      · decide
      · exact ascii_cons (takesAscii_run hp) (hm m hmark) t c hc
    · simp

theorem takesAscii_fraction : TakesAscii fraction := by
  intro t
  match t with
  | [] => simp
  | b :: t =>
    rw [fraction]
    split
    · rename_i h
      rw [Nat.add_comm]
      exact ascii_cons takesAscii_digits (by rw [h]; decide) t
    · simp

theorem takesAscii_decimal : TakesAscii decimal := by
  intro t
  match t with
  | [] => simp
  | b :: t =>
    rw [decimal_cons]
    split
    · rename_i h
      refine ascii_add takesAscii_fraction ?_
      rw [Nat.add_comm]
      refine ascii_cons (takesAscii_run fun c hc => ?_) (isDigit_lt h) t
      exact lt_of_mem_byteClasses (p := isDecimalPart) (by simp [byteClasses]) hc
    · split
      · rename_i h
        exact ascii_cons takesAscii_digits (by rw [h.1]; decide) t
      · simp

theorem takesAscii_signedDigits : TakesAscii signedDigits := by
  intro t
  match t with
  | [] => simp [signedDigits]
  | s :: t =>
    rw [signedDigits]
    split
    · rename_i h
      split
      · simp
      · refine ascii_cons takesAscii_digits ?_ t
        rcases h with rfl | rfl <;> decide
    · exact takesAscii_digits (s :: t)

theorem takesAscii_exponent : TakesAscii exponent := by
  intro t
  match t with
  | [] => simp
  | m :: t =>
    rw [exponent_cons]
    split
    · rename_i h
      refine ascii_cons takesAscii_signedDigits ?_ t
      rcases h.1 with rfl | rfl <;> decide
    · simp

theorem takesAscii_scientific : TakesAscii scientific := by
  intro t
  rw [scientific_eq]
  split
  · simp
  · exact ascii_add takesAscii_exponent (takesAscii_decimal t)

theorem takesAscii_firstMatch {ms : List Matcher} (h : ∀ m ∈ ms, TakesAscii m) :
    TakesAscii (firstMatch ms) := by
  intro t
  induction ms with
  | nil => simp [firstMatch]
  | cons m ms ih =>
    rw [firstMatch]
    split
    · exact ih fun k hk => h k (List.mem_cons_of_mem _ hk)
    · exact h m (List.mem_cons_self ..) t

theorem takesAscii_number : TakesAscii number := by
  have hletters : ∀ mark ∈ ['x', 'b', 'o'], ∀ m, m = ascii mark ∨ m = ascii mark - 32 →
      m < 128 := by
    intro mark hmark m hm
    simp only [List.mem_cons, List.not_mem_nil, or_false] at hmark
    rcases hmark with rfl | rfl | rfl <;> rcases hm with rfl | rfl <;> decide
  have hbody : TakesAscii numberBody := by
    refine takesAscii_firstMatch fun m hm => ?_
    simp only [List.mem_cons, List.not_mem_nil, or_false] at hm
    rcases hm with rfl | rfl | rfl | rfl
    · exact takesAscii_based (hletters _ (by simp)) fun b =>
        lt_of_mem_byteClasses (p := isHexPart) (by simp [byteClasses])
    · exact takesAscii_based (hletters _ (by simp)) fun b =>
        lt_of_mem_byteClasses (p := isBinaryPart) (by simp [byteClasses])
    · exact takesAscii_based (hletters _ (by simp)) fun b =>
        lt_of_mem_byteClasses (p := isOctalPart) (by simp [byteClasses])
    · exact takesAscii_scientific
  intro t
  unfold number
  show ∀ b ∈ t.take (if numberBody t = 0 then 0
    else numberBody t + exactly (lit "n") (t.drop (numberBody t))), b < 128
  split
  · simp
  · exact ascii_add (takesAscii_exactly (by decide +kernel)) (hbody t)

theorem takesAscii_ident : TakesAscii ident := by
  intro t
  match t with
  | [] => simp
  | b :: t =>
    rw [ident]
    split
    · rename_i h
      rw [Nat.add_comm]
      refine ascii_cons (takesAscii_run fun c hc => ?_) ?_ t
      · exact lt_of_mem_byteClasses (p := isNamePart) (by simp [byteClasses]) hc
      · exact lt_of_mem_byteClasses (p := isNameStart) (by simp [byteClasses]) h
    · simp

theorem takesAscii_punct : TakesAscii punct := by
  have hmarks : ∀ m ∈ marks, ∀ b ∈ m, b < 128 := by decide +kernel
  intro t b hb
  by_cases h : punct t = 0
  · simp [h] at hb
  · exact hmarks _ (take_firstOf h) b hb

/-- A byte in front of some others does not change the last one. -/
theorem getLast?_take_succ {t : Text} {n : Nat} {q : UInt8} (h : (t.take n).getLast? = some q)
    (b : UInt8) : ((b :: t).take (n + 1)).getLast? = some q := by
  rw [List.take_succ_cons]
  cases hcut : t.take n with
  | nil => simp [hcut] at h
  | cons c w => rw [List.getLast?_cons_cons, ← hcut, h]

/-- The closing quote ends a quoted text. -/
theorem getLast?_quoteEnd {q : UInt8} {t : Text} {n : Nat} (h : quoteEnd? q t = some n) :
    (t.take n).getLast? = some q := by
  induction hlength : t.length using Nat.strong_induction_on generalizing t n with
  | _ k ih =>
    cases t with
    | nil => simp [quoteEnd?] at h
    | cons b t =>
      rw [quoteEnd?_cons] at h
      simp only [List.length_cons] at hlength
      split at h
      · rename_i hb
        obtain rfl := Option.some.inj h
        simp [hb]
      · split at h
        · obtain ⟨m, hm, rfl⟩ := Option.map_eq_some_iff.1 h
          cases t with
          | nil => simp [quoteEnd?] at hm
          | cons c t =>
            simp only [List.length_cons] at hlength
            have hlast := ih t.length (by omega) hm rfl
            exact getLast?_take_succ (getLast?_take_succ hlast c) b
        · split at h
          · cases h
          · obtain ⟨m, hm, rfl⟩ := Option.map_eq_some_iff.1 h
            exact getLast?_take_succ (ih t.length (by omega) hm rfl) b

/-- The end mark ends a block comment. -/
theorem getLast?_blockEnd {t : Text} {n : Nat} (h : blockEnd? t = some n) :
    (t.take n).getLast? = some 47 := by
  fun_induction blockEnd? t generalizing n with
  | case1 rest =>
    obtain rfl := Option.some.inj h
    rfl
  | case2 b rest hne ih =>
    obtain ⟨m, hm, rfl⟩ := Option.map_eq_some_iff.1 h
    exact getLast?_take_succ (ih hm) b
  | case3 => cases h

theorem cleanCut_comment (t : Text) (h : comment t ≠ 0) :
    CleanCut (t.take (comment t)) (t.drop (comment t)) := by
  unfold comment at h ⊢
  split at h
  · -- A line comment stops in front of a line feed.
    rename_i rest
    right
    intro b hb
    have hdrop : (47 :: 47 :: rest).drop (2 + run (· ≠ newline) rest) =
        rest.dropWhile (· ≠ newline) := by
      rw [Nat.add_comm, ← drop_run]
      rfl
    rw [hdrop] at hb
    have hstop := List.head?_dropWhile_not (fun b : UInt8 => decide (b ≠ newline)) rest
    rw [Option.mem_def.1 hb] at hstop
    have heq : b = newline := by simpa using hstop
    rw [heq]
    decide
  · rename_i rest
    cases hend : blockEnd? rest with
    | none => simp [hend] at h
    | some n =>
      left
      intro b hb
      have hlast := getLast?_take_succ (getLast?_take_succ (getLast?_blockEnd hend) 42) 47
      rw [Option.map_some, Option.getD_some, Option.mem_def, hlast] at hb
      obtain rfl := Option.some.inj hb
      decide
  · exact absurd rfl h

theorem cleanCut_string (t : Text) (h : string t ≠ 0) :
    CleanCut (t.take (string t)) (t.drop (string t)) := by
  left
  intro b hb
  match t with
  | [] => simp at hb
  | q :: t =>
    rw [string] at h hb
    split at h
    · rename_i hq
      rw [if_pos hq] at hb
      cases hend : quoteEnd? q t with
      | none => simp [hend] at h
      | some n =>
        have hlast := getLast?_take_succ (getLast?_quoteEnd hend) q
        rw [hend, Option.map_some, Option.getD_some, Option.mem_def, hlast] at hb
        obtain rfl := Option.some.inj hb
        simp only [Bool.or_eq_true, decide_eq_true_eq] at hq
        rcases hq with rfl | rfl <;> decide
    · exact absurd rfl h

/-- The characters of a template stop in front of one of three marks. -/
theorem head?_drop_templateChars (t : Text) :
    ∀ b ∈ (t.drop (templateChars t)).head?, b = 96 ∨ b = 92 ∨ b = 36 := by
  -- Reading either has come to an end, or it goes on behind what has been taken.
  fun_induction templateChars t with
  | case1 => simp
  | case2 b hb =>
    intro c hc
    obtain rfl : b = c := by simpa using hc
    simpa [or_assoc] using hb
  | case3 b hb => simp
  | case4 c rest =>
    intro d hd
    obtain rfl : 96 = d := by simpa using hd
    exact .inl rfl
  | case5 c rest h96 ih =>
    rw [Nat.add_comm]
    exact ih
  | case6 b c rest h96 h92 =>
    intro d hd
    obtain rfl : 36 = d := by simpa using hd
    exact .inr (.inr rfl)
  | case7 c rest h96 h92 hstop ih =>
    rw [Nat.add_comm]
    exact ih
  | case8 b c rest h96 h92 h36 ih =>
    rw [Nat.add_comm]
    exact ih

end Lexeme

namespace Lexer

/-- Every rule ends its token between two glyphs. -/
theorem cleanCut_of_mem {rule : LexRule} (h : rule ∈ allRules) {t : Text} (ht : rule.reach t ≠ 0) :
    CleanCut (t.take (rule.reach t)) (t.drop (rule.reach t)) := by
  have hascii : ∀ {m : Matcher}, TakesAscii m → CleanCut (t.take (m t)) (t.drop (m t)) :=
    fun hm => .inl fun b hb => hm t b (List.mem_of_getLast? hb)
  have hblank : TakesAscii blanks :=
    takesAscii_run fun _ => lt_of_mem_byteClasses (p := isBlank) (by simp [byteClasses])
  have hmark : ∀ s ∈ ["\x7b", "\x7d", "`", "$\x7b", "$"], TakesAscii (exactly (lit s)) := by
    have hbytes : ∀ s ∈ ["\x7b", "\x7d", "`", "$\x7b", "$"], ∀ b ∈ lit s, b < 128 := by
      decide +kernel
    exact fun s hs => takesAscii_exactly (hbytes s hs)
  simp only [allRules, templateRules, codeRules, List.cons_append, List.nil_append, List.mem_cons,
    List.not_mem_nil, or_false] at h
  rcases h with rfl | rfl | rfl | rfl | rfl | rfl | rfl | rfl | rfl | rfl | rfl | rfl | rfl | rfl
  · exact hascii (hmark _ (by simp))
  · exact hascii (hmark _ (by simp))
  · exact hascii (hmark _ (by simp))
  · exact hascii (hmark _ (by simp))
  · -- The characters of a template may end with any byte, but what stops them is ASCII.
    refine .inr fun b hb => ?_
    rcases head?_drop_templateChars t b hb with rfl | rfl | rfl <;> decide
  · exact hascii (hmark _ (by simp))
  · exact cleanCut_comment t ht
  · exact hascii hblank
  · exact hascii (hmark _ (by simp))
  · exact cleanCut_string t ht
  · exact hascii takesAscii_number
  · exact hascii takesAscii_ident
  · exact hascii (hmark _ (by simp))
  · exact hascii takesAscii_punct

end Lexer

/-! ## Places of all tokens -/

/-- The token is the part of the source that starts at its place. -/
def Token.Located (file src : Text) (t : Token) : Prop :=
  ∃ before after, src = before ++ (t.text ++ after) ∧ t.pos = .behind file before

/-- How two neighbouring tokens lie in the source. -/
structure Seam (t u : Token) : Prop where
  /-- The second one starts behind the first one. -/
  behind : t.pos.offset + t.text.length ≤ u.pos.offset
  /-- Nothing lies between them if the text of a template goes on behind the first one. -/
  touch : t.cls ∈ templateOpeners → u.pos.offset = t.pos.offset + t.text.length

namespace Lexer

/-- Interpolations are entered from templates. -/
def Embedded : List Mode → Prop
  | [] => True
  | .interpolation :: stack => ¬ InCode stack ∧ Embedded stack
  | _ :: stack => Embedded stack

/-- A step keeps interpolations inside templates, and behind an opening token comes a template. -/
theorem embedded_step {stack : List Mode} (hstack : Embedded stack) {rule : LexRule}
    (h : rule ∈ rulesAt stack) :
    Embedded (StackEffect.apply rule.effect stack) ∧
      (rule.cls ∈ templateOpeners → ¬ InCode (StackEffect.apply rule.effect stack)) := by
  have htemplate : ∀ stack : List Mode, ¬ InCode (.template :: stack) := fun _ h => h rfl
  -- Among the rules for code only the backtick opens a template.
  have hcode : rule ∈ codeRules → Embedded (StackEffect.apply rule.effect stack) ∧
      (rule.cls ∈ templateOpeners → ¬ InCode (StackEffect.apply rule.effect stack)) := by
    intro hrule
    simp only [codeRules, List.mem_cons, List.not_mem_nil, or_false] at hrule
    rcases hrule with rfl | rfl | rfl | rfl | rfl | rfl | rfl | rfl
    case inr.inr.inl => exact ⟨hstack, fun _ => htemplate stack⟩
    all_goals exact ⟨hstack, fun hmem => absurd hmem (by decide)⟩
  cases stack with
  | nil => exact hcode h
  | cons mode stack =>
    cases mode with
    | block =>
      rcases List.mem_cons.1 h with rfl | h
      · exact ⟨hstack, fun hmem => absurd hmem (by decide)⟩
      · exact hcode h
    | interpolation =>
      rcases List.mem_cons.1 h with rfl | h
      · exact ⟨hstack.2, fun _ => hstack.1⟩
      · exact hcode h
    | template =>
      simp only [rulesAt, templateRules, List.mem_cons, List.not_mem_nil, or_false] at h
      rcases h with rfl | rfl | rfl | rfl
      · exact ⟨hstack, fun hmem => absurd hmem (by decide)⟩
      · exact ⟨⟨htemplate stack, hstack⟩, fun hmem => absurd hmem (by decide)⟩
      · exact ⟨hstack, fun _ => htemplate stack⟩
      · exact ⟨hstack, fun _ => htemplate stack⟩

/-- The tokens lie in the source from `before` on, in order. -/
structure InPlace (file src : Text) (stack : List Mode) (before : Text) (ts : List Token) :
    Prop where
  /-- Each lies where its place says. -/
  located : ∀ t ∈ ts, t.Located file src
  /-- Those that are not dropped come one behind the other. -/
  seams : (ts.filter fun t => !t.cls.isDropped).IsChain Seam
  /-- The first one of these lies at the very front of a template. -/
  first : ∀ t ∈ (ts.filter fun t => !t.cls.isDropped).head?,
    (before.length : Int) ≤ t.pos.offset ∧ (¬ InCode stack → t.pos.offset = before.length)

theorem inPlace_end (file src : Text) (stack : List Mode) :
    InPlace file src stack src [⟨.eof, [], .behind file src⟩] := by
  refine ⟨fun t ht => ?_, .singleton _, fun t ht => ?_⟩
  · obtain rfl := List.mem_singleton.1 ht
    exact ⟨src, [], by simp, rfl⟩
  · obtain rfl := Option.some.inj ht
    exact ⟨Int.le_refl _, fun _ => rfl⟩

/-- One token more in front. -/
theorem InPlace.cons {file src before after : Text} {stack : List Mode} {rule : LexRule}
    {ts : List Token} {text : Text} (hsrc : src = before ++ (text ++ after))
    (hrule : rule ∈ rulesAt stack) (hstack : Embedded stack)
    (h : InPlace file src (StackEffect.apply rule.effect stack) (before ++ text) ts) :
    InPlace file src stack before (⟨rule.cls, text, .behind file before⟩ :: ts) := by
  have hlength : (((before ++ text).length : Nat) : Int) = before.length + text.length := by simp
  refine ⟨fun t ht => ?_, ?_, ?_⟩
  · rcases List.mem_cons.1 ht with rfl | ht
    · exact ⟨before, after, hsrc, rfl⟩
    · exact h.located t ht
  · cases hdropped : rule.cls.isDropped with
    | true => simpa [hdropped] using h.seams
    | false =>
      rw [List.filter_cons_of_pos (by simp [hdropped])]
      refine h.seams.cons fun u hu => ?_
      -- The seam is clean behind an opening token, since a template comes next.
      obtain ⟨hle, hfront⟩ := h.first u hu
      rw [hlength] at hle hfront
      exact ⟨hle, fun hopener => hfront ((embedded_step hstack hrule).2 hopener)⟩
  · intro u hu
    cases hdropped : rule.cls.isDropped with
    | true =>
      rw [List.filter_cons_of_neg (by simp [hdropped])] at hu
      obtain ⟨hle, -⟩ := h.first u hu
      rw [hlength] at hle
      exact ⟨by omega, fun hnot => absurd (inCode_of_dropped hrule hdropped) hnot⟩
    | false =>
      rw [List.filter_cons_of_pos (by simp [hdropped])] at hu
      obtain rfl := Option.some.inj hu
      exact ⟨Int.le_refl _, fun _ => rfl⟩

/-- What an answer of the lexer says about places. -/
def Placing (file src : Text) (stack : List Mode) (before : Text) :
    Except Failure (List Token) → Prop
  | .ok ts => InPlace file src stack before ts
  | .error f => ∃ front, src = front ++ f.rest ∧ f.pos = .behind file front

/-- From a place that is right, the lexer gives places that are right. -/
theorem placing_tokensFrom {file src : Text} (fuel : Nat) {stack : List Mode} {before rest : Text}
    (hsrc : src = before ++ rest) (hcut : CleanCut before rest) (hstack : Embedded stack) :
    Placing file src stack before (tokensFrom fuel stack (.behind file before) rest) := by
  induction fuel generalizing stack before rest with
  | zero =>
    cases rest with
    | nil =>
      obtain rfl : src = before := by simpa using hsrc
      exact inPlace_end file src stack
    | cons b rest => exact ⟨before, hsrc, rfl⟩
  | succ fuel ih =>
    cases rest with
    | nil =>
      obtain rfl : src = before := by simpa using hsrc
      exact inPlace_end file src stack
    | cons b t =>
      cases hfirst : firstRule? (rulesAt stack) (b :: t) with
      | none =>
        simp only [tokensFrom, hfirst]
        exact ⟨before, hsrc, rfl⟩
      | some rule =>
        -- The text splits in front of the token and behind it, and neither cut goes through a
        -- glyph.
        generalize b :: t = rest at hsrc hcut hfirst
        have hrule := List.mem_of_find?_eq_some hfirst
        have hreach : rule.reach rest ≠ 0 := Nat.ne_of_gt (reach_pos_of_firstRule? hfirst)
        have hsplit : src = before ++ (rest.take (rule.reach rest) ++
            rest.drop (rule.reach rest)) := by rw [List.take_append_drop, hsrc]
        have hne : rest.take (rule.reach rest) ≠ [] := by
          intro hnil
          rcases List.take_eq_nil_iff.1 hnil with hzero | rfl
          · exact hreach hzero
          · rw [firstRule?_nil] at hfirst
            cases hfirst
        have hmore := ih (hsplit.trans (List.append_assoc ..).symm)
          ((cleanCut_of_mem (mem_allRules hrule) hreach).extend hne before)
          (embedded_step hstack hrule).1
        rw [tokensFrom_step hfirst, Position.advance_behind (hcut.take _)]
        generalize tokensFrom fuel _ _ _ = answer at hmore ⊢
        cases answer with
        | error f => exact hmore
        | ok ts => exact InPlace.cons hsplit hrule hstack hmore

theorem placing_allTokens (file src : Text) : Placing file src [] [] (allTokens file src) :=
  placing_tokensFrom src.length rfl (cleanCut_nil src) trivial

/-- The tokens that the grammar sees lie in the source where their places say, in order. -/
theorem inPlace_of_tokens {file src : Text} {ts : List Token} (h : tokens file src = .ok ts) :
    (∀ t ∈ ts, t.Located file src) ∧ ts.IsChain Seam := by
  have hplacing := placing_allTokens file src
  rw [tokens] at h
  generalize allTokens file src = answer at h hplacing
  cases answer with
  | error f => cases h
  | ok all =>
    obtain rfl : all.filter _ = ts := Except.ok.inj h
    exact ⟨fun t ht => hplacing.located t (List.mem_of_mem_filter ht), hplacing.seams⟩

/-- A text that no rule takes lies where the failure says. -/
theorem inPlace_of_failure {file src : Text} {f : Failure} (h : tokens file src = .error f) :
    ∃ before, src = before ++ f.rest ∧ f.pos = .behind file before := by
  have hplacing := placing_allTokens file src
  rw [tokens] at h
  generalize allTokens file src = answer at h hplacing
  cases answer with
  | error g =>
    obtain rfl : g = f := Except.error.inj h
    exact hplacing
  | ok all => cases h

end Lexer

end CubeSchema
