import CubeSchema.Text.Basic

/-!
# Texts as code points

A text is read from left to right as a list of glyphs: a well-formed UTF-8 sequence is one code
point, and a byte that starts no well-formed sequence stands for itself. Columns, quoting and
display widths count glyphs.
-/

namespace CubeSchema.Text

/-- One unit of a decoded text. -/
inductive Glyph where
  /-- A code point written as a well-formed sequence of `size` bytes. -/
  | point (value size : Nat)
  /-- A byte that starts no well-formed sequence. -/
  | stray (byte : UInt8)
  deriving DecidableEq, Repr

namespace Glyph

/-- The number of bytes a glyph takes. -/
def size : Glyph → Nat
  | point _ n => n
  | stray _ => 1

/-- The code point of a glyph; a stray byte reads as the replacement character. -/
def value : Glyph → Nat
  | point v _ => v
  | stray _ => 0xFFFD

end Glyph

/-- A continuation byte carries six bits. -/
def isContinuation (b : UInt8) : Bool := 0x80 ≤ b && b ≤ 0xBF

/-- The six bits of a continuation byte. -/
def payload (b : UInt8) : Nat := b.toNat % 64

/-- The glyph at the front of the text `b :: rest`. Overlong forms, surrogates and values above
`0x10FFFF` are not well formed. -/
def firstGlyph (b : UInt8) (rest : Text) : Glyph :=
  let n := b.toNat
  if n < 0x80 then .point n 1
  else if 0xC2 ≤ n && n ≤ 0xDF then
    match rest with
    | c :: _ => if isContinuation c then .point ((n - 0xC0) * 64 + payload c) 2 else .stray b
    | [] => .stray b
  else if 0xE0 ≤ n && n ≤ 0xEF then
    match rest with
    | c :: d :: _ =>
      let v := ((n - 0xE0) * 64 + payload c) * 64 + payload d
      if isContinuation c && isContinuation d && 0x800 ≤ v && (v < 0xD800 || 0xDFFF < v)
      then .point v 3 else .stray b
    | _ => .stray b
  else if 0xF0 ≤ n && n ≤ 0xF4 then
    match rest with
    | c :: d :: e :: _ =>
      let v := (((n - 0xF0) * 64 + payload c) * 64 + payload d) * 64 + payload e
      if isContinuation c && isContinuation d && isContinuation e && 0x10000 ≤ v && v ≤ 0x10FFFF
      then .point v 4 else .stray b
    | _ => .stray b
  else .stray b

/-- The glyphs of a text behind its first `skip` bytes, which belong to a glyph already read. -/
def glyphsFrom : Nat → Text → List Glyph
  | _, [] => []
  | skip + 1, _ :: rest => glyphsFrom skip rest
  | 0, b :: rest =>
    let g := firstGlyph b rest
    g :: glyphsFrom (g.size - 1) rest

/-- The glyphs of a text from left to right. -/
def glyphs (t : Text) : List Glyph := glyphsFrom 0 t

/-- The number of glyphs of a text. -/
def glyphCount (t : Text) : Nat := t.glyphs.length

/-- The code points of a text, stray bytes read as the replacement character. -/
def codePoints (t : Text) : List Nat := t.glyphs.map Glyph.value

/-- Whether every byte belongs to a well-formed sequence. -/
def isUtf8 (t : Text) : Bool := t.glyphs.all fun
  | .point _ _ => true
  | .stray _ => false

/-- The UTF-8 form of a code point; a number that is no code point is written as the replacement
character. -/
def encode (v : Nat) : Text :=
  if v < 0x80 then [v.toUInt8]
  else if v < 0x800 then [(0xC0 + v / 64).toUInt8, (0x80 + v % 64).toUInt8]
  else if 0x10FFFF < v || (0xD800 ≤ v && v ≤ 0xDFFF) then [0xEF, 0xBF, 0xBD]
  else if v < 0x10000 then
    [(0xE0 + v / 4096).toUInt8, (0x80 + v / 64 % 64).toUInt8, (0x80 + v % 64).toUInt8]
  else
    [(0xF0 + v / 262144).toUInt8, (0x80 + v / 4096 % 64).toUInt8, (0x80 + v / 64 % 64).toUInt8,
      (0x80 + v % 64).toUInt8]

/-- The UTF-8 form of a list of code points. -/
def ofCodePoints (vs : List Nat) : Text := vs.flatMap encode

/-- Replaces every stray byte by the replacement character. -/
def repaired (t : Text) : Text := ofCodePoints t.codePoints

end CubeSchema.Text
