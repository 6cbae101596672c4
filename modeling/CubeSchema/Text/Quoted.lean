import CubeSchema.Text.Printable
import CubeSchema.Text.Utf8

/-!
# Quoted texts

The double-quoted form in which messages show a text: the usual one-letter escapes, hexadecimal
escapes for stray bytes and for code points that are not printable, everything else as it is.
-/

namespace CubeSchema.Text

/-- The byte that follows the backslash in a two-byte escape. -/
def escapeLetter? (v : Nat) : Option UInt8 :=
  match v with
  | 7 => some (ascii 'a')
  | 8 => some (ascii 'b')
  | 9 => some (ascii 't')
  | 10 => some (ascii 'n')
  | 11 => some (ascii 'v')
  | 12 => some (ascii 'f')
  | 13 => some (ascii 'r')
  | 34 => some 34
  | 92 => some 92
  | _ => none

/-- One glyph inside double quotes. -/
def quotedGlyph : Glyph → Text
  | .stray b => lit "\\x" ++ hexFixed 2 b.toNat
  | .point v _ =>
    match escapeLetter? v with
    | some letter => [92, letter]
    | none =>
      if isPrintable v then encode v
      else if v < 0x80 then lit "\\x" ++ hexFixed 2 v
      else if v < 0x10000 then lit "\\u" ++ hexFixed 4 v
      else lit "\\U" ++ hexFixed 8 v

/-- A text in double quotes. -/
def quoted (t : Text) : Text := 34 :: t.glyphs.flatMap quotedGlyph ++ [34]

end CubeSchema.Text
