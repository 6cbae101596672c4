import CubeSchema.Text.Utf8

/-!
# White space

The code points that count as white space at the ends of a text, and texts without them.
-/

namespace CubeSchema.Text

/-- A code point that is white space. -/
def isSpace (v : Nat) : Bool :=
  (9 ≤ v && v ≤ 13) || v ∈ [0x20, 0x85, 0xA0, 0x1680, 0x2028, 0x2029, 0x202F, 0x205F, 0x3000] ||
    (0x2000 ≤ v && v ≤ 0x200A)

/-- Whether a glyph is white space. -/
def Glyph.isSpace : Glyph → Bool
  | point v _ => Text.isSpace v
  | stray _ => false

/-- The bytes that a list of glyphs takes. -/
def glyphBytes (gs : List Glyph) : Nat := gs.foldl (fun n g => n + g.size) 0

/-- A text without the white space at its ends. -/
def trimSpace (t : Text) : Text :=
  let gs := t.glyphs
  let before := gs.takeWhile Glyph.isSpace
  let after := (gs.drop before.length).reverse.takeWhile Glyph.isSpace
  (t.drop (glyphBytes before)).take (t.length - glyphBytes before - glyphBytes after)

end CubeSchema.Text
