import CubeSchema.Text.Utf8

/-!
# Small letters

Words of people are compared with words of this library without regard to case. The words of this
library are ASCII, so it is enough to know the small letters of ASCII, and of the letters beyond it
those whose small letter takes another number of bytes.
-/

namespace CubeSchema.Text

/-- The capital letters whose small letter takes another number of bytes, with that letter. -/
def resizedCapitals : List (Nat × Nat) :=
  [(0x130, 0x69), (0x23A, 0x2C65), (0x23E, 0x2C66), (0x1E9E, 0xDF), (0x2126, 0x3C9), (0x212A, 0x6B),
    (0x212B, 0xE5), (0x2C62, 0x26B), (0x2C64, 0x27D), (0x2C6D, 0x251), (0x2C6E, 0x271),
    (0x2C6F, 0x250), (0x2C70, 0x252), (0x2C7E, 0x23F), (0x2C7F, 0x240), (0xA78D, 0x265),
    (0xA7AA, 0x266), (0xA7AB, 0x25C), (0xA7AC, 0x261), (0xA7AD, 0x26C), (0xA7AE, 0x26A),
    (0xA7B0, 0x29E), (0xA7B1, 0x287), (0xA7B2, 0x29D), (0xA7C5, 0x282)]

/-- A word in small letters, for a comparison with a word of ASCII letters. Letters beyond ASCII
differ from those in either case, so only their number of bytes has to be right. -/
def folded (t : Text) : Text :=
  ofCodePoints (t.codePoints.map fun v =>
    if 65 ≤ v && v ≤ 90 then v + 32 else (resizedCapitals.lookup v).getD v)

end CubeSchema.Text
