import CubeSchema.Text.Basic

/-!
# Distance between words

How many bytes have to be put in, taken out or changed to make one word of another. It tells which
command was meant by a word that is none.
-/

namespace CubeSchema.Text

/-- The row of distances for one more byte `b` of the first word: the distances from the word with
`b` to the beginnings of the second word, given those from the word without it. -/
def distanceRow (b : UInt8) (left diagonal : Nat) : List (UInt8 × Nat) → List Nat
  | [] => []
  | (c, above) :: rest =>
    let d := if b = c then diagonal else 1 + min diagonal (min above left)
    d :: distanceRow b d above rest

/-- The distances from a word to the beginnings of a second word, the shortest beginning first,
given those of the bytes read so far. -/
def distances (target : Text) : List Nat → Text → List Nat
  | row, [] => row
  | row, b :: rest =>
    let first := row.headD 0
    distances target ((first + 1) :: distanceRow b (first + 1) first (target.zip row.tail)) rest

/-- The distance between two words. -/
def distance (s t : Text) : Nat :=
  (distances t (List.range (t.length + 1)) s).getLastD 0

end CubeSchema.Text
