/-!
# Texts

A text is a finite list of bytes. Source files, file names and messages may hold bytes that are not
valid UTF-8, so bytes are the base layer; the view as code points is in `CubeSchema.Text.Utf8`.
Texts are ordered byte by byte, which is the order every sorted answer of the library uses.
-/

namespace CubeSchema

/-- A text: its bytes from left to right. -/
abbrev Text := List UInt8

/-- The bytes of a string literal. -/
def lit (s : String) : Text := s.toUTF8.data.toList

/-- The byte of an ASCII character. -/
def ascii (c : Char) : UInt8 := c.toNat.toUInt8

namespace Text

/-- The line feed, the only byte that ends a line. -/
def newline : UInt8 := 10

/-- The decimal digits of a natural number. -/
def ofNat (n : Nat) : Text := (Nat.toDigits 10 n).map ascii

/-- The decimal digits of an integer, with a leading minus sign when it is negative. -/
def ofInt : Int → Text
  | .ofNat n => ofNat n
  | .negSucc n => ascii '-' :: ofNat (n + 1)

/-- The value of a hexadecimal digit. -/
def hexValue? (b : UInt8) : Option Nat :=
  if ascii '0' ≤ b && b ≤ ascii '9' then some (b.toNat - 48)
  else if ascii 'a' ≤ b && b ≤ ascii 'f' then some (b.toNat - 87)
  else if ascii 'A' ≤ b && b ≤ ascii 'F' then some (b.toNat - 55)
  else none

/-- The lower-case hexadecimal digit of a number below sixteen. -/
def hexDigit (n : Nat) : UInt8 :=
  if n < 10 then (48 + n).toUInt8 else (87 + n).toUInt8

/-- The `width` lowest hexadecimal digits of `n`. -/
def hexFixed : Nat → Nat → Text
  | 0, _ => []
  | width + 1, n => hexFixed width (n / 16) ++ [hexDigit (n % 16)]

/-- All bytes of a text as pairs of hexadecimal digits. -/
def hex (t : Text) : Text := t.flatMap fun b => hexFixed 2 b.toNat

/-- A decimal digit. -/
def isDigit (b : UInt8) : Bool := ascii '0' ≤ b && b ≤ ascii '9'

/-- An ASCII lower-case letter. -/
def isLower (b : UInt8) : Bool := ascii 'a' ≤ b && b ≤ ascii 'z'

/-- An ASCII upper-case letter. -/
def isUpper (b : UInt8) : Bool := ascii 'A' ≤ b && b ≤ ascii 'Z'

/-- An ASCII letter. -/
def isLetter (b : UInt8) : Bool := isLower b || isUpper b

/-- Lower-cases the ASCII letters and keeps every other byte. -/
def lower (t : Text) : Text := t.map fun b => if isUpper b then b + 32 else b

/-- Upper-cases the ASCII letters and keeps every other byte. -/
def upper (t : Text) : Text := t.map fun b => if isLower b then b - 32 else b

/-- The value of a nonempty text of decimal digits. -/
def toNat? (t : Text) : Option Nat :=
  if t ≠ [] && t.all isDigit then some (t.foldl (fun n b => 10 * n + (b.toNat - 48)) 0) else none

/-- Whether `t` starts with the text `p`. -/
def startsWith (t p : Text) : Bool := p.isPrefixOf t

/-- Whether `t` ends with the text `s`. -/
def endsWith (t s : Text) : Bool := s.isSuffixOf t

/-- The rest of `t` behind the text `p` that it starts with. -/
def after? (p t : Text) : Option Text := if t.startsWith p then some (t.drop p.length) else none

/-- Drops the trailing bytes that satisfy `p`. -/
def trimRightBy (p : UInt8 → Bool) (t : Text) : Text := (t.reverse.dropWhile p).reverse

/-- Joins texts with a separator between each two of them. -/
def join (sep : Text) : List Text → Text
  | [] => []
  | [t] => t
  | t :: rest => t ++ sep ++ join sep rest

/-- The parts of `t` between the occurrences of the byte `sep`; there is always at least one. -/
def splitOn (sep : UInt8) : Text → List Text
  | [] => [[]]
  | b :: rest =>
    match splitOn sep rest with
    | [] => [[b]]
    | part :: parts => if b = sep then [] :: part :: parts else (b :: part) :: parts

/-- Whether `t` contains the text `p`. -/
def contains (p : Text) : Text → Bool
  | [] => p.isEmpty
  | b :: rest => startsWith (b :: rest) p || contains p rest

/-- Repeats a text `n` times. -/
def replicate (n : Nat) (t : Text) : Text := (List.replicate n t).flatten

/-- A run of `n` spaces. -/
def spaces (n : Nat) : Text := List.replicate n 32

/-- Sorts texts by their bytes; equal texts keep their order. -/
def sort (ts : List Text) : List Text := ts.mergeSort fun a b => decide (a ≤ b)

/-- Keeps the first occurrence of every element. -/
def distinct (ts : List Text) : List Text :=
  ts.foldl (fun seen t => if seen.contains t then seen else seen ++ [t]) []

end Text

end CubeSchema
