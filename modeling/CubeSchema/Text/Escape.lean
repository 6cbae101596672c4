import CubeSchema.Text.Utf8

/-!
# Escapes in literals

`unescape` decodes the escapes of a string or template chunk, and `singleQuoted` writes a text as a
string literal. An unknown escape stands for the escaped character itself, and an escaped line break
for nothing.
-/

namespace CubeSchema.Text

/-- The value of a nonempty run of hexadecimal digits. -/
def hexNumber? (t : Text) : Option Nat :=
  if t.isEmpty then none
  else t.foldlM (fun n b => (hexValue? b).map (16 * n + ·)) 0

/-- The text of a numeric escape. Numbers are words of 32 bits: one that does not fit is no escape,
one in the upper half is read as a negative number and gives the replacement character, and one in
the lower half has to be at most the last code point. -/
def numericEscape? (v : Nat) : Option Text :=
  if v ≤ 0x10FFFF then some (encode v)
  else if 0x80000000 ≤ v && v ≤ 0xFFFFFFFF then some (encode 0xFFFD)
  else none

/-- Decodes what follows a backslash: its text and the number of bytes it takes. -/
def escape? : Text → Option (Text × Nat)
  | [] => none
  | e :: rest =>
    if e = ascii 'n' then some ([10], 1)
    else if e = ascii 't' then some ([9], 1)
    else if e = ascii 'r' then some ([13], 1)
    else if e = ascii 'b' then some ([8], 1)
    else if e = ascii 'f' then some ([12], 1)
    else if e = ascii 'v' then some ([11], 1)
    else if e = ascii '0' then
      if rest.head?.any isDigit then none else some ([0], 1)
    else if e = 10 then some ([], 1)
    else if e = 13 then some ([], if rest.head? = some 10 then 2 else 1)
    else if e = ascii 'x' then
      if rest.length < 2 then none
      else (hexNumber? (rest.take 2)).map fun v => (encode v, 3)
    else if e = ascii 'u' then
      match rest with
      | 123 :: inner =>
        let digits := inner.takeWhile (· ≠ 125)
        if digits.length = inner.length then none
        else ((hexNumber? digits).bind numericEscape?).map fun t => (t, digits.length + 3)
      | _ =>
        if rest.length < 4 then none
        else (hexNumber? (rest.take 4)).map fun v => (encode v, 5)
    else
      let g := firstGlyph e rest
      some (encode g.value, g.size)

/-- Decodes a chunk behind its first `skip` bytes, which belong to an escape already read. -/
def unescapeFrom : Nat → Text → Option Text
  | _, [] => some []
  | skip + 1, _ :: rest => unescapeFrom skip rest
  | 0, b :: rest =>
    if b = 92 then do
      let (decoded, size) ← escape? rest
      return decoded ++ (← unescapeFrom size rest)
    else do return b :: (← unescapeFrom 0 rest)

/-- Decodes the escapes of a chunk; none when an escape is malformed. -/
def unescape (t : Text) : Option Text := unescapeFrom 0 t

/-- One code point inside single quotes. -/
def singleQuotedPoint (v : Nat) : Text :=
  match v with
  | 92 => lit "\\\\"
  | 39 => lit "\\'"
  | 10 => lit "\\n"
  | 13 => lit "\\r"
  | 9 => lit "\\t"
  | _ => if v < 0x20 then lit "\\x" ++ hexFixed 2 v else encode v

/-- A text as a string literal in single quotes. -/
def singleQuoted (t : Text) : Text := 39 :: t.codePoints.flatMap singleQuotedPoint ++ [39]

end CubeSchema.Text
