import CubeSchema.Text.Utf8

/-!
# YAML streams in blocks

A stream is a text in UTF-8 or, behind the byte order mark of that encoding, in UTF-16. It is read
in blocks of at most 512 bytes, and a character that does not fit into a block any more starts the
next one. A block is looked at only when reading has come so far: what no stream may hold does no
harm in a block that nobody asks for.
-/

namespace CubeSchema.Yaml

/-- A character that no stream may hold: anything that is not printable, the usual white space
apart. -/
def isForbidden (v : Nat) : Bool :=
  !(v = 9 || v = 10 || v = 13 || (0x20 ≤ v && v ≤ 0x7E) || v = 0x85 || (0xA0 ≤ v && v ≤ 0xD7FF) ||
    (0xE000 ≤ v && v ≤ 0xFFFD) || (0x10000 ≤ v && v ≤ 0x10FFFF))

/-- The mark that may stand before a stream. -/
def byteOrderMark : Char := Char.ofNat 0xFEFF

/-- The bytes of a list of characters. -/
def toText (cs : List Char) : Text := Text.ofCodePoints (cs.map Char.toNat)

/-- How the characters of a stream are written. -/
inductive Encoding where
  /-- In UTF-8. -/
  | utf8
  /-- In UTF-16, the high byte first or last. -/
  | utf16 (highFirst : Bool)
  deriving DecidableEq, Repr

/-- The encoding of a text, with the number of bytes that its mark takes. -/
def Encoding.ofText : Text → Encoding × Nat
  | 0xFF :: 0xFE :: _ => (.utf16 false, 2)
  | 0xFE :: 0xFF :: _ => (.utf16 true, 2)
  | 0xEF :: 0xBB :: 0xBF :: _ => (.utf8, 3)
  | _ => (.utf8, 0)

/-- The number of bytes that a block may take. -/
def blockSize : Nat := 512

/-- The bytes that a character takes, and the character, if a stream may hold it. -/
structure SizedChar where
  /-- The number of bytes. One more than a block may take, if the stream ends in the middle. -/
  size : Nat
  /-- The character. -/
  char : Option Char
  deriving DecidableEq, Repr

/-- A code point that takes a number of bytes. -/
def SizedChar.ofPoint (size v : Nat) : SizedChar :=
  ⟨size, if isForbidden v then none else some (Char.ofNat v)⟩

/-- Bytes that are no character: a sequence of `size` bytes, of which `present` are there. -/
def SizedChar.ofBroken (size present : Nat) : SizedChar :=
  ⟨if present < size then blockSize + 1 else size, none⟩

/-- The number of bytes of a UTF-8 sequence by its first byte. -/
def sequenceSize (b : UInt8) : Nat :=
  if b &&& 0xE0 = 0xC0 then 2
  else if b &&& 0xF0 = 0xE0 then 3
  else if b &&& 0xF8 = 0xF0 then 4
  else 1

/-- The characters of a text in UTF-8, up to the first that is broken. -/
def sized8 : List Text.Glyph → List SizedChar
  | [] => []
  | .point v n :: rest => .ofPoint n v :: sized8 rest
  | .stray b :: rest => [.ofBroken (sequenceSize b) (rest.foldl (fun n g => n + g.size) 1)]

/-- The characters of a text in UTF-16, up to the first that is broken. -/
def sized16 (highFirst : Bool) : Text → List SizedChar
  | [] => []
  | [_] => [.ofBroken 2 1]
  | a :: b :: rest =>
    let pair (a b : UInt8) : Nat :=
      if highFirst then 256 * a.toNat + b.toNat else 256 * b.toNat + a.toNat
    let v := pair a b
    if 0xDC00 ≤ v && v ≤ 0xDFFF then [.ofBroken 2 2]
    else if 0xD800 ≤ v && v ≤ 0xDBFF then
      match rest with
      | c :: d :: rest =>
        let w := pair c d
        if 0xDC00 ≤ w && w ≤ 0xDFFF then
          .ofPoint 4 (0x10000 + 1024 * (v - 0xD800) + (w - 0xDC00)) :: sized16 highFirst rest
        else [.ofBroken 4 4]
      | _ => [.ofBroken 4 2]
    else .ofPoint 2 v :: sized16 highFirst rest

/-- The characters of a block, or nothing when it holds what no stream may hold. -/
abbrev Block := Option (List Char)

/-- The blocks of a stream, of which the first has `room` bytes left and `block` in it, the last
character first. -/
def blocksFrom : Nat → List Char → List SizedChar → List Block
  | _, block, [] => [some block.reverse]
  | room, block, u :: rest =>
    match u.char with
    | none => if u.size ≤ room then [none] else [some block.reverse, none]
    | some c =>
      if u.size ≤ room then blocksFrom (room - u.size) (c :: block) rest
      else some block.reverse :: blocksFrom (blockSize - u.size) [c] rest

/-- The blocks of a text. -/
def blocks (t : Text) : List Block :=
  let (encoding, mark) := Encoding.ofText t
  let body := t.drop mark
  blocksFrom (blockSize - mark) [] <| match encoding with
    | .utf8 => sized8 (Text.glyphs body)
    | .utf16 highFirst => sized16 highFirst body

end CubeSchema.Yaml
