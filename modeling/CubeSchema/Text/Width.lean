import CubeSchema.Text.Utf8
import CubeSchema.Text.WidthClass

/-!
# Display widths

How many columns of a terminal a text takes. There are two measures. `cellWidth` adds up the code
points one by one; tables are laid out by it. `lineWidth` reads a line as a terminal shows it:
escape sequences take no room, and code points that are shown as one sign count once. They agree on
texts without joined signs and escape sequences.
-/

namespace CubeSchema.Text

/-! ## Code points one by one -/

/-- The columns of a code point on its own. -/
def pointWidth (v : Nat) : Nat :=
  if v < 0x20 || (0x7F ≤ v && v ≤ 0x9F) || v = 0xAD then 0
  else if v < 0x300 then 1
  else if inTable blankRanges v then 0
  else if inTable wideRanges v then 2
  else 1

/-- The columns of a line, code point by code point. -/
def cellWidth (t : Text) : Nat := t.codePoints.foldl (fun n v => n + pointWidth v) 0

/-! ## Signs of several code points -/

/-- The joiner, which makes one sign of two pictographs. -/
def joiner : Nat := 0x200D

/-- A letter that stands for a region together with a second one. -/
def isRegional (v : Nat) : Bool := 0x1F1E6 ≤ v && v ≤ 0x1F1FF

/-- A leading consonant of a Korean syllable. -/
def isLead (v : Nat) : Bool := (0x1100 ≤ v && v ≤ 0x115F) || (0xA960 ≤ v && v ≤ 0xA97C)

/-- A vowel, a final consonant or a whole syllable of Korean. -/
def isSyllablePart (v : Nat) : Bool :=
  (0x1160 ≤ v && v ≤ 0x11FF) || (0xD7B0 ≤ v && v ≤ 0xD7FB) || (0xAC00 ≤ v && v ≤ 0xD7A3)

/-- A code point that takes no column and stays with the sign before it. -/
def attaches (v : Nat) : Bool := v = joiner || inTable attachingRanges v

/-- The columns of the sign that a code point starts. -/
def signWidth (v : Nat) : Nat :=
  if inTable controlRanges v || attaches v then 0
  else if isRegional v then 2
  else if inTable pictographRanges v then
    if inTable wideRanges v && !plainPictographs.contains v then 2 else 1
  else if v = 0x2E3A then 3
  else if v = 0x2E3B then 4
  else if inTable wideRanges v then 2
  else 1

/-- The sign that is being read, as far as it decides what joins it. -/
inductive Sign where
  /-- Nothing joins it but marks. -/
  | plain
  /-- A pictograph of a width, and whether a joiner was the last thing read. -/
  | pictograph (width : Nat) (joined : Bool)
  /-- The first of two letters for a region. -/
  | regional
  /-- The beginning of a Korean syllable. -/
  | lead
  deriving DecidableEq, Repr

/-- The columns of a sign that are not counted before it is known to be complete. -/
def Sign.pending : Sign → Nat
  | pictograph w _ => w
  | _ => 0

/-- The sign that a code point starts, with the columns that are counted at once. -/
def Sign.start (v : Nat) : Nat × Sign :=
  if inTable pictographRanges v then (0, .pictograph (signWidth v) false)
  else if isRegional v then (2, .regional)
  else if isLead v then (signWidth v, .lead)
  else (signWidth v, .plain)

/-- Whether a code point belongs to a sign that has been started. -/
def Sign.takes (s : Sign) (v : Nat) : Bool :=
  match s with
  | plain => false
  | pictograph _ joined => attaches v || (joined && inTable pictographRanges v)
  | regional => attaches v || isRegional v
  | lead => attaches v || isLead v || isSyllablePart v

/-- A sign behind a code point that belongs to it. A selector decides between the plain and the
coloured form of a pictograph. -/
def Sign.extend (s : Sign) (v : Nat) : Sign :=
  match s with
  | plain => plain
  | pictograph w _ =>
    if v = 0xFE0E then pictograph 1 false
    else if v = 0xFE0F then pictograph 2 false
    else pictograph w (v = joiner)
  | regional => plain
  | lead => lead

/-- Reads one code point: the columns that are complete now, and the sign that goes on. -/
def Sign.next (s : Sign) (v : Nat) : Nat × Sign :=
  if s.takes v then (0, s.extend v)
  else
    let (w, s') := Sign.start v
    (s.pending + w, s')

/-- The columns of a list of code points that continues the given sign. -/
def signsWidth : Sign → List Nat → Nat
  | s, [] => s.pending
  | s, v :: rest =>
    let (w, s') := s.next v
    w + signsWidth s' rest

/-! ## Escape sequences -/

/-- How far an escape sequence has been read. -/
inductive EscapeState where
  /-- Outside of every sequence. -/
  | ground
  /-- Behind the escape byte. -/
  | escape
  /-- In a control sequence, which ends with a byte between `@` and `~`. -/
  | control
  /-- In a string that ends with the bell or the next escape byte. -/
  | string
  deriving DecidableEq, Repr

/-- The state behind a byte of an escape sequence. -/
def EscapeState.next (s : EscapeState) (v : Nat) : EscapeState :=
  if v = 0x1B then .escape
  else if v = 0x18 || v = 0x1A then .ground
  else
    match s with
    | .ground => .ground
    | .escape =>
      if v = 0x5B then .control
      else if v ∈ [0x50, 0x58, 0x5D, 0x5E, 0x5F] then .string
      else if 0x30 ≤ v && v ≤ 0x7E then .ground
      else .escape
    | .control => if 0x40 ≤ v && v ≤ 0x7E then .ground else .control
    | .string => if v = 7 then .ground else .string

/-- The code points outside of escape sequences. -/
def unescaped : EscapeState → List Nat → List Nat
  | _, [] => []
  | s, v :: rest =>
    if s = .ground && v ≠ 0x1B then v :: unescaped .ground rest else unescaped (s.next v) rest

/-- What a terminal reads for a glyph: a byte that could not start any sequence is no more than a
control. -/
def Glyph.shown : Glyph → Nat
  | point v _ => v
  | stray b => if 0xC2 ≤ b && b ≤ 0xF4 then 0xFFFD else 0x80

/-- The columns of a line as a terminal shows it. -/
def lineWidth (t : Text) : Nat := signsWidth .plain (unescaped .ground (t.glyphs.map Glyph.shown))

/-- The columns of the widest line of a text. -/
def displayWidth (t : Text) : Nat := ((splitOn newline t).map lineWidth).foldl max 0

end CubeSchema.Text
