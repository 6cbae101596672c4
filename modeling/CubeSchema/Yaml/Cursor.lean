import CubeSchema.Yaml.Stream

/-!
# Reading a YAML stream

The characters of a stream with the place that has been reached. Lines and columns count from zero,
and a line may end in any of five ways. Before characters are looked at they have to be loaded, by
`need`; this takes whole blocks, and the end of the stream counts as a character. What follows here
are the classes of characters that the tokens are made of and the few moves that reading them takes.
-/

namespace CubeSchema.Yaml

/-- The double quote. -/
def doubleQuote : Char := Char.ofNat 34

/-- The single quote. -/
def singleQuote : Char := Char.ofNat 39

/-- The grave accent. -/
def grave : Char := Char.ofNat 96

/-- A space or a tab. -/
def isBlank (c : Char) : Bool := c = ' ' || c = '\t'

/-- A carriage return or a line feed. -/
def isAsciiBreak (c : Char) : Bool := c = '\r' || c = '\n'

/-- A character that ends a line. -/
def isBreak (c : Char) : Bool :=
  isAsciiBreak c || c.toNat = 0x85 || c.toNat = 0x2028 || c.toNat = 0x2029

/-- A character of a name: an ASCII letter, a digit, a line below or a hyphen. -/
def isWord (c : Char) : Bool := c.isAlphanum || c = '_' || c = '-'

/-- Whether a token may end before what comes next: a blank, the end of a line or of the stream. -/
def isGap : Option Char → Bool
  | none => true
  | some c => isBlank c || isBreak c

/-- The rest of a stream and the place it starts at. -/
structure Cursor where
  /-- The characters that have been loaded and not been read. -/
  rest : List Char := []
  /-- The blocks that have not been loaded. -/
  ahead : List Block
  /-- How often the end of the stream has been loaded and not been read. -/
  ends : Nat := 0
  /-- Whether a byte order mark was the next character when a block was last loaded. -/
  marked : Bool := false
  /-- A number above that of all characters of the stream. -/
  bound : Nat
  /-- The number of characters before this place. -/
  index : Nat := 0
  /-- The number of lines before this place. -/
  line : Nat := 0
  /-- The number of characters before this place in its line. -/
  column : Nat := 0
  /-- Whether a line has ended since the last character that was no blank. -/
  fresh : Bool := false
  deriving Repr

namespace Cursor

/-- The start of a text. -/
def ofText (t : Text) : Cursor := { ahead := blocks t, bound := t.length + 2 }

/-- The character at a distance. -/
def peek (c : Cursor) (i : Nat := 0) : Option Char := c.rest[i]?

/-- Whether the next character is the given one. -/
def sees (c : Cursor) (x : Char) : Bool := c.peek = some x

/-- Whether the next characters are the given ones. -/
def seesAll (c : Cursor) (xs : String) : Bool := xs.toList.isPrefixOf c.rest

/-- Whether a blank, the end of a line or the end of the stream is at a distance. -/
def gapAt (c : Cursor) (i : Nat) : Bool := isGap (c.peek i)

/-- Whether the next character ends a line. -/
def atBreak (c : Cursor) : Bool := c.peek.any isBreak

/-- Whether the line or the stream ends here. -/
def atLineEnd (c : Cursor) : Bool := c.peek.all isBreak

/-- Whether nothing is left. -/
def atEnd (c : Cursor) : Bool := c.rest.isEmpty

/-- Whether three given characters stand alone at the start of a line. -/
def atIndicator (c : Cursor) (xs : String) : Bool := c.column = 0 && c.seesAll xs && c.gapAt 3

/-- Whether a document starts or ends here. -/
def atDocumentEdge (c : Cursor) : Bool := c.atIndicator "---" || c.atIndicator "..."

/-- Whether `n` characters have been loaded and not been read. -/
def has (c : Cursor) (n : Nat) : Bool := n ≤ (c.rest.take n).length + c.ends

/-- Loads blocks until there are `n` characters or the stream ends. -/
def fill (c : Cursor) (n : Nat) : List Block → Option Cursor
  | [] => some { c with ahead := [], ends := c.ends + 1 }
  | none :: _ => none
  | some cs :: blocks =>
    let c := { c with rest := c.rest ++ cs, ahead := blocks }
    if c.has n then some c else c.fill n blocks

/-- The cursor behind the next character, which does not end a line. -/
def next (c : Cursor) : Cursor :=
  { c with
    rest := c.rest.drop 1
    ends := if c.rest.isEmpty then c.ends - 1 else c.ends
    index := c.index + 1
    column := c.column + 1
    fresh := c.fresh && c.peek.any isBlank }

/-- The start of the next line, which is `n` characters away. -/
def nextLine (c : Cursor) (n : Nat) : Cursor :=
  { c with
    rest := c.rest.drop n
    index := c.index + n
    line := c.line + 1
    column := 0
    fresh := true }

end Cursor

/-- Reading from a cursor; fails where the stream is malformed. -/
abbrev Scan := StateT Cursor Option

namespace Scan

/-- Makes sure that `n` characters have been loaded. -/
def need (n : Nat) : Scan Unit := do
  let c ← get
  if !c.has n then
    match c.fill n c.ahead with
    | none => failure
    | some c => set { c with marked := c.rest.head? = some byteOrderMark }

/-- Steps over one character that does not end a line. -/
def skip : Scan Unit := modify Cursor.next

/-- Steps over `n` characters that have been loaded and do not end a line. -/
def skipMany : Nat → Scan Unit
  | 0 => return
  | n + 1 => do
    skip
    skipMany n

/-- Steps over the end of a line, which has been loaded, and gives the character it stands for: a
line feed, except for the two separators of Unicode, which stand for themselves. -/
def takeBreak : Scan (List Char) := do
  let c ← get
  match c.rest with
  | '\r' :: '\n' :: _ => do
    set (c.nextLine 2)
    return ['\n']
  | x :: _ =>
    if !isBreak x then return []
    else do
      set (c.nextLine 1)
      return if x.toNat = 0x2028 || x.toNat = 0x2029 then [x] else ['\n']
  | [] => return []

/-- Steps over the end of a line. -/
def skipBreak : Scan Unit := do
  need 2
  let _ ← takeBreak

/-- Takes characters that satisfy `p`, at most as many as `fuel`; those taken so far come last, in
reverse. -/
def takeFrom (p : Char → Bool) : Nat → List Char → Scan (List Char)
  | 0, taken => return taken.reverse
  | fuel + 1, taken => do
    match (← get).peek with
    | none => return taken.reverse
    | some x =>
      if p x then do
        skip
        need 1
        takeFrom p fuel (x :: taken)
      else return taken.reverse

/-- Takes the characters that satisfy `p`, none of which ends a line. -/
def takeWhile (p : Char → Bool) : Scan (List Char) := do
  need 1
  takeFrom p (← get).bound []

/-- Steps over the characters that satisfy `p`, none of which ends a line. -/
def skipWhile (p : Char → Bool) : Scan Unit := do
  let _ ← takeWhile p

/-- Steps to the end of the line. -/
def skipToLineEnd : Scan Unit := skipWhile fun x => !isBreak x

/-- Steps to the place with the given number of characters before it, over the ends of lines. -/
def goTo (index : Nat) : Nat → Scan Unit
  | 0 => return
  | fuel + 1 => do
    need 1
    let c ← get
    if c.index < index then
      if c.atBreak then skipBreak else skip
      goTo index fuel

end Scan

end CubeSchema.Yaml
