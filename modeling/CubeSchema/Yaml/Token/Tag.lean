import CubeSchema.Yaml.Token
import CubeSchema.Yaml.Token.Scalar

/-!
# Names, tags and directives of a YAML stream

Readers of what is written before nodes and before documents: the names of anchors, tags, and the
directives. Every reader starts at the first character of what it reads and stops behind it.
-/

namespace CubeSchema.Yaml.Scan

/-- Reads the name of an anchor or alias behind its indicator. -/
def readName : Scan Text := do
  skip
  let name ← takeWhile isWord
  let c ← get
  let ends := c.gapAt 0 || c.peek.any fun x => x ∈ ['?', ':', ',', ']', '\x7d', '%', '@', grave]
  if name.isEmpty || !ends then failure else return toText name

/-- The characters that may stand in a tag as they are. -/
def isTagChar (c : Char) : Bool :=
  isWord c || c = singleQuote ||
    c ∈ [';', '/', '?', ':', '@', '&', '=', '+', '$', ',', '.', '!', '~', '*', '(', ')', '[', ']']

/-- Reads a byte given by a percent sign and two hexadecimal digits. -/
def readOctet : Scan UInt8 := do
  need 3
  let c ← get
  match hexAt? 2 (c.rest.drop 1) with
  | some v => if c.sees '%' then do skipMany 3; return v.toUInt8 else failure
  | none => failure

/-- Reads `n` bytes that continue a UTF-8 sequence. -/
def readContinuation : Nat → Scan Text
  | 0 => return []
  | n + 1 => do
    let b ← readOctet
    if !Text.isContinuation b then failure else return b :: (← readContinuation n)

/-- Reads a character given by its bytes; how many there are shows in the first. -/
def readOctets : Scan Text := do
  let b ← readOctet
  if b ≥ 0x80 && sequenceSize b = 1 then failure
  else return b :: (← readContinuation (sequenceSize b - 1))

/-- Reads the characters of a tag behind those that have been read. -/
def tagFrom : Nat → Text → Scan Text
  | 0, text => return text
  | fuel + 1, text => do
    match (← get).peek with
    | none => return text
    | some x =>
      if x = '%' then do
        let bytes ← readOctets
        need 1
        tagFrom fuel (text ++ bytes)
      else if isTagChar x then do
        skip
        need 1
        tagFrom fuel (text ++ toText [x])
      else return text

/-- Reads a tag or its beginning, of which there has to be something; the text `start` has been read
already, and its first character does not count. -/
def readTagText (start : Text) : Scan Text := do
  need 1
  let text ← tagFrom (← get).bound []
  if start.isEmpty && text.isEmpty then failure else return start.drop 1 ++ text

/-- Reads the handle of a tag: an exclamation mark, a name and, if there is one, another mark. -/
def readHandle : Scan Text := do
  need 1
  if !(← get).sees '!' then failure
  else do
    skip
    let name ← takeWhile isWord
    if (← get).sees '!' then do
      skip
      return lit "!" ++ toText name ++ lit "!"
    else return lit "!" ++ toText name

/-- Reads a tag: a handle with an ending, or a whole tag without a handle. -/
def readTag : Scan (Text × Text) := do
  need 2
  let tag ← if (← get).peek 1 = some '<' then do
      skipMany 2
      let whole ← readTagText []
      if (← get).sees '>' then do
        skip
        pure ([], whole)
      else failure
    else do
      let handle ← readHandle
      if handle.length > 1 && handle.getLast? = some 33 then pure (handle, ← readTagText [])
      else do
        let ending ← readTagText handle
        pure (if ending.isEmpty then ([], lit "!") else (lit "!", ending))
  need 1
  if (← get).gapAt 0 then return tag else failure

/-- Reads a number of at most two digits. -/
def readVersionNumber : Scan Nat := do
  let digits ← takeWhile Char.isDigit
  if digits.isEmpty || digits.length > 2 then failure
  else return digits.foldl (fun n d => 10 * n + (d.toNat - 48)) 0

/-- Reads the version behind its directive. -/
def readVersion : Scan TokenKind := do
  skipWhile isBlank
  let major ← readVersionNumber
  if !(← get).sees '.' then failure
  else do
    skip
    return .version major (← readVersionNumber)

/-- Reads the handle and the beginning of tags behind their directive. -/
def readTagDirective : Scan TokenKind := do
  skipWhile isBlank
  let handle ← readHandle
  need 1
  if handle.getLast? ≠ some 33 || !(← get).peek.any isBlank then failure
  else do
    skipWhile isBlank
    let start ← readTagText []
    need 1
    if (← get).gapAt 0 then return .tagDirective handle start else failure

/-- Reads a directive and the rest of its line. -/
def readDirective : Scan TokenKind := do
  skip
  let name ← takeWhile isWord
  let kind ←
    if !(← get).gapAt 0 then failure
    else if name = "YAML".toList then readVersion
    else if name = "TAG".toList then readTagDirective
    else failure
  skipWhile isBlank
  if (← get).sees '#' then skipToLineEnd
  if !(← get).atLineEnd then failure
  if (← get).atBreak then skipBreak
  return kind

end CubeSchema.Yaml.Scan
