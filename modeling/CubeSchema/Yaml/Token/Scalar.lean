import CubeSchema.Yaml.Cursor

/-!
# The text of YAML scalars

Plain, quoted and block scalars. A line break inside a scalar folds: a single one reads as a space,
and of several the first is dropped. Every reader starts at the first character of the scalar, gives
its text and stops behind it, or fails when the scalar is malformed. While a scalar is read, its
text is kept with the last character first.
-/

namespace CubeSchema.Yaml

/-- White space between two runs of characters of a scalar. -/
inductive Gap where
  /-- There is none. -/
  | none
  /-- Blanks in one line. -/
  | blanks (text : List Char)
  /-- The first line break, and the further ones. -/
  | lines (first more : List Char)
  deriving Repr

namespace Gap

/-- What a gap reads as. -/
def folded : Gap → List Char
  | none => []
  | blanks text => text
  | lines first more =>
    if first.head? = some '\n' then (if more.isEmpty then [' '] else more) else first ++ more

/-- Whether a gap spans a line break. -/
def spansLines : Gap → Bool
  | lines .. => true
  | _ => false

/-- The gap with a blank behind it; at the start of a line blanks do not count. -/
def addBlank (x : Char) : Gap → Gap
  | none => blanks [x]
  | blanks text => blanks (text ++ [x])
  | lines first more => lines first more

/-- The gap with a line break behind it; blanks before a line break do not count. -/
def addBreak (b : List Char) : Gap → Gap
  | lines first more => lines first (more ++ b)
  | _ => lines b []

end Gap

namespace Scan

/-- Reads a gap behind one that has been read. A tab at the start of a line must not stand left of
the column `limit`. -/
def gapFrom (limit : Int) : Nat → Gap → Scan Gap
  | 0, g => return g
  | fuel + 1, g => do
    let c ← get
    match c.peek with
    | none => return g
    | some x =>
      if isBlank x then
        if g.spansLines && x = '\t' && (c.column : Int) < limit then failure
        else do
          skip
          need 1
          gapFrom limit fuel (g.addBlank x)
      else if isBreak x then do
        need 2
        let b ← takeBreak
        need 1
        gapFrom limit fuel (g.addBreak b)
      else return g

/-- Reads a gap behind one that has been read. -/
def readGap (limit : Int) (g : Gap) : Scan Gap := do
  need 1
  gapFrom limit (← get).bound g

/-! ## Plain scalars -/

/-- The characters that end a plain scalar inside brackets. -/
def isFlowIndicator (c : Char) : Bool := c ∈ [',', '?', '[', ']', '\x7b', '\x7d']

/-- Reads a run of characters of a plain scalar. -/
def plainRun (inFlow : Bool) : Nat → List Char → Scan (List Char)
  | 0, run => return run
  | fuel + 1, run => do
    let c ← get
    match c.peek with
    | none => return run
    | some x =>
      if c.gapAt 0 || (x = ':' && c.gapAt 1) || (inFlow && isFlowIndicator x) then return run
      else do
        skip
        need 2
        plainRun inFlow fuel (x :: run)

/-- Reads a plain scalar whose further lines are indented by at least `indent`. Says also whether
the cursor has gone on to another line. -/
def plainFrom (indent : Int) (inFlow : Bool) : Nat → List Char → Gap → Scan (List Char × Bool)
  | 0, text, g => return (text, g.spansLines)
  | fuel + 1, text, g => do
    need 4
    let c ← get
    if c.atDocumentEdge || c.sees '#' then return (text, g.spansLines)
    else do
      let run ← plainRun inFlow c.bound []
      let (text, g) :=
        if run.isEmpty then (text, g) else (run ++ g.folded.reverse ++ text, Gap.none)
      let c ← get
      if c.atEnd || !c.gapAt 0 then return (text, g.spansLines)
      else do
        let g ← readGap indent g
        if !inFlow && ((← get).column : Int) < indent then return (text, g.spansLines)
        else plainFrom indent inFlow fuel text g

/-- Reads a plain scalar. -/
def readPlain (indent : Int) (inFlow : Bool) : Scan (Text × Bool) := do
  let (text, spans) ← plainFrom indent inFlow (← get).bound [] .none
  return (toText text.reverse, spans)

/-! ## Quoted scalars -/

/-- What a one-letter escape stands for. -/
def escapeOf? (c : Char) : Option Char :=
  if c = '0' then some (Char.ofNat 0)
  else if c = 'a' then some (Char.ofNat 7)
  else if c = 'b' then some (Char.ofNat 8)
  else if c = 't' || c = '\t' then some '\t'
  else if c = 'n' then some '\n'
  else if c = 'v' then some (Char.ofNat 11)
  else if c = 'f' then some (Char.ofNat 12)
  else if c = 'r' then some '\r'
  else if c = 'e' then some (Char.ofNat 27)
  else if c = ' ' || c = doubleQuote || c = singleQuote || c = '\\' then some c
  else if c = 'N' then some (Char.ofNat 0x85)
  else if c = '_' then some (Char.ofNat 0xA0)
  else if c = 'L' then some (Char.ofNat 0x2028)
  else if c = 'P' then some (Char.ofNat 0x2029)
  else none

/-- The number of hexadecimal digits behind an escape letter. -/
def escapeLength? (c : Char) : Option Nat :=
  if c = 'x' then some 2 else if c = 'u' then some 4 else if c = 'U' then some 8 else none

/-- The value of exactly `n` hexadecimal digits at the front. -/
def hexAt? (n : Nat) (cs : List Char) : Option Nat :=
  let ds := (cs.take n).map fun c => if c.toNat < 128 then Text.hexValue? c.toNat.toUInt8 else none
  if ds.length = n then ds.foldl (fun v d => do return 16 * (← v) + (← d)) (some 0) else none

/-- Reads an escape, of which the backslash and the letter have been loaded. -/
def readEscape : Scan Char := do
  match (← get).peek 1 with
  | none => failure
  | some letter =>
    match escapeOf? letter, escapeLength? letter with
    | some x, _ => do
      skipMany 2
      return x
    | none, some n => do
      skipMany 2
      need n
      match hexAt? n (← get).rest with
      | none => failure
      | some v =>
        if (0xD800 ≤ v && v ≤ 0xDFFF) || v > 0x10FFFF then failure
        else do
          skipMany n
          return Char.ofNat v
    | none, none => failure

/-- Reads the characters of a quoted scalar up to a gap or the closing quote. Says also whether the
run ends with an escaped line break. -/
def quotedRun (quote : Char) : Nat → List Char → Scan (List Char × Bool)
  | 0, text => return (text, false)
  | fuel + 1, text => do
    let c ← get
    match c.peek with
    | none => return (text, false)
    | some x =>
      if c.gapAt 0 then return (text, false)
      else if x = quote then
        if quote = singleQuote && c.peek 1 = some quote then do
          skipMany 2
          need 2
          quotedRun quote fuel (quote :: text)
        else return (text, false)
      else if x = '\\' && quote = doubleQuote then
        if (c.peek 1).any isBreak then do
          need 3
          skip
          skipBreak
          return (text, true)
        else do
          let y ← readEscape
          need 2
          quotedRun quote fuel (y :: text)
      else do
        skip
        need 2
        quotedRun quote fuel (x :: text)

/-- Reads a quoted scalar behind its opening quote. -/
def quotedFrom (quote : Char) : Nat → List Char → Scan (List Char)
  | 0, _ => failure
  | fuel + 1, text => do
    need 4
    let c ← get
    if c.atDocumentEdge || c.atEnd then failure
    else do
      let (text, escaped) ← quotedRun quote c.bound text
      need 1
      if (← get).sees quote then do
        skip
        return text
      else do
        let g ← readGap 0 (if escaped then .lines [] [] else .none)
        quotedFrom quote fuel (g.folded.reverse ++ text)

/-- Reads a quoted scalar. -/
def readQuoted : Scan Text := do
  let c ← get
  match c.peek with
  | none => failure
  | some quote => do
    skip
    return toText (← quotedFrom quote c.bound []).reverse

/-! ## Block scalars -/

end Scan

/-- What happens to the line breaks at the end of a block scalar. -/
inductive Chomping where
  /-- All are dropped. -/
  | strip
  /-- One is kept. -/
  | clip
  /-- All are kept. -/
  | keep
  deriving DecidableEq, Repr

/-- The chomping that a character indicates. -/
def Chomping.ofChar? (c : Char) : Option Chomping :=
  if c = '+' then some .keep else if c = '-' then some .strip else none

/-- What has been read of a block scalar. -/
structure BlockText where
  /-- The text of the lines, the last character first. -/
  text : List Char := []
  /-- The break behind the last line. -/
  last : List Char := []
  /-- The breaks of the empty lines after it. -/
  breaks : List Char := []
  /-- Whether the last line started with a blank. -/
  blank : Bool := false

namespace BlockText

/-- What stands between the last line and the next one, which starts with a blank or not. In a
folded scalar a single line break between two lines without such blanks is a space. -/
def joint (b : BlockText) (literal starts : Bool) : List Char :=
  if !literal && !b.blank && !starts && b.last.head? = some '\n' then
    (if b.breaks.isEmpty then [' '] else b.breaks)
  else b.last ++ b.breaks

/-- The whole text. -/
def chomped (b : BlockText) (chomping : Chomping) : List Char :=
  b.text.reverse ++ match chomping with
    | .strip => []
    | .clip => b.last
    | .keep => b.last ++ b.breaks

end BlockText

namespace Scan

/-- Reads the indicator of a chomping, if there is one. -/
def readChomping : Scan (Option Chomping) := do
  need 1
  match (← get).peek.bind Chomping.ofChar? with
  | some ch => do
    skip
    return some ch
  | none => return none

/-- Reads a digit that says how much deeper a block is indented, if there is one; it is not zero. -/
def readIncrement : Scan (Option Nat) := do
  need 1
  match (← get).peek with
  | some d =>
    if d = '0' then failure
    else if d.isDigit then do
      skip
      return some (d.toNat - 48)
    else return none
  | none => return none

/-- Reads the indicators behind the one that starts a block scalar, in either order. -/
def readIndicators : Scan (Chomping × Nat) := do
  match ← readChomping with
  | some ch => return (ch, (← readIncrement).getD 0)
  | none =>
    match ← readIncrement with
    | some n => return ((← readChomping).getD .clip, n)
    | none => return (.clip, 0)

/-- Steps over the spaces of an indentation; the indentation `0` is one not known yet. -/
def skipIndent (indent : Nat) : Nat → Scan Unit
  | 0 => return
  | fuel + 1 => do
    let c ← get
    if (indent = 0 || c.column < indent) && c.sees ' ' then do
      skip
      need 1
      skipIndent indent fuel

/-- Reads the empty lines before the next line of a block scalar and the indentation of that line.
The deepest column met so far comes with the breaks. A tab must not stand where an indentation may
stand. -/
def blockBreaks (indent : Nat) : Nat → Nat → List Char → Scan (Nat × List Char)
  | 0, deepest, breaks => return (deepest, breaks)
  | fuel + 1, deepest, breaks => do
    need 1
    skipIndent indent (← get).bound
    let c ← get
    let deepest := max deepest c.column
    if (indent = 0 || c.column < indent) && c.sees '\t' then failure
    else if c.atBreak then do
      need 2
      let b ← takeBreak
      blockBreaks indent fuel deepest (breaks ++ b)
    else return (deepest, breaks)

/-- Reads the lines of a block scalar with a known indentation. -/
def blockLines (literal : Bool) (indent : Nat) : Nat → BlockText → Scan BlockText
  | 0, b => return b
  | fuel + 1, b => do
    let c ← get
    if c.column ≠ indent || c.atEnd then return b
    else do
      let starts := c.peek.any isBlank
      let run ← takeWhile fun x => !isBreak x
      need 2
      let last ← takeBreak
      let (_, breaks) ← blockBreaks indent c.bound 0 []
      let text := run.reverse ++ (b.joint literal starts).reverse ++ b.text
      blockLines literal indent fuel ⟨text, last, breaks, starts⟩

/-- Reads a block scalar inside a collection of indentation `parent`. -/
def readBlock (parent : Int) : Scan Text := do
  let literal := (← get).sees '|'
  skip
  let (chomping, increment) ← readIndicators
  skipWhile isBlank
  if (← get).sees '#' then skipToLineEnd
  if !(← get).atLineEnd then failure
  if (← get).atBreak then skipBreak
  let given := if increment = 0 then 0 else (max parent 0).toNat + increment
  let (deepest, breaks) ← blockBreaks given (← get).bound 0 []
  let indent := if given = 0 then max deepest (max (parent + 1).toNat 1) else given
  need 1
  let b ← blockLines literal indent (← get).bound { breaks }
  return toText (b.chomped chomping)

end Scan

end CubeSchema.Yaml
