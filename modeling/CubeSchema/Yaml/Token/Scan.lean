import CubeSchema.Yaml.Token.Comment
import CubeSchema.Yaml.Token.Tag

/-!
# Cutting a YAML stream into tokens

The tokens are found from left to right and wait in a queue until they are taken. Whether a scalar
or a bracket starts a key shows only at the colon behind it, so a place where a key may have started
is kept, and its token is put in later; such a key lies in one line and has at most 1024 characters.
A token is given away when it is settled that none comes before it and two more have been found
behind it. Indentation opens and closes block collections outside of brackets and means nothing
inside.
-/

namespace CubeSchema.Yaml

/-- A place where a key may have started. -/
structure KeyStart where
  /-- Whether a key may still start there. -/
  possible : Bool := false
  /-- Whether nothing else than a key can stand there. -/
  required : Bool := false
  /-- The number of tokens before it. -/
  number : Nat := 0
  /-- The number of characters before it. -/
  index : Nat := 0
  /-- Its line. -/
  line : Nat := 0
  /-- Its column. -/
  column : Nat := 0
  deriving Repr

/-- How far the stream has been cut. -/
structure Scanner where
  /-- What is left of the stream. -/
  cursor : Cursor
  /-- The tokens that have been found and not been taken. -/
  queue : List Token := []
  /-- The number of tokens that have been taken. -/
  taken : Nat := 0
  /-- The indentation of the innermost block collection, `-1` outside of all. -/
  indent : Int := -1
  /-- The indentations around it. -/
  outer : List Int := []
  /-- The possible key of the innermost bracket. -/
  key : KeyStart := {}
  /-- The possible keys of the brackets around it. -/
  outerKeys : List KeyStart := []
  /-- The numbers of the tokens that are held back for the key that may start with them. -/
  held : List Nat := []
  /-- Whether a key may start here. -/
  keyAllowed : Bool := true
  deriving Repr

namespace Scanner

/-- How deep brackets and block collections may lie in each other. -/
def maxDepth : Nat := 10000

/-- Whether the cursor stands inside brackets. -/
def inFlow (s : Scanner) : Bool := !s.outerKeys.isEmpty

/-- Runs a reader at the cursor. -/
def reading {α : Type} (s : Scanner) (r : Scan α) : Option (α × Scanner) :=
  (r.run s.cursor).map fun (a, c) => (a, { s with cursor := c })

/-- Moves the cursor. -/
def move (s : Scanner) (r : Scan Unit) : Option Scanner := (s.reading r).map Prod.snd

/-- The number of tokens found so far. -/
def count (s : Scanner) : Nat := s.taken + s.queue.length

/-- Adds a token behind all others. -/
def add (s : Scanner) (t : Token) : Scanner := { s with queue := s.queue ++ [t] }

/-- Adds a token at the cursor. -/
def push (s : Scanner) (k : TokenKind) : Scanner := s.add ⟨k, s.cursor.line⟩

/-- Puts a token in before the one of the given number. Behind the last token it goes as well when
the other has been taken already. -/
def insert (s : Scanner) (number : Nat) (t : Token) : Scanner :=
  if number < s.taken then s.add t
  else
    let i := number - s.taken
    { s with queue := s.queue.take i ++ t :: s.queue.drop i }

/-- Sets whether a key may come next. -/
def allow (s : Scanner) (b : Bool) : Scanner := { s with keyAllowed := b }

/-! ## Keys -/

/-- Gives up the possible key of the innermost bracket. -/
def forgetKey (s : Scanner) : Scanner :=
  { s with
    key := { s.key with possible := false }
    held := s.held.erase s.key.number }

/-- Gives up the possible key, if there is one; a required one cannot be given up. -/
def dropKey (s : Scanner) : Option Scanner :=
  if !s.key.possible then some s else if s.key.required then none else some s.forgetKey

/-- The place of the cursor, where the next token will be. -/
def placeHere (s : Scanner) : KeyStart :=
  { number := s.count, index := s.cursor.index, line := s.cursor.line, column := s.cursor.column }

/-- Keeps the cursor's place as a possible key, if keys are allowed there. -/
def saveKey (s : Scanner) : Option Scanner :=
  if s.keyAllowed then do
    let required := !s.inFlow && s.indent = s.cursor.column
    let key := { s.placeHere with possible := true, required }
    let s ← s.dropKey
    return { s with key, held := key.number :: s.held }
  else some s

/-- Whether the colon of a key can no longer come: it has to be in the same line and at most 1024
characters away. -/
def isStale (s : Scanner) (k : KeyStart) : Bool :=
  k.line < s.cursor.line || k.index + 1024 < s.cursor.index

/-- Goes into a bracket. -/
def enter (s : Scanner) : Option Scanner :=
  if s.outerKeys.length ≥ maxDepth then none
  else some { s with key := s.placeHere, outerKeys := s.key :: s.outerKeys }

/-- Goes out of a bracket. The token held back last inside it is held back no longer; where no key
could start inside, this is the bracket itself. -/
def leave (s : Scanner) : Scanner :=
  match s.outerKeys with
  | [] => s
  | k :: rest => { s with key := k, outerKeys := rest, held := s.held.erase s.key.number }

/-! ## Indentation -/

/-- Opens a block collection at a deeper column; its token has the given number, if it has one. -/
def openBlock (s : Scanner) (column line : Nat) (number : Option Nat) (k : TokenKind) :
    Option Scanner :=
  if !s.inFlow && s.indent < column then
    if s.outer.length ≥ maxDepth then none
    else
      some { s.insert (number.getD s.count) ⟨k, line⟩ with
        indent := column
        outer := s.indent :: s.outer }
  else some s

/-- Closes the block collections deeper than a column, of which there are at most `n`. -/
def closeBlocks (column : Int) : Nat → Scanner → Scanner
  | 0, s => s
  | n + 1, s =>
    if s.indent ≤ column then s
    else
      closeBlocks column n
        { s.push .blockEnd with indent := s.outer.headD (-1), outer := s.outer.drop 1 }

/-- Closes the block collections that the column ends. -/
def unindent (s : Scanner) (column : Int) : Scanner :=
  if s.inFlow then s else closeBlocks column (s.outer.length + 1) s

/-! ## Tokens -/

/-- Steps to the next token: over blanks, comments and line breaks. Outside of brackets a tab must
not stand where a key may start. At the start of a line a character is stepped over as long as what
has been loaded starts with a byte order mark. -/
def toToken : Nat → Scanner → Option Scanner
  | 0, s => some s
  | fuel + 1, s => do
    let tabs := s.inFlow || !s.keyAllowed
    let (more, s) ← s.reading do
      Scan.need 1
      if (← get).column = 0 && (← get).marked then Scan.skip
      Scan.skipWhile fun x => x = ' ' || (tabs && x = '\t')
      if (← get).sees '#' then Scan.skipComments
      if (← get).atBreak then do
        Scan.skipBreak
        return true
      else return false
    if more then toToken fuel (s.allow (s.keyAllowed || !s.inFlow)) else return s

/-- Adds a token of `n` characters. -/
def take (s : Scanner) (n : Nat) (k : TokenKind) : Option Scanner :=
  (s.push k).move (Scan.skipMany n)

/-- Adds the token that a reader gives, which starts at the cursor. -/
def takeRead (s : Scanner) (r : Scan TokenKind) : Option Scanner := do
  let (kind, s') ← s.reading r
  return s'.add ⟨kind, s.cursor.line⟩

/-- Adds the token that a reader gives, keeping its start as a possible key. -/
def takeKey (s : Scanner) (r : Scan TokenKind) : Option Scanner := do
  ((← s.saveKey).allow false).takeRead r

/-- A mark of three characters before or behind a document, or a directive: all collections end. -/
def atStreamLevel (s : Scanner) : Option Scanner := do
  return (← (s.unindent (-1)).dropKey).allow false

/-- An indicator that opens a block collection at its column. -/
def blockIndicator (s : Scanner) (collection entry : TokenKind) (allowed : Bool) :
    Option Scanner := do
  if !s.inFlow && !s.keyAllowed then none
  else
    let s ← s.openBlock s.cursor.column s.cursor.line none collection
    ((← s.dropKey).allow allowed).take 1 entry

/-- A colon behind a key: the key gets its token now. -/
def valueOf (s : Scanner) (k : KeyStart) : Option Scanner := do
  let s := s.insert k.number ⟨.key, k.line⟩
  let s ← s.openBlock k.column k.line (some k.number) .blockMapping
  (s.forgetKey.allow false).take 1 .value

/-- A colon whose key is empty or stands between indicators of its own. -/
def loneValue (s : Scanner) : Option Scanner := do
  if !s.inFlow && !s.keyAllowed then none
  else
    let s ← s.openBlock s.cursor.column s.cursor.line none .blockMapping
    (s.allow (!s.inFlow)).take 1 .value

/-- A colon. -/
def valueIndicator (s : Scanner) : Option Scanner :=
  if !s.key.possible then s.loneValue
  else if !s.isStale s.key then s.valueOf s.key
  else if s.key.required then none
  else s.forgetKey.loneValue

/-- Whether a plain scalar can start with what is at the cursor. -/
def startsPlain (s : Scanner) : Bool :=
  let c := s.cursor
  match c.peek with
  | none => false
  | some x =>
    let special := x = doubleQuote || x = singleQuote || x = grave ||
      x ∈ ['-', '?', ':', ',', '[', ']', '\x7b', '\x7d', '#', '&', '*', '!', '|', '>', '%', '@']
    (!isBlank x && !isBreak x && !special) || (x = '-' && !(c.peek 1).any isBlank) ||
      (!s.inFlow && (x = '?' || x = ':') && !c.gapAt 1)

/-- Finds the token of a document that starts with the character `x` at the cursor. -/
def contentToken (s : Scanner) (x : Char) : Option Scanner :=
  let c := s.cursor
  if x = '[' || x = '\x7b' then do
    let s ← (← s.saveKey).enter
    (s.allow true).take 1 (if x = '[' then .sequenceOpen else .mappingOpen)
  else if x = ']' || x = '\x7d' then do
    let s := (← s.dropKey).leave
    (s.allow false).take 1 (if x = ']' then .sequenceClose else .mappingClose)
  else if x = ',' then do ((← s.dropKey).allow true).take 1 .flowEntry
  else if x = '-' && c.gapAt 1 then s.blockIndicator .blockSequence .blockEntry true
  else if x = '?' && (s.inFlow || c.gapAt 1) then
    s.blockIndicator .blockMapping .key (!s.inFlow)
  else if x = ':' && (s.inFlow || c.gapAt 1) then s.valueIndicator
  else if x = '*' then s.takeKey (do return .alias (← Scan.readName))
  else if x = '&' then s.takeKey (do return .anchor (← Scan.readName))
  else if x = '!' then s.takeKey (do
    let (handle, ending) ← Scan.readTag
    return .tag handle ending)
  else if (x = '|' || x = '>') && !s.inFlow then do
    let s := (← s.dropKey).allow true
    s.takeRead (do return .scalar (← Scan.readBlock s.indent) false)
  else if x = singleQuote || x = doubleQuote then
    s.takeKey (do return .scalar (← Scan.readQuoted) false)
  else if s.startsPlain then do
    let s := (← s.saveKey).allow false
    let ((text, spans), s') ← s.reading (Scan.readPlain (s.indent + 1) s.inFlow)
    return (s'.add ⟨.scalar text true, s.cursor.line⟩).allow spans
  else none

/-- Finds the token at the cursor. A comment may follow in the same line, except that one behind a
hyphen belongs to what comes next. -/
def tokenHere (s : Scanner) : Option Scanner :=
  let c := s.cursor
  match c.peek with
  | none => do
    let c := if c.column = 0 then c else { c with line := c.line + 1, column := 0 }
    let s ← ({ s with cursor := c } : Scanner).atStreamLevel
    return s.push .streamEnd
  | some x =>
    if c.column = 0 && x = '%' then do (← s.atStreamLevel).takeRead Scan.readDirective
    else if c.atIndicator "---" then do (← s.atStreamLevel).take 3 .documentStart
    else if c.atIndicator "..." then do (← s.atStreamLevel).take 3 .documentEnd
    else do
      let s ← s.contentToken x
      if s.queue.getLast?.any fun t => t.kind = .blockEntry then return s
      else s.move Scan.skipTrailingComment

/-- Finds the next token. -/
def step (s : Scanner) : Option Scanner := do
  let s ← toToken s.cursor.bound s
  let s ← (s.unindent s.cursor.column).move (Scan.need 4)
  s.tokenHere

/-- The possible key that starts with the next token, if the token is held back for it. -/
def heldKey? (s : Scanner) : Option KeyStart :=
  if s.held.contains s.taken then
    (s.key :: s.outerKeys).find? fun k => k.possible && k.number = s.taken
  else none

/-- Gives up a possible key of any bracket. -/
def release (s : Scanner) (number : Nat) : Scanner :=
  let freed (k : KeyStart) : KeyStart :=
    if k.number = number then { k with possible := false } else k
  { s with
    key := freed s.key
    outerKeys := s.outerKeys.map freed
    held := s.held.erase number }

/-- Finds tokens until the next one can be given away. -/
def settle : Nat → Scanner → Option Scanner
  | 0, _ => none
  | fuel + 1, s =>
    if s.queue.length < 3 then s.step.bind (settle fuel)
    else
      match s.heldKey? with
      | none => some s
      | some k =>
        if !s.isStale k then s.step.bind (settle fuel)
        else if k.required then none
        else some (s.release k.number)

/-- The next token, which stays. -/
def next? (s : Scanner) : Option (Token × Scanner) := do
  let s ← settle (s.cursor.bound + 8) s
  return (← s.queue.head?, s)

/-- Takes a token away. -/
def drop (s : Scanner) : Scanner := { s with queue := s.queue.drop 1, taken := s.taken + 1 }

end Scanner

end CubeSchema.Yaml
