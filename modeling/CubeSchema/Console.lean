import CubeSchema.Json
import CubeSchema.Text.Width

/-!
# The console

What a command writes: one stream of results and one of messages. Text that is set off on a terminal
comes out plain here, but it is laid out all the same: tabs become spaces, and of several lines the
shorter ones are filled up, so that the block is a rectangle.
-/

namespace CubeSchema

/-- The form of the results. -/
inductive OutputMode where
  /-- Text for people. -/
  | text
  /-- JSON for programs. -/
  | json
  deriving DecidableEq, Repr

/-- The mode of a name; a name that is not known means text. -/
def OutputMode.ofName (name : Text) : OutputMode := if name = lit "json" then .json else .text

/-- The name of a mode. -/
def OutputMode.name : OutputMode → Text
  | text => lit "text"
  | json => lit "json"

namespace Text

/-- Writes four spaces for every tab. -/
def expandTabs (t : Text) : Text := t.flatMap fun b => if b = 9 then spaces 4 else [b]

/-- Leaves out the carriage return of every line end that has one. -/
def unixLines : Text → Text
  | 13 :: 10 :: rest => 10 :: unixLines rest
  | b :: rest => b :: unixLines rest
  | [] => []

/-- Fills a line up to a width. -/
def fill (width : Nat) (line : Text) : Text := line ++ spaces (width - lineWidth line)

/-- A text laid out as a block. -/
def block (t : Text) : Text :=
  let t := unixLines (expandTabs t)
  match splitOn newline t with
  | [line] => line
  | lines => join [newline] (lines.map (fill (displayWidth t)))

/-- A text followed by as many spaces as it takes to have at least `n` code points. -/
def padTo (n : Nat) (t : Text) : Text := t ++ spaces (n - t.glyphCount)

end Text

/-- What has been written so far. -/
structure Console where
  /-- The results. -/
  out : Text := []
  /-- The messages. -/
  err : Text := []
  deriving DecidableEq, Repr

namespace Console

/-- Writes to the results. -/
def print (c : Console) (t : Text) : Console := { c with out := c.out ++ t }

/-- Writes a line to the results. -/
def printLine (c : Console) (t : Text) : Console := c.print (t ++ [Text.newline])

/-- Writes a line to the messages. -/
def messageLine (c : Console) (t : Text) : Console := { c with err := c.err ++ t ++ [Text.newline] }

/-- Writes a header; those of the first level are underlined. -/
def header (c : Console) (level : Int) (t : Text) : Console :=
  let c := c.printLine t.block
  if level ≤ 1 then c.printLine (Text.replicate (Text.displayWidth t) (lit "─")) else c

/-- Writes a value with its name. -/
def keyValue (c : Console) (key value : Text) : Console :=
  c.printLine (lit "  " ++ (Text.padTo 14 (key ++ lit ":")).block ++ lit " " ++ value)

/-- Writes what was achieved. -/
def success (c : Console) (t : Text) : Console := c.printLine (Text.block (lit "✓ " ++ t))

/-- Writes what may be wrong. -/
def warning (c : Console) (t : Text) : Console := c.messageLine (Text.block (lit "! " ++ t))

/-- Writes what went wrong. -/
def error (c : Console) (t : Text) : Console := c.messageLine (Text.block (lit "✗ " ++ t))

/-- Writes something of less importance. -/
def muted (c : Console) (t : Text) : Console := c.printLine t.block

/-- Writes a JSON value. -/
def json (c : Console) (j : Json) : Console := c.print j.print

end Console

end CubeSchema
