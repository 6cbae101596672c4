import CubeSchema.Text.Utf8

/-!
# Positions in a source

A position names a file, a line, a column and a byte offset. Lines end at line feeds only, and
columns count glyphs, so a stray byte is one column.
-/

namespace CubeSchema

/-- A place in a source file. Line and column count from one; line zero means that the place is not
known. -/
structure Position where
  /-- The file, empty when the text came from no file. -/
  file : Text := []
  /-- The line, counted from one. -/
  line : Int := 0
  /-- The column in glyphs, counted from one. -/
  column : Int := 0
  /-- The number of bytes before the place. -/
  offset : Int := 0
  deriving DecidableEq, Repr

namespace Position

/-- The place that is not known. -/
def unknown : Position := {}

/-- The first place of a file. -/
def start (file : Text) : Position := { file, line := 1, column := 1, offset := 0 }

/-- A position is valid when its line is known. -/
def isValid (p : Position) : Bool := 0 < p.line

/-- The place behind the text `t` that starts at `p`. -/
def advance (p : Position) (t : Text) : Position :=
  let lastLine : Text := (t.reverse.takeWhile (· ≠ Text.newline)).reverse
  let breaks := t.count Text.newline
  { p with
    line := p.line + breaks
    column := (if breaks = 0 then p.column else 1) + lastLine.glyphCount
    offset := p.offset + t.length }

/-- Writes `file:line:column` without the parts that are not known. -/
def display (p : Position) : Text :=
  let place := Text.ofInt p.line ++ lit ":" ++ Text.ofInt p.column
  match p.isValid, p.file.isEmpty with
  | false, true => lit "-"
  | false, false => p.file
  | true, true => place
  | true, false => p.file ++ lit ":" ++ place

end Position

end CubeSchema
