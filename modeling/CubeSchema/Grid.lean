import CubeSchema.Console

/-!
# Grids

Tables in frames. Every column is as wide as its widest line; a column of numbers is set to the
right and all others to the left. A cell may have several lines, and a row is as high as its highest
cell.
-/

namespace CubeSchema

/-- What stands in a cell. -/
inductive Cell where
  /-- A text. -/
  | text (t : Text)
  /-- A number. -/
  | number (n : Int)
  deriving DecidableEq, Repr

/-- Whether a cell holds a number. -/
def Cell.isNumber : Cell → Bool
  | text _ => false
  | number _ => true

/-- The text of a cell: tabs are spaces, and there are no carriage returns. -/
def Cell.content : Cell → Text
  | text t => (Text.expandTabs t).filter (· ≠ 13)
  | number n => Text.ofInt n

/-- The lines of a cell. -/
def Cell.lines (c : Cell) : List Text := Text.splitOn Text.newline c.content

/-- A table: the titles of its columns, and its rows with one cell per column. -/
structure Grid where
  /-- The titles. -/
  titles : List String
  /-- The rows. -/
  rows : List (List Cell)
  deriving Repr

namespace Grid

/-- The header: the titles in capitals. -/
def header (g : Grid) : List Cell := g.titles.map fun t => .text (Text.upper (lit t))

/-- The cells of a column. -/
def column (rows : List (List Cell)) (i : Nat) : List Cell := rows.filterMap fun r => r[i]?

/-- How a column is set. -/
structure ColumnLayout where
  /-- The width of its widest line. -/
  width : Nat
  /-- Whether it is set to the right. -/
  right : Bool
  deriving DecidableEq, Repr

/-- The layout of every column. -/
def layout (g : Grid) : List ColumnLayout :=
  (List.range g.titles.length).map fun i =>
    let lines := (column (g.header :: g.rows) i).flatMap Cell.lines
    { width := (lines.map Text.cellWidth).foldl max 0
      right := (column g.rows i).all Cell.isNumber }

/-- Breaks a line of code points where `width` of them stand; a line is broken `fuel` times at
most. -/
def breakLine (width : Nat) : Nat → List Nat → List (List Nat)
  | 0, vs => [vs]
  | fuel + 1, vs =>
    if vs.length ≤ width then [vs] else vs.take width :: breakLine width fuel (vs.drop width)

/-- The lines of a cell as they fit into its column. -/
def fitted (l : ColumnLayout) (c : Cell) : List Text :=
  c.lines.flatMap fun line =>
    (breakLine l.width line.length line.codePoints).map Text.ofCodePoints

/-- A line of a cell with the space that its column has for it. -/
def set (l : ColumnLayout) (line : Text) : Text :=
  let space := Text.spaces (l.width - Text.cellWidth line)
  lit " " ++ (if l.right then space ++ line else line ++ space) ++ lit " "

/-- The lines of a row. -/
def rowLines (ls : List ColumnLayout) (row : List Cell) : Text :=
  let cells := (ls.zip row).map fun x => (x.1, fitted x.1 x.2)
  let height := (cells.map fun x => x.2.length).foldl max 1
  (List.range height).flatMap fun i =>
    lit "│" ++ Text.join (lit "│") (cells.map fun x => set x.1 ((x.2[i]?).getD [])) ++ lit "│\n"

/-- A line of the frame. -/
def rule (ls : List ColumnLayout) (left middle right : String) : Text :=
  lit left ++ Text.join (lit middle) (ls.map fun l => Text.replicate (l.width + 2) (lit "─")) ++
    lit right ++ lit "\n"

/-- The lines of a table. -/
def print (g : Grid) : Text :=
  let ls := g.layout
  rule ls "┌" "┬" "┐" ++ rowLines ls g.header ++
    (if g.rows.isEmpty then [] else rule ls "├" "┼" "┤" ++ g.rows.flatMap (rowLines ls)) ++
    rule ls "└" "┴" "┘"

end Grid

end CubeSchema
