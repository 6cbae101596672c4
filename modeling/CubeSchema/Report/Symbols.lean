import CubeSchema.Grid
import CubeSchema.Symbols.Table

/-!
# Reports of symbols

The cubes and views of a symbol table, either with the number of their members or with the members
themselves, and the context symbols.
-/

namespace CubeSchema.SymbolTable

/-- What kind of declaration a cube is. -/
def kindTitle (c : Cube) : Text := if c.isView then lit "View" else lit "Cube"

/-- A cube as JSON. -/
def cubeJson (c : Cube) : Json :=
  .record [("name", .text c.name), ("kind", .text (kindTitle c)), ("file", .text c.file),
    ("members", .list (c.sortedMembers.map fun m =>
      .record [("name", .text m.1), ("type", .text m.2.label)]))]

/-- All symbols as JSON. -/
def json (t : SymbolTable) : Json :=
  .record [("cubes", .list (t.cubes.map cubeJson)), ("context", .texts t.contextSymbols)]

/-- The number of members of a type. -/
def countMembers (c : Cube) (type : MemberType) : Nat :=
  (c.members.filter fun m => m.2.label = type.label).length

/-- A table of cubes with the number of their members. -/
def cubeGrid (t : SymbolTable) : Grid :=
  { titles := ["Name", "Kind", "Measures", "Dimensions", "Segments", "Total", "File"]
    rows := t.cubes.map fun c =>
      [.text c.name, .text (kindTitle c), .number (countMembers c .measure),
        .number (countMembers c .dimension), .number (countMembers c .segment),
        .number c.members.length, .text c.file] }

/-- A table of all members. -/
def memberGrid (t : SymbolTable) : Grid :=
  { titles := ["Cube", "Member", "Type", "Reference"]
    rows := t.cubes.flatMap fun c => c.sortedMembers.map fun m =>
      [.text c.name, .text m.1, .text m.2.label, .text (c.name ++ lit "." ++ m.1)] }

/-- A table with the number of its rows below it. -/
def printCounted (g : Grid) (what : String) (c : Console) : Console :=
  (c.print g.print).print (lit "(" ++ Text.ofNat g.rows.length ++ lit " " ++ lit what ++ lit ")\n")

/-- The symbols as text. -/
def printSymbols (t : SymbolTable) (members : Bool) (c : Console) : Console :=
  let c :=
    if t.cubes.isEmpty then c.muted (lit "No cubes found")
    else if members then printCounted t.memberGrid "members" c
    else printCounted t.cubeGrid "declarations" c
  c.muted (lit "Context symbols: " ++ Text.join (lit ", ") t.contextSymbols)

/-- Shows the symbols. -/
def display (t : SymbolTable) (members : Bool) (mode : OutputMode) (c : Console) : Console :=
  match mode with
  | .json => c.json t.json
  | .text => t.printSymbols members c

end CubeSchema.SymbolTable
