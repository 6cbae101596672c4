import CubeSchema.Graph
import CubeSchema.Grid

/-!
# Reports of references

The references of all cubes, every cube behind those that it uses, or everything that one cube
depends on and that depends on it.
-/

namespace CubeSchema.Graph

/-- Names with commas between them, or a dash where there is none. -/
def nameList (names : List Text) : Text :=
  if names.isEmpty then lit "-" else Text.join (lit ", ") names

/-- The file that declares a cube. -/
def fileOf (g : Graph) (id : Text) : Text := ((g.vertex? id).map Vertex.file).getD []

/-- All references as JSON. -/
def json (g : Graph) : Json :=
  .list (g.order.map fun id =>
    .record [("name", .text id), ("file", .text (g.fileOf id)), ("uses", .texts (g.usesOf id)),
      ("used_by", .texts (g.usersOf id))])

/-- A table of all references. -/
def grid (g : Graph) : Grid :=
  { titles := ["Cube", "Uses", "Used By", "File"]
    rows := g.order.map fun id =>
      [.text id, .text (nameList (g.usesOf id)), .text (nameList (g.usersOf id)),
        .text (g.fileOf id)] }

/-- All references as text. -/
def printReferences (g : Graph) (c : Console) : Console :=
  if g.order.isEmpty then c.muted (lit "No cubes found")
  else
    (c.print g.grid.print).print (lit "(" ++ Text.ofNat g.vertexCount ++ lit " cubes, " ++
      Text.ofNat g.edgeCount ++ lit " references)\n")

/-- Shows all references. -/
def display (g : Graph) (mode : OutputMode) (c : Console) : Console :=
  match mode with
  | .json => c.json g.json
  | .text => g.printReferences c

/-- The dependencies of one cube as JSON. -/
def cubeJson (g : Graph) (id : Text) : Json :=
  .record [("name", .text id), ("upstream", .texts (g.dependencies id)),
    ("downstream", .texts (g.affected [id]))]

/-- The dependencies of one cube as text. -/
def printCube (g : Graph) (id : Text) (c : Console) : Console :=
  let c := c.header 1 id
  let c := c.keyValue (lit "Uses") (nameList (g.usesOf id))
  let c := c.keyValue (lit "Used by") (nameList (g.usersOf id))
  let c := c.keyValue (lit "Upstream") (nameList (g.dependencies id))
  c.keyValue (lit "Downstream") (nameList (g.affected [id]))

/-- Shows the dependencies of one cube. -/
def showCube (g : Graph) (id : Text) (mode : OutputMode) (c : Console) : Console :=
  match mode with
  | .json => c.json (g.cubeJson id)
  | .text => g.printCube id c

end CubeSchema.Graph
