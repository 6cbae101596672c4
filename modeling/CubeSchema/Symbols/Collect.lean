import CubeSchema.Symbols.Table
import CubeSchema.Tree.Cursor

/-!
# Collecting declarations

The cubes and views that a source declares: the calls of `cube` and `view` with a static name as
first and an object as last argument. Their members are the keys of their member blocks.
-/

namespace CubeSchema

/-- The member type that a block of a declaration declares. -/
def memberBlock? (key : Text) : Option MemberType :=
  if key = lit "measures" then some .measure
  else if key = lit "dimensions" then some .dimension
  else if key = lit "segments" then some .segment
  else if key = lit "preAggregations" then some .preAggregation
  else if key = lit "hierarchies" then some .hierarchy
  else none

namespace Node

/-- A name that is known before evaluation: a string, or a template without interpolations. All
other expressions have the empty name. -/
def staticName : Node → Text
  | stringLiteral _ value _ => value
  | templateLiteral _ [quasi] [] => quasi.cooked
  | _ => []

/-- The name that a property key gives to a member: that of a plain or a quoted key. -/
def memberName? : Node → Option Text
  | property _ (identifier _ name) _ false _ => some name
  | property _ (stringLiteral _ value _) _ false _ => some value
  | _ => none

/-- The members that one property of a declaration body declares. -/
def blockMembers : Node → List (Text × MemberType)
  | property pos key (object opos members) computed shorthand =>
    match (memberName? (property pos key (object opos members) computed shorthand)).bind
        memberBlock? with
    | some type => members.filterMap fun m => (memberName? m).map fun name => (name, type)
    | none => []
  | _ => []

/-- The name with which a call of `cube` or `view` with at least two arguments declares something.
-/
def declares? : Node → Option (Text × Bool)
  | call (identifier _ callee) (first :: _ :: _) _ =>
    if (callee = lit "cube" || callee = lit "view") && !first.staticName.isEmpty then
      some (first.staticName, callee = lit "view")
    else none
  | _ => none

/-- The last argument of a call. -/
def lastArg? : Node → Option Node
  | call _ args _ => args.getLast?
  | _ => none

/-- The cube or view that a node declares in a file. -/
def declaration? (file : Text) (n : Node) : Option Cube :=
  match n.declares?, n.lastArg? with
  | some (name, isView), some (object _ members) =>
    some (Cube.addMembers { name, isView, file } (members.flatMap blockMembers))
  | _, _ => none

/-- The cubes and views that a tree declares, in source order. -/
def declarations (file : Text) (n : Node) : List Cube :=
  (n.visits []).filterMap fun c => c.focus.declaration? file

end Node

/-- A declaration as it was collected. -/
structure Declared where
  /-- The cube as it is written. -/
  cube : Cube
  /-- Whether it made the entry of its name, into which later declarations are merged. -/
  founded : Bool
  deriving DecidableEq, Repr

/-- The cube that a collected declaration stands for in a table: its entry, or the cube itself when
it was merged into an older one. -/
def Declared.shown (d : Declared) (t : SymbolTable) : Cube :=
  if d.founded then (t.cube? d.cube.name).getD d.cube else d.cube

/-- Registers cubes in order and tells which of them made an entry. -/
def SymbolTable.registerAll : SymbolTable → List Cube → SymbolTable × List Declared
  | t, [] => (t, [])
  | t, c :: rest =>
    let (t', more) := (t.register c).registerAll rest
    (t', { cube := c, founded := t.founds c } :: more)

/-- Registers what a source declares. -/
def SymbolTable.collect (t : SymbolTable) (file : Text) (n : Node) : SymbolTable × List Declared :=
  t.registerAll (n.declarations file)

end CubeSchema
