import CubeSchema.Symbols.Collect

/-!
# References between cubes

After its properties have been deferred, a declaration refers to the cubes that its functions take
as parameters. A name may be declared several times, and one declaration may stand inside another:
all of them are listed in one record, to which every declaration adds what its name does not have
yet.
-/

namespace CubeSchema

/-- The parameters of all functions below a node, in pre-order. -/
def Node.parametersWithin (n : Node) : List Text :=
  (Cursor.root n).descendants.flatMap fun c => c.focus.paramNames

/-- The cubes that one declaration of `name` refers to. -/
def SymbolTable.targets (t : SymbolTable) (name : Text) (n : Node) : List Text :=
  n.parametersWithin.filter fun p => p ≠ name && t.resolvesCube p

/-- The declarations of a tree with their names, in source order. -/
def Node.declaring (n : Node) : List (Text × Node) :=
  (n.visits []).filterMap fun c => c.focus.declares?.map fun d => (d.1, c.focus)

/-- Puts texts behind a list, except for those that are in it already. -/
def Text.appendNew (seen ts : List Text) : List Text :=
  ts.foldl (fun seen t => if seen.contains t then seen else seen ++ [t]) seen

/-- The record with the list of one name replaced; a new name comes last. -/
def listUnder (name : Text) (ts : List Text) : List (Text × List Text) → List (Text × List Text)
  | [] => [(name, ts)]
  | r :: rest => if r.1 = name then (name, ts) :: rest else r :: listUnder name ts rest

/-- Adds what one declaration refers to, and sorts the list of its name. -/
def SymbolTable.listing (t : SymbolTable) (refs : List (Text × List Text)) (d : Text × Node) :
    List (Text × List Text) :=
  let seen := (refs.lookup d.1).getD []
  listUnder d.1 (Text.sort (Text.appendNew seen (t.targets d.1 d.2))) refs

/-- For every declared name the other cubes it refers to, sorted; the names in source order. -/
def SymbolTable.references (t : SymbolTable) (n : Node) : List (Text × List Text) :=
  n.declaring.foldl t.listing []

end CubeSchema
