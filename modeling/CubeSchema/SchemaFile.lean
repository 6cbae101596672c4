import CubeSchema.Disk

/-!
# Schema files

The files that are compiled: either all schema files below a directory, or files given by name.
Below a directory, hidden directories and those of installed packages do not count.
-/

namespace CubeSchema

/-- A schema file: the name that its output gets, and its text. -/
structure SchemaFile where
  /-- The name, from the directory it was found in. -/
  path : Text
  /-- The text. -/
  source : Text
  deriving DecidableEq, Repr

namespace SchemaFile

/-- The ending of the names of schema files. -/
def ending : Text := lit ".js"

/-- Whether a directory below the one that is loaded is left out. -/
def skipsDirectory (name : Text) : Bool :=
  Text.startsWith name (lit ".") || name = lit "node_modules"

/-- Whether an item is a schema file, where `way` leads to it from the directory that is loaded:
nothing below a directory that is left out is one. -/
def selects (way : List Text) (item : Item) : Bool :=
  item ≠ .directory && !way.dropLast.any skipsDirectory &&
    way.getLast?.any (Text.endsWith · ending)

/-- The ways from a place to the schema files below it, in the order in which a walk through the
directories meets them. -/
def waysBelow (d : Disk) (place : Place) : List (List Text) :=
  (d.items.filterMap fun x =>
    if place.isPrefixOf x.1 && selects (x.1.drop place.length) x.2 then
      some (x.1.drop place.length)
    else none).mergeSort fun a b => decide (a ≤ b)

/-- Why schema files cannot be loaded. -/
inductive LoadError where
  /-- The directory cannot be found. -/
  | directory (e : FileError)
  /-- A file cannot be read. -/
  | file (e : FileError)
  deriving DecidableEq, Repr

/-- The failure that an error is. -/
def LoadError.failure : LoadError → Failure
  | directory e => e.failure.during "schema directory"
  | file e => e.failure.during "failed to read schema file"

/-- Reads the schema file that a way leads to from a directory, by the name that it has then. -/
def load (d : Disk) (cwd dir : Text) (way : List Text) : Except LoadError SchemaFile :=
  match d.read cwd (Path.join [dir, Text.join [Path.slash] way]) with
  | .error e => .error (.file e)
  | .ok source => .ok ⟨Text.join [Path.slash] way, source⟩

/-- The schema files below a directory, sorted by name. The name of the directory is followed to see
that something stands there, but what is loaded is what stands there itself: below a link there is
nothing. A name that is itself that of a schema file gives that file under the name of the
directory. -/
def loadDir (d : Disk) (cwd dir : Text) : Except LoadError (List SchemaFile) :=
  match d.follow true cwd dir with
  | .error f => .error (.directory ⟨"stat", dir, f⟩)
  | .ok _ =>
    match d.follow false cwd dir with
    | .ok (place, .plain .directory) =>
      ((waysBelow d place).mapM (load d cwd dir)).map fun files =>
        files.mergeSort fun a b => decide (a.path ≤ b.path)
    | _ =>
      if Text.endsWith (Path.base dir) ending then
        match d.read cwd dir with
        | .error e => .error (.file e)
        | .ok source => .ok [⟨Path.here, source⟩]
      else .ok []

/-- The schema files of given names, in order. -/
def loadFiles (t : FileTree) (cwd : Text) (paths : List Text) :
    Except LoadError (List SchemaFile) :=
  paths.mapM fun p =>
    match t.read cwd p with
    | .error e => .error (.file e)
    | .ok source => .ok ⟨Path.clean p, source⟩

end SchemaFile

end CubeSchema
