import CubeSchema.FileTree
import CubeSchema.Symbols.Table
import CubeSchema.Yaml.Decode

/-!
# Symbol manifests

A manifest declares cubes, views and context symbols that no schema file declares: those of another
project, or names that the runtime provides. It is a YAML document with the lists `cubes`, `views`
and `context` and no other keys. Every entry has a name, and no name is given twice.
-/

namespace CubeSchema

/-- A cube or view of a manifest, with the names of its members by type. -/
structure ManifestEntry where
  /-- The name of the cube or view. -/
  name : Text
  /-- The members of every type, as they are listed. -/
  members : List (MemberType × List Text)
  deriving DecidableEq, Repr

/-- What a manifest declares. -/
structure Manifest where
  /-- The cubes. -/
  cubes : List ManifestEntry := []
  /-- The views. -/
  views : List ManifestEntry := []
  /-- The context symbols. -/
  context : List Text := []
  deriving DecidableEq, Repr

/-- Why a text is no manifest. -/
inductive ManifestError where
  /-- It is no document of the right shape. -/
  | document (e : Yaml.DecodeError)
  /-- An entry has no name. -/
  | unnamed (position : Nat)
  /-- Two entries have the same name. -/
  | duplicate (name : Text)
  /-- A context symbol has no name. -/
  | emptySymbol
  deriving Repr

/-- The wording of an error. -/
def ManifestError.message (e : ManifestError) : Text :=
  lit "invalid symbol manifest: " ++ match e with
    | document e => e.message
    | unnamed i => lit "entry " ++ Text.ofNat i ++ lit " has no name"
    | duplicate name => Text.quoted name ++ lit " declared twice"
    | emptySymbol => lit "empty context symbol"

/-- The failure that an error is. Keys that cannot be compared are not foreseen in a manifest. -/
def ManifestError.failure : ManifestError → Failure
  | document .incomparable => .breakdown
  | e => ⟨.invalidManifest, e.message⟩

namespace Manifest

/-- The keys of the lists of members, with the types that they give. -/
def memberKeys : List (Text × MemberType) :=
  [(lit "measures", .measure), (lit "dimensions", .dimension), (lit "segments", .segment),
    (lit "pre_aggregations", .preAggregation), (lit "hierarchies", .hierarchy)]

/-- The shape of an entry. -/
def entryShape : Yaml.Shape :=
  .record "symbols.ManifestCube"
    ((lit "name", .text) :: memberKeys.map fun k => (k.1, .list .text))

/-- The shape of a manifest. -/
def shape : Yaml.Shape :=
  .record "symbols.Manifest"
    [(lit "cubes", .list entryShape), (lit "views", .list entryShape), (lit "context", .list .text)]

/-- The texts of a list under a key. -/
def textsAt (v : Yaml.Value) (key : Text) : List Text :=
  ((v.field? key).map Yaml.Value.texts).getD []

/-- The entry that a value describes. -/
def entryOf (v : Yaml.Value) : ManifestEntry :=
  let name := match v.field? (lit "name") with
    | some (.scalar (.text t)) => t
    | _ => []
  ⟨name, memberKeys.map fun k => (k.2, textsAt v k.1)⟩

/-- The entries of a list under a key. -/
def entriesAt (v : Yaml.Value) (key : Text) : List ManifestEntry :=
  match v.field? key with
  | some (.list items) => items.map entryOf
  | _ => []

/-- The manifest that a value describes. -/
def ofValue (v : Yaml.Value) : Manifest :=
  ⟨entriesAt v (lit "cubes"), entriesAt v (lit "views"), textsAt v (lit "context")⟩

/-- Goes through the entries of a list from a position on; gives the names of all entries so far. -/
def checkEntries (seen : List Text) : Nat → List ManifestEntry → Except ManifestError (List Text)
  | _, [] => .ok seen
  | i, e :: rest =>
    if e.name.isEmpty then .error (.unnamed i)
    else if seen.contains e.name then .error (.duplicate e.name)
    else checkEntries (e.name :: seen) (i + 1) rest

/-- Checks that all is named and no name is given twice. -/
def check (m : Manifest) : Except ManifestError Unit := do
  let seen ← checkEntries [] 0 m.cubes
  let _ ← checkEntries seen 0 m.views
  if m.context.any List.isEmpty then .error .emptySymbol else .ok ()

/-- Reads a manifest. -/
def parse (t : Text) : Except ManifestError Manifest :=
  match Yaml.read shape t with
  | .error e => .error (.document e)
  | .ok v =>
    let m := ofValue v
    match m.check with
    | .ok () => .ok m
    | .error e => .error e

end Manifest

/-- Why a manifest file cannot be used. -/
inductive ManifestFileError where
  /-- It cannot be opened. -/
  | unreadable (e : FileError)
  /-- It holds no manifest. -/
  | invalid (path : Text) (e : ManifestError)
  deriving Repr

/-- The failure that an error is. -/
def ManifestFileError.failure : ManifestFileError → Failure
  | unreadable e => e.failure.during "failed to open manifest"
  | invalid path e => e.failure.about path

/-- Reads the manifest in a file. A directory can be opened, but holds no document. -/
def Manifest.load (t : FileTree) (cwd path : Text) : Except ManifestFileError Manifest :=
  match t.openFile cwd path with
  | .error e => .error (.unreadable e)
  | .ok .directory => .error (.invalid path (.document .malformed))
  | .ok e => (Manifest.parse e.content).mapError (.invalid path)

/-- The cube or view that an entry declares. -/
def ManifestEntry.cube (e : ManifestEntry) (source : Text) (isView : Bool) : Cube :=
  Cube.addMembers ⟨e.name, isView, source, true, []⟩
    (e.members.flatMap fun g => g.2.map fun name => (name, g.1))

/-- Registers what a manifest declares. -/
def SymbolTable.apply (t : SymbolTable) (m : Manifest) (source : Text) : SymbolTable :=
  let t := m.cubes.foldl (fun t e => t.register (e.cube source false)) t
  let t := m.views.foldl (fun t e => t.register (e.cube source true)) t
  m.context.foldl SymbolTable.addContext t

end CubeSchema
