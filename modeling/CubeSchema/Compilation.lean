import CubeSchema.Deferral
import CubeSchema.Graph
import CubeSchema.Log
import CubeSchema.SchemaFile
import CubeSchema.Symbols.Collect
import CubeSchema.Symbols.Manifest
import CubeSchema.Symbols.References
import CubeSchema.Tree.Build
import CubeSchema.Tree.Print

/-!
# Compiling a project

All files are parsed, the symbols of the manifests and of all files are collected, and then every
tree is transformed and printed. The table is complete before the first tree is transformed, so the
answer for a file does not depend on its place among the files.
-/

namespace CubeSchema

/-- What becomes of one schema file. -/
structure CompiledFile where
  /-- The name of the file. -/
  path : Text
  /-- The text with its properties deferred. -/
  source : Text
  /-- The declarations found in the file, in order. -/
  declared : List Declared
  /-- For every declared cube, the other cubes that its properties take. -/
  references : List (Text × List Text)
  /-- The properties that were deferred, in order. -/
  deferred : List DeferredField

/-- A compiled project. -/
structure Compilation where
  /-- The manifests with their names. -/
  manifests : List (Text × Manifest)
  /-- The files in the order they were given. -/
  outputs : List CompiledFile
  /-- All symbols. -/
  table : SymbolTable
  /-- The references between all cubes. -/
  graph : Graph

/-- Why a project does not compile. -/
inductive CompileError where
  /-- The work was called off. -/
  | cancelled
  /-- Some files are not well formed. -/
  | parse (errors : List ParseError)
  /-- A manifest cannot be used; those before it could. -/
  | manifest (before : List (Text × Manifest)) (e : ManifestFileError)

/-- The failure that an error is. -/
def CompileError.failure : CompileError → Failure
  | cancelled => .cancelled
  | parse errors => ⟨.parse, Text.join (lit "\n") (errors.map ParseError.text)⟩
  | manifest _ e => e.failure.during "failed to load symbol manifest"

namespace Compilation

/-- Parses all files; the errors of all that are not well formed are given together. -/
def parseAll (files : List SchemaFile) : Except (List ParseError) (List Node) :=
  let results := files.map fun f => CubeSchema.parse f.path f.source (some Grammar.maxRounds)
  let errors := results.filterMap fun
    | .error e => some e
    | .ok _ => none
  if errors.isEmpty then
    .ok (results.filterMap fun
      | .error _ => none
      | .ok n => some n)
  else .error errors

/-- Loads manifests until one cannot be used. -/
def loadManifests (t : FileTree) (cwd : Text) : List Text →
    List (Text × Manifest) × Option ManifestFileError
  | [] => ([], none)
  | path :: rest =>
    match Manifest.load t cwd path with
    | .error e => ([], some e)
    | .ok m =>
      let (ms, e) := loadManifests t cwd rest
      ((path, m) :: ms, e)

/-- Collects the symbols of all files, in order. -/
def collectAll : SymbolTable → List (SchemaFile × Node) → SymbolTable × List (List Declared)
  | t, [] => (t, [])
  | t, (f, n) :: rest =>
    let (t, found) := t.collect f.path n
    let (t, founds) := collectAll t rest
    (t, found :: founds)

/-- Transforms and prints one tree by the complete table. -/
def compileFile (t : SymbolTable) (f : SchemaFile) (n : Node) (declared : List Declared) :
    CompiledFile :=
  let done := Deferral.run t.resolvers n
  ⟨f.path, done.val.print, declared, t.references done.val, done.log⟩

/-- The graph of all known cubes with the references found in the files. -/
def graphOf (t : SymbolTable) (outputs : List CompiledFile) : Graph :=
  let g := t.cubes.foldl (fun g c => g.addVertex c.name c.file) ({} : Graph)
  outputs.foldl (fun g o =>
    o.references.foldl (fun g r => r.2.foldl (fun g target => g.connect r.1 target) g) g) g

/-- Compiles parsed files against manifests. -/
def link (manifests : List (Text × Manifest)) (files : List (SchemaFile × Node)) : Compilation :=
  let known := manifests.foldl (fun t m => t.apply m.2 m.1) ({} : SymbolTable)
  let (table, declared) := collectAll known files
  let outputs := (files.zip declared).map fun x => compileFile table x.1.1 x.1.2 x.2
  ⟨manifests, outputs, table, graphOf table outputs⟩

/-- The number of declarations in all files. -/
def declarationCount (c : Compilation) : Nat :=
  c.outputs.foldl (fun n o => n + o.declared.length) 0

/-- The counts of a compilation in words. -/
def summary (c : Compilation) : Text :=
  lit "Files: " ++ Text.ofNat c.outputs.length ++ lit " | Declarations: " ++
    Text.ofNat c.declarationCount

end Compilation

/-- What a project is compiled with. -/
structure CompileOptions where
  /-- The names of the manifests. -/
  manifests : List Text := []
  /-- How many files may be worked on at a time. -/
  concurrency : Int := 4
  /-- Whether the work has been called off. -/
  cancelled : Bool := false

/-- The number of files worked on at a time when none is given. -/
def CompileOptions.defaultConcurrency : Int := 4

/-- The number of files worked on at a time. -/
def CompileOptions.workers (o : CompileOptions) : Int :=
  if o.concurrency ≤ 0 then defaultConcurrency else o.concurrency

/-- Compiles a project. Work that has been called off fails as soon as there is a file to work on.
-/
def compile (t : FileTree) (cwd : Text) (o : CompileOptions) (files : List SchemaFile) :
    Except CompileError Compilation :=
  if o.cancelled && !files.isEmpty then .error .cancelled
  else
    match Compilation.parseAll files with
    | .error errors => .error (.parse errors)
    | .ok nodes =>
      match Compilation.loadManifests t cwd o.manifests with
      | (before, some e) => .error (.manifest before e)
      | (manifests, none) => .ok (Compilation.link manifests (files.zip nodes))

namespace Compilation

/-- The record of a manifest. -/
def manifestRecord (m : Text × Manifest) : LogRecord :=
  .debug "applied symbol manifest"
    [("path", .text m.1), ("cubes", .number m.2.cubes.length), ("views", .number m.2.views.length)]

/-- The record of the declarations in a file. -/
def collectedRecord (o : CompiledFile) : LogRecord :=
  .debug "collected symbols"
    [("path", .text o.path), ("declarations", .number o.declared.length)]

/-- The record of a deferred property. -/
def deferredRecord (f : DeferredField) : LogRecord :=
  .debug "deferred property"
    [("key", .text f.key), ("cube", .text f.cube), ("params", .names f.params),
      ("pos", .text f.pos.display)]

/-- The records of a compilation. -/
def records (files : List SchemaFile) (o : CompileOptions) (r : Except CompileError Compilation) :
    List LogRecord :=
  .info "starting compilation"
    [("files", .number files.length), ("concurrency", .number o.workers)] ::
  match r with
  | .error .cancelled => []
  | .error (.parse errors) =>
    errors.map fun e => .debug "parse error" [("path", .text e.pos.file), ("error", .text e.text)]
  | .error (.manifest before _) => before.map manifestRecord
  | .ok c =>
    c.manifests.map manifestRecord ++ c.outputs.map collectedRecord ++
      c.outputs.flatMap (fun o => o.deferred.map deferredRecord) ++
      [.info "compilation completed"
        [("files", .number c.outputs.length), ("cubes", .number c.table.cubes.length),
          ("references", .number c.graph.edgeCount), ("duration_ms", .number 0)]]

end Compilation

end CubeSchema
