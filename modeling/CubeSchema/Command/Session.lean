import CubeSchema.Command.Arguments
import CubeSchema.Config.Load
import CubeSchema.Console
import CubeSchema.Output

/-!
# Sessions

What a command works on: the file tree and the console, both of which it changes, and the host that
it runs on, which it only asks. A task is a piece of a command that may fail; what it has done up to
then stays done.
-/

namespace CubeSchema

/-- What a command has to know about where it runs. -/
structure Host where
  /-- The working directory. -/
  cwd : Text
  /-- The environment variables. -/
  env : List (Text × Text) := []
  /-- Whether the work has been called off. -/
  cancelled : Bool := false
  /-- The present moment. -/
  now : Int := 0
  /-- The name that the next run gets. -/
  runId : Text := []
  /-- What the tool was made with. -/
  toolchain : Text := []

/-- What a command changes. -/
structure Session where
  /-- The file tree. -/
  tree : FileTree
  /-- What has been written to the console. -/
  console : Console := {}

/-- A piece of a command. -/
abbrev Task := ExceptT Failure (StateM Session)

/-- A host with the configuration that counts there. -/
structure Context where
  /-- The host. -/
  host : Host
  /-- The configuration. -/
  config : Config

namespace Context

/-- The form of the results. -/
def mode (x : Context) : OutputMode := .ofName x.config.output

/-- What projects are compiled with. -/
def compileOptions (x : Context) : CompileOptions :=
  ⟨x.config.symbols, x.config.concurrency, x.host.cancelled⟩

end Context

namespace Task

/-- Goes on with a result or fails with an error. -/
def ofExcept {ε α : Type} (failure : ε → Failure) (r : Except ε α) : Task α :=
  match r with
  | .ok a => return a
  | .error e => throw (failure e)

/-- Writes to the console. -/
def write (f : Console → Console) : Task Unit := modify fun s => { s with console := f s.console }

/-- Reports records of a level that counts. -/
def log (x : Context) (records : List LogRecord) : Task Unit :=
  write fun c => { c with err := c.err ++ logLines x.config.level records }

/-- The schema files of given names, or those below the schema directory when there are none. -/
def loadFiles (x : Context) (names : List Text) : Task (List SchemaFile) := do
  let t := (← get).tree
  if names.isEmpty then
    match x.config.directoryFailure? t x.host.cwd with
    | some f => throw f
    | none =>
      let dir := x.config.schemaDir
      let files ← ofExcept SchemaFile.LoadError.failure (SchemaFile.loadDir t x.host.cwd dir)
      log x [.debug "loaded schema files" [("dir", .text dir), ("files", .number files.length)]]
      return files
  else ofExcept SchemaFile.LoadError.failure (SchemaFile.loadFiles t x.host.cwd names)

/-- Opens the state database, unless no state is kept. -/
def openStore (x : Context) : Task (Option Store) := do
  if x.config.noState then return none
  let s ← get
  let (r, t) := Store.open? s.tree x.host.cwd x.config.statePath
  set { s with tree := t }
  let store ← ofExcept (fun (e : StoreError) => e.failure.during "failed to open state database") r
  log x [.debug "opened state database" [("path", .text x.config.statePath)]]
  return some store

/-- Compiles the files of given names, or those below the schema directory. -/
def compile (x : Context) (names : List Text) : Task Compilation := do
  let files ← loadFiles x names
  let r := CubeSchema.compile (← get).tree x.host.cwd x.compileOptions files
  log x (Compilation.records files x.compileOptions r)
  ofExcept CompileError.failure r

end Task

end CubeSchema
