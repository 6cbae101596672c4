import CubeSchema.Command.Session
import CubeSchema.Report.Build

/-!
# Compiling a project

The command that builds the project and says what it did. With `--watch` it goes on until it is
called off; what fails in a single build does not end it then, but a directory that cannot be
watched does.
-/

namespace CubeSchema

/-- How the command was asked to work. -/
structure TranspileOptions where
  /-- Whether the outputs are shown instead of written. -/
  stdout : Bool := false
  /-- Whether to go on until the work is called off. -/
  watch : Bool := false
  deriving DecidableEq, Repr

namespace TranspileOptions

/-- The options that flags ask for. -/
def ofArguments (a : Arguments) : TranspileOptions := ⟨a.bool "stdout", a.bool "watch"⟩

end TranspileOptions

namespace Task

/-- What a build is asked for. -/
def buildOptions (x : Context) (o : TranspileOptions) : BuildOptions :=
  ⟨x.compileOptions, x.config.outDir, o.stdout⟩

/-- The course of a build whose outputs are shown in the form of the results. Where text goes is
not looked at, so only what is shown to programs can fail. -/
def shownCourse (x : Context) (course : Course) : Course :=
  if x.mode = .json then course else { course with unshown := none }

/-- Builds once and reports what came of it. -/
def transpileOnce (x : Context) (names : List Text) (o : TranspileOptions)
    (course : Course := .plain x.host.cwd x.host.cancelled) : Task Unit := do
  let files ← loadFiles x names
  let store ← openStore x
  let s ← get
  let options := buildOptions x o
  let (r, w) := build ⟨s.tree, store⟩ x.host.cwd options files x.host.runId x.host.now
    (shownCourse x course)
  set { s with tree := w.tree }
  let b ← ofExcept StoreError.failure r
  log x (b.records options files)
  match b.emission.result with
  | .error e => throw e.failure
  | .ok p =>
    match b.emission.report.failure with
    | some f => throw f
    | none =>
      write (if o.stdout then p.showOutputs x.mode
        else (BuildReport.of b p x.config.outDir).display x.mode)

/-- The directories that are watched: the schema directory, or those of the given files. -/
def watchedDirs (x : Context) (names : List Text) : List Text :=
  if names.isEmpty then [x.config.schemaDir] else Text.distinct (names.map Path.dir)

/-- Looks at the directories that are to be watched. -/
def watchDirs (x : Context) (dirs : List Text) : Task Unit := do
  let t := (← get).tree
  dirs.forM fun dir =>
    match t.stat x.host.cwd dir with
    | .ok _ => return ()
    | .error e =>
      let e := { e with action := "lstat" }
      throw { e.failure with message := lit "failed to watch " ++ dir ++ lit ": " ++ e.message }

/-- Looks at the directories of the manifests; one that is not there is only reported. -/
def watchManifests (x : Context) : Task Unit := do
  let t := (← get).tree
  log x (x.config.symbols.filterMap fun m =>
    match t.stat x.host.cwd (Path.dir m) with
    | .ok _ => none
    | .error e =>
      some (.warn "failed to watch manifest" [("path", .text m), ("error", .text e.fault.message)]))

/-- Builds once and shows a failure, unless it is that the work was called off. -/
def transpileReporting (x : Context) (names : List Text) (o : TranspileOptions) : Task Unit :=
  tryCatch (transpileOnce x names o) fun f =>
    if f.kind = .cancelled then return () else write fun c => c.error f.message

/-- Builds, and goes on watching until the work is called off. -/
def transpileWatching (x : Context) (names : List Text) (o : TranspileOptions) : Task Unit := do
  transpileReporting x names o
  write fun c => c.muted (lit "Watching for changes. Press Ctrl+C to stop.")
  watchDirs x (watchedDirs x names)
  watchManifests x

/-- The command. -/
def transpile (x : Context) (a : Arguments) : Task Unit :=
  let o := TranspileOptions.ofArguments a
  if o.watch then transpileWatching x a.args o else transpileOnce x a.args o

end Task

end CubeSchema
