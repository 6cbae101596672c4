import CubeSchema.Output

/-!
# Builds

A build compiles schema files and writes the outputs. Where a store is at hand it is one run of the
history: the run is started before anything is compiled, and whatever fails then, its outcome is
recorded at the end; only where the work breaks down nothing is done any more. A build whose outputs
are only shown writes nothing.
-/

namespace CubeSchema

/-- What a build is asked for. -/
structure BuildOptions where
  /-- What the project is compiled with. -/
  compile : CompileOptions
  /-- The directory of the outputs. -/
  outDir : Text
  /-- Whether the outputs are only shown. -/
  showOnly : Bool := false

/-- What a build meets on its way. The work may be called off at any time, and writing and showing
may fail for reasons of their own. -/
structure Course where
  /-- Whether the work has been called off when the files are compiled. -/
  cancelled : Bool
  /-- What the outputs are written by. -/
  site : OutputSite (ExceptT Failure (StateM Workspace))
  /-- Why the outputs cannot be shown, if so. -/
  unshown : Option Failure := none

/-- The course of a build that nothing gets in the way of. -/
def Course.plain (cwd : Text) (cancelled : Bool) : Course :=
  { cancelled, site := Workspace.site cwd cancelled }

/-- What came of compiling and writing. -/
structure Emission where
  /-- The compiled project, or why there is none. -/
  result : Except CompileError Compilation
  /-- What was written, and what ended it; nothing where writing was not reached. -/
  report : WriteReport Failure := {}

namespace Emission

/-- The failure that ended the work. -/
def failure? (e : Emission) : Option Failure :=
  match e.result with
  | .error c => some c.failure
  | .ok _ => e.report.failure

/-- Whether the work broke down in the middle. -/
def brokeDown (e : Emission) : Bool := e.failure?.any fun f => f.kind = .breakdown

/-- The number of files that count: those that were compiled, or those that were given where
nothing was. -/
def fileCount (e : Emission) (given : Nat) : Nat :=
  match e.result with
  | .error _ => given
  | .ok c => c.outputs.length

/-- The outcome of a run with a number of files. -/
def outcome (e : Emission) (files : Nat) : RunOutcome :=
  { status := if e.failure?.isSome then .failed else .completed
    files
    written := e.report.written
    skipped := e.report.skipped
    error := (e.failure?.map Failure.message).getD [] }

end Emission

/-- Compiles files and writes the outputs, if they are to be written. -/
def emit (w : Workspace) (cwd : Text) (o : BuildOptions) (files : List SchemaFile)
    (course : Course := .plain cwd o.compile.cancelled) : Emission × Workspace :=
  match CubeSchema.compile w.tree cwd { o.compile with cancelled := course.cancelled } files with
  | .error e => (⟨.error e, {}⟩, w)
  | .ok c =>
    if o.showOnly then (⟨.ok c, { failure := course.unshown }⟩, w)
    else
      let (report, w) := (c.writeBy course.site o.outDir).run w
      (⟨.ok c, report⟩, w)

/-- A build that has come to its end. -/
structure Build where
  /-- The number of files it was given. -/
  files : Nat
  /-- What came of it. -/
  emission : Emission
  /-- The run that it was, where there is a history. -/
  runId : Option Text := none
  /-- Why its outcome could not be recorded. -/
  unrecorded : Option StoreError := none

/-- Records the outcome of a run, also when the work has been called off. -/
def Workspace.finishRun (w : Workspace) (id : Text) (now : Int) (outcome : RunOutcome) :
    Option StoreError × Workspace :=
  match w.store with
  | none => (none, w)
  | some s =>
    match s.completeRun w.tree false id now outcome with
    | .error e => (some e, w)
    | .ok (s, t) => (none, ⟨t, some s⟩)

/-- Builds files. It fails only if the run cannot be started; every later failure is part of the
build. -/
def build (w : Workspace) (cwd : Text) (o : BuildOptions) (files : List SchemaFile) (id : Text)
    (now : Int) (course : Course := .plain cwd o.compile.cancelled) :
    Except StoreError Build × Workspace :=
  match w.store with
  | none =>
    let (emission, w) := emit w cwd o files course
    (.ok { files := emission.fileCount files.length, emission }, w)
  | some s =>
    match s.createRun w.tree o.compile.cancelled id now with
    | .error e => (.error e, w)
    | .ok (_, s, t) =>
      let (emission, w) := emit ⟨t, some s⟩ cwd o files course
      let count := emission.fileCount files.length
      if emission.brokeDown then (.ok { files := count, emission, runId := some id }, w)
      else
        let (unrecorded, w) := w.finishRun id now (emission.outcome count)
        (.ok { files := count, emission, runId := some id, unrecorded }, w)

namespace Build

/-- The record of what was written. -/
def writtenRecords (o : BuildOptions) (e : Emission) : List LogRecord :=
  if o.showOnly || e.failure?.isSome then []
  else
    [.info "wrote outputs" [("out_dir", .text o.outDir), ("written", .number e.report.written),
      ("skipped", .number e.report.skipped)]]

/-- The records of a build. -/
def records (b : Build) (o : BuildOptions) (files : List SchemaFile) : List LogRecord :=
  Compilation.records files o.compile b.emission.result ++ writtenRecords o b.emission ++
    b.unrecorded.toList.map fun e =>
      .warn "failed to record run"
        [("run_id", .text (b.runId.getD [])), ("error", .text e.failure.message)]

end Build

end CubeSchema
