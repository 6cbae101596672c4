import CubeSchema.Build
import CubeSchema.Console
import CubeSchema.Moment

/-!
# Reports of builds

What is shown of a build: the counts and the declared cubes after the outputs have been written, or
the outputs themselves.
-/

namespace CubeSchema

/-- What is reported of a build that wrote its outputs. -/
structure BuildReport where
  /-- The run that it was; nothing where there is no history. -/
  runId : Text := []
  /-- The directory of the outputs. -/
  outDir : Text
  /-- The number of files. -/
  files : Nat
  /-- The number of outputs written. -/
  written : Nat
  /-- The number of outputs left alone. -/
  skipped : Nat
  /-- The declared cubes and views in the order of the files. -/
  cubes : List Text
  /-- How long it took, in milliseconds. -/
  elapsed : Int := 0
  deriving Repr

namespace BuildReport

/-- The report of a build with the project it compiled. -/
def of (b : Build) (c : Compilation) (outDir : Text) : BuildReport :=
  { runId := b.runId.getD []
    outDir
    files := b.files
    written := b.emission.report.written
    skipped := b.emission.report.skipped
    cubes := c.outputs.flatMap fun o => o.declared.map fun d => d.cube.name }

/-- A report as JSON. -/
def json (r : BuildReport) : Json :=
  .record (Json.textUnlessEmpty "run_id" r.runId ++ Json.textUnlessEmpty "out_dir" r.outDir ++
    [("files", .int r.files), ("written", .int r.written), ("skipped", .int r.skipped),
      ("cubes", .texts r.cubes), ("duration_ms", .int r.elapsed)])

/-- A report as text. -/
def print (r : BuildReport) (c : Console) : Console :=
  let c := c.success (lit "Transpiled " ++ Text.ofNat r.files ++ lit " files (" ++
    Text.ofNat r.written ++ lit " written, " ++ Text.ofNat r.skipped ++ lit " unchanged)")
  let c := c.keyValue (lit "Output") r.outDir
  let c := c.keyValue (lit "Declarations") (Text.ofNat r.cubes.length)
  let c := c.keyValue (lit "Duration") (Moment.duration r.elapsed)
  if r.runId.isEmpty then c else c.keyValue (lit "Run") r.runId

/-- Shows a report. -/
def display (r : BuildReport) (mode : OutputMode) (c : Console) : Console :=
  match mode with
  | .json => c.json r.json
  | .text => r.print c

end BuildReport

namespace Compilation

/-- The outputs as JSON. -/
def outputsJson (p : Compilation) : Json :=
  .list (p.outputs.map fun o => .record [("path", .text o.path), ("source", .text o.source)])

/-- Several outputs one after the other, each under its name. -/
def printTitled (c : Console) : Bool → List CompiledFile → Console
  | _, [] => c
  | first, o :: rest =>
    let c := if first then c else c.printLine []
    printTitled ((c.muted (lit "// " ++ o.path)).print o.source) false rest

/-- The outputs as text; a single one has no name above it. -/
def printOutputs (p : Compilation) (c : Console) : Console :=
  match p.outputs with
  | [o] => c.print o.source
  | os => printTitled c true os

/-- Shows the outputs. -/
def showOutputs (p : Compilation) (mode : OutputMode) (c : Console) : Console :=
  match mode with
  | .json => c.json p.outputsJson
  | .text => p.printOutputs c

end Compilation

end CubeSchema
