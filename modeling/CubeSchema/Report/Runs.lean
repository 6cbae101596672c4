import CubeSchema.Grid
import CubeSchema.History
import CubeSchema.Moment

/-!
# Reports of runs

The runs of a history, one to a row.
-/

namespace CubeSchema.Run

/-- How long a run took; nothing as long as it has not ended. -/
def elapsed (r : Run) : Int :=
  match r.completedAt with
  | some t => t - r.startedAt
  | none => 0

/-- A run as JSON. -/
def json (r : Run) : Json :=
  .record ([("id", .text r.id), ("status", .text r.outcome.status.label),
      ("started_at", .text (Moment.stamp r.startedAt))] ++
    r.completedAt.toList.map (fun t => ("completed_at", .text (Moment.stamp t))) ++
    [("files", .int r.outcome.files), ("written", .int r.outcome.written),
      ("skipped", .int r.outcome.skipped)] ++
    Json.textUnlessEmpty "error" r.outcome.error)

/-- The greatest number of code points of an error in a row. -/
def maxError : Nat := 60

/-- A text cut to a number of code points, with a mark where something was cut. -/
def shortened (n : Nat) (t : Text) : Text :=
  if t.glyphCount ≤ n then t else Text.ofCodePoints (t.codePoints.take (n - 1)) ++ lit "…"

/-- The row of a run. -/
def row (r : Run) : List Cell :=
  [.text (r.id.take 8), .text r.outcome.status.label, .text (Moment.display r.startedAt),
    .text (Moment.duration r.elapsed), .number r.outcome.files, .number r.outcome.written,
    .number r.outcome.skipped, .text (shortened maxError r.outcome.error)]

/-- A table of runs. -/
def grid (rs : List Run) : Grid :=
  ⟨["Run", "Status", "Started", "Duration", "Files", "Written", "Skipped", "Error"], rs.map row⟩

/-- Shows runs. -/
def showAll (rs : List Run) (mode : OutputMode) (c : Console) : Console :=
  match mode with
  | .json => c.json (.list (rs.map json))
  | .text => if rs.isEmpty then c.muted (lit "No runs recorded yet") else c.print (grid rs).print

end CubeSchema.Run
