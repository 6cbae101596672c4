import CubeSchema.Text.Basic

/-!
# The build history

What the tool remembers between two invocations: the runs it made, with their outcome, and for every
file it wrote the digest of what it wrote there. Runs and digests do not affect each other.
-/

namespace CubeSchema

/-- How far a run has come. -/
inductive RunStatus where
  /-- It has started and not ended yet. -/
  | running
  /-- It has ended well. -/
  | completed
  /-- It has ended with an error. -/
  | failed
  /-- A word of the caller's own. -/
  | other (label : Text)
  deriving DecidableEq, Repr

/-- The word for a status. -/
def RunStatus.label : RunStatus → Text
  | running => lit "running"
  | completed => lit "completed"
  | failed => lit "failed"
  | other label => label

/-- The outcome of a run. -/
structure RunOutcome where
  /-- How it ended. -/
  status : RunStatus
  /-- The number of files it was given. -/
  files : Int := 0
  /-- The number of files it wrote. -/
  written : Int := 0
  /-- The number of files it left alone because they had not changed. -/
  skipped : Int := 0
  /-- The text of the error it ended with, or nothing. -/
  error : Text := []
  deriving DecidableEq, Repr

/-- One run of the tool. -/
structure Run where
  /-- The name of the run. -/
  id : Text
  /-- When it started. -/
  startedAt : Int
  /-- When it ended. -/
  completedAt : Option Int := none
  /-- What came of it. -/
  outcome : RunOutcome := { status := .running }
  deriving DecidableEq, Repr

/-- The runs, and the digest of every file that was written. -/
structure History where
  /-- The runs in the order of their creation. -/
  runs : List Run := []
  /-- The digests; every path occurs once. -/
  hashes : List (Text × Text) := []
  deriving DecidableEq, Repr

namespace History

/-- Records the start of a run. -/
def start (h : History) (id : Text) (now : Int) : History :=
  { h with runs := h.runs ++ [{ id, startedAt := now }] }

/-- The run of a name. -/
def run? (h : History) (id : Text) : Option Run := h.runs.find? fun r => r.id = id

/-- Records the outcome of a run; nothing is recorded when there is no run of that name. -/
def finish (h : History) (id : Text) (now : Int) (outcome : RunOutcome) : History :=
  { h with runs := h.runs.map fun r =>
      if r.id = id then { r with completedAt := some now, outcome } else r }

/-- All runs, the latest start first and, of several that started together, the last created
first. -/
def latestFirst (h : History) : List Run :=
  h.runs.reverse.mergeSort fun a b => decide (b.startedAt ≤ a.startedAt)

/-- The first `limit` of the latest runs, or all of them when the limit is not positive. -/
def recent (h : History) (limit : Int) : List Run :=
  if limit ≤ 0 then h.latestFirst else h.latestFirst.take limit.toNat

/-- The digest of what was written to a path, or nothing. -/
def hashOf (h : History) (path : Text) : Text := (h.hashes.lookup path).getD []

/-- Forgets what was written to a path. -/
def forgetHash (h : History) (path : Text) : History :=
  { h with hashes := h.hashes.filter fun e => e.1 ≠ path }

/-- Remembers the digest of what was written to a path. -/
def setHash (h : History) (path hash : Text) : History :=
  { h with hashes := (h.forgetHash path).hashes ++ [(path, hash)] }

end History

/-- What a database file holds: nothing yet, or a history. -/
inductive Database where
  /-- No tables have been made. -/
  | blank
  /-- The tables are there. -/
  | ready (history : History)
  deriving DecidableEq, Repr

namespace Database

/-- Makes the tables where there are none. -/
def migrate : Database → Database
  | blank => ready {}
  | ready h => ready h

/-- The number of steps that made the tables. -/
def version : Database → Nat
  | blank => 0
  | ready _ => 1

end Database

end CubeSchema
