import CubeSchema.FileTree

/-!
# The state database

A history is kept in a database: in memory, or in a file of the file tree. A store is the open
connection to one. Every operation on it first has to get through: the store has to be open, the
work must not have been called off, and the tables have to be there.
-/

namespace CubeSchema

/-- Where a store keeps its database. -/
inductive Backing where
  /-- There is no database. -/
  | none
  /-- The database lives as long as the store. -/
  | memory (database : Database)
  /-- The database is the file at a place. -/
  | file (place : Place)
  deriving DecidableEq, Repr

/-- A connection to a database. -/
structure Store where
  /-- The name that the database was opened by. -/
  path : Text := []
  /-- Where the database is. -/
  backing : Backing
  /-- Whether the connection has been closed. -/
  closed : Bool := false
  deriving DecidableEq, Repr

/-- What is done to a history. -/
inductive StoreAction where
  /-- A run is started. -/
  | createRun
  /-- The outcome of a run is recorded. -/
  | completeRun
  /-- A run is looked up. -/
  | getRun
  /-- The runs are listed. -/
  | listRuns
  /-- A digest is looked up. -/
  | getHash
  /-- A digest is recorded. -/
  | setHash
  /-- A digest is forgotten. -/
  | deleteHash
  deriving DecidableEq, Repr

/-- What is said in front of a failure of an action. -/
def StoreAction.description : StoreAction → String
  | createRun => "failed to create run"
  | completeRun => "failed to complete run"
  | getRun => "failed to get run"
  | listRuns => "failed to list runs"
  | getHash => "failed to get output hash"
  | setHash => "failed to set output hash"
  | deleteHash => "failed to delete output hash"

/-- Why a database does not answer. -/
inductive DatabaseFault where
  /-- The connection has been closed. -/
  | closed
  /-- The work has been called off. -/
  | cancelled
  /-- The tables are not there. -/
  | noTables
  /-- The file holds something else. -/
  | notDatabase
  /-- The file cannot be opened. -/
  | cannotOpen
  deriving DecidableEq, Repr

/-- The failure that a fault is. -/
def DatabaseFault.failure : DatabaseFault → Failure
  | closed => .ofString "sql: database is closed"
  | cancelled => .cancelled
  | noTables => .ofString "SQL logic error"
  | notDatabase => .ofString "file is not a database"
  | cannotOpen => .ofString "unable to open database file: out of memory (14)"

/-- Why an operation of a store fails. -/
inductive StoreError where
  /-- There is no database. -/
  | notOpened
  /-- The directory of the database cannot be made. -/
  | directory (e : FileError)
  /-- The database cannot be reached. -/
  | unreachable (f : DatabaseFault)
  /-- The tables cannot be made; the fault shows twice, once for looking and once for making. -/
  | migration (f : DatabaseFault)
  /-- The version of the tables cannot be found. -/
  | version (f : DatabaseFault)
  /-- An action fails. -/
  | failed (action : StoreAction) (f : DatabaseFault)
  /-- There is no run of a name. -/
  | runNotFound (id : Text)
  deriving DecidableEq, Repr

/-- A failure that shows twice. -/
def Failure.twice (f : Failure) : Failure :=
  { f with message := f.message ++ lit "; " ++ f.message }

/-- The failure that an error is. -/
def StoreError.failure : StoreError → Failure
  | notOpened => .ofString "database not opened"
  | directory e => e.failure.during "failed to create state directory"
  | unreachable f => f.failure.during "failed to ping sqlite database"
  | migration f => f.failure.twice.during "failed to run migrations"
  | version f => f.failure.twice
  | failed action f => f.failure.during action.description
  | runNotFound id => ⟨.runNotFound, lit "run not found: " ++ id⟩

namespace Store

/-- The name of a database in memory. -/
def inMemory : Text := lit ":memory:"

/-- The database of a store. -/
def database (s : Store) (t : FileTree) : Database :=
  match s.backing with
  | .none => .blank
  | .memory d => d
  | .file place =>
    match t.at? place with
    | some (.database d) => d
    | _ => .blank

/-- Replaces the database of a store. -/
def save (s : Store) (t : FileTree) (d : Database) : Store × FileTree :=
  match s.backing with
  | .none => (s, t)
  | .memory _ => ({ s with backing := .memory d }, t)
  | .file place => (s, t.put place (.database d))

/-- Opens the database of a name and makes its tables. The directories above it are made first, and
stay even if the database cannot be opened. -/
def open? (t : FileTree) (cwd path : Text) : Except StoreError Store × FileTree :=
  if path = inMemory || path.isEmpty then (.ok ⟨path, .memory (.ready {}), false⟩, t)
  else
    match t.makeDirs cwd (Path.dir path) with
    | .error e => (.error (.directory e), t)
    | .ok t =>
      let ready (place : Place) (d : Database) : Except StoreError Store × FileTree :=
        (.ok ⟨path, .file place, false⟩, t.put place (.database d.migrate))
      match t.walk cwd path with
      | .ok (.found place (.database d)) => ready place d
      | .ok (.found place (.file [])) => ready place .blank
      | .ok (.found _ (.file _)) => (.error (.unreachable .notDatabase), t)
      | .ok (.vacant place) =>
        if FileTree.wantsDirectory path then (.error (.unreachable .cannotOpen), t)
        else ready place .blank
      | _ => (.error (.unreachable .cannotOpen), t)

/-- A store without a database. -/
def unopened : Store := ⟨[], .none, false⟩

/-- A store in memory whose tables have not been made. -/
def raw : Store := ⟨[], .memory .blank, false⟩

/-- Closes the connection. -/
def close (s : Store) : Store := if s.backing = .none then s else { s with closed := true }

/-- The history of a store, if an action gets through to it. -/
def history (s : Store) (t : FileTree) (cancelled : Bool) (action : StoreAction) :
    Except StoreError History :=
  if s.backing = .none then .error .notOpened
  else if s.closed then .error (.failed action .closed)
  else if cancelled then .error (.failed action .cancelled)
  else
    match s.database t with
    | .blank => .error (.failed action .noTables)
    | .ready h => .ok h

/-- Makes the tables where they are missing. -/
def migrate (s : Store) (t : FileTree) : Except StoreError (Store × FileTree) :=
  if s.backing = .none then .error .notOpened
  else if s.closed then .error (.migration .closed)
  else .ok (s.save t (s.database t).migrate)

/-- The version of the tables. -/
def version (s : Store) (t : FileTree) : Except StoreError Nat :=
  if s.backing = .none then .error .notOpened
  else if s.closed then .error (.version .closed)
  else .ok (s.database t).version

/-- Starts a run. -/
def createRun (s : Store) (t : FileTree) (cancelled : Bool) (id : Text) (now : Int) :
    Except StoreError (Run × Store × FileTree) := do
  let h ← s.history t cancelled .createRun
  return ({ id, startedAt := now }, s.save t (.ready (h.start id now)))

/-- Records the outcome of a run. -/
def completeRun (s : Store) (t : FileTree) (cancelled : Bool) (id : Text) (now : Int)
    (outcome : RunOutcome) : Except StoreError (Store × FileTree) := do
  let h ← s.history t cancelled .completeRun
  if (h.run? id).isSome then .ok (s.save t (.ready (h.finish id now outcome)))
  else .error (.runNotFound id)

/-- The run of a name. -/
def getRun (s : Store) (t : FileTree) (cancelled : Bool) (id : Text) : Except StoreError Run := do
  let h ← s.history t cancelled .getRun
  match h.run? id with
  | some r => .ok r
  | none => .error (.runNotFound id)

/-- The latest runs. -/
def listRuns (s : Store) (t : FileTree) (cancelled : Bool) (limit : Int) :
    Except StoreError (List Run) := do
  return (← s.history t cancelled .listRuns).recent limit

/-- The digest of what was written to a path, or nothing. -/
def outputHash (s : Store) (t : FileTree) (cancelled : Bool) (path : Text) :
    Except StoreError Text := do
  return (← s.history t cancelled .getHash).hashOf path

/-- Records the digest of what was written to a path. -/
def setOutputHash (s : Store) (t : FileTree) (cancelled : Bool) (path hash : Text) :
    Except StoreError (Store × FileTree) := do
  return s.save t (.ready ((← s.history t cancelled .setHash).setHash path hash))

/-- Forgets the digest of what was written to a path. -/
def deleteOutputHash (s : Store) (t : FileTree) (cancelled : Bool) (path : Text) :
    Except StoreError (Store × FileTree) := do
  return s.save t (.ready ((← s.history t cancelled .deleteHash).forgetHash path))

end Store

end CubeSchema
