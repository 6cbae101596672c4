import CubeSchema.History
import CubeSchema.Number.Integer

/-!
# Databases as files

The form in which a history is kept in a file: a line that names the format, a line for every run
and a line for every digest. The fields of a line are separated by spaces, and texts are written by
the hexadecimal digits of their bytes, so no text can hold a separator.
-/

namespace CubeSchema

namespace Text

/-- The bytes that pairs of hexadecimal digits stand for. -/
def unhex? : Text → Option Text
  | [] => some []
  | a :: b :: rest => do return (16 * (← hexValue? a) + (← hexValue? b)).toUInt8 :: (← unhex? rest)
  | [_] => none

end Text

namespace RunStatus

/-- The status of a word. -/
def ofLabel (t : Text) : RunStatus :=
  ([running, completed, failed].find? fun s => s.label = t).getD (other t)

end RunStatus

namespace Database

/-- The first line of a file that holds a history. -/
def formatLine : Text := lit "cube schema history 1"

/-- A line of fields. -/
def line (fields : List Text) : Text := Text.join (lit " ") fields ++ [Text.newline]

/-- The line of a run. -/
def runLine (r : Run) : Text :=
  line [lit "run", r.id.hex, Text.ofInt r.startedAt, (r.completedAt.map Text.ofInt).getD [],
    r.outcome.status.label.hex, Text.ofInt r.outcome.files, Text.ofInt r.outcome.written,
    Text.ofInt r.outcome.skipped, r.outcome.error.hex]

/-- The line of a digest. -/
def hashLine (h : Text × Text) : Text := line [lit "hash", h.1.hex, h.2.hex]

/-- The content of the file of a database. -/
def encode : Database → Text
  | blank => []
  | ready h => formatLine ++ [Text.newline] ++ h.runs.flatMap runLine ++ h.hashes.flatMap hashLine

/-- Adds what a line says to a history. -/
def readLine? (h : History) (t : Text) : Option History :=
  match Text.splitOn (ascii ' ') t with
  | [kind, id, started, completed, status, files, written, skipped, error] => do
    if kind ≠ lit "run" then none
    let completedAt ←
      if completed.isEmpty then some none else (Integer.readBase? 10 completed).map some
    let run : Run :=
      { id := ← id.unhex?
        startedAt := ← Integer.readBase? 10 started
        completedAt
        outcome :=
          { status := .ofLabel (← status.unhex?)
            files := ← Integer.readBase? 10 files
            written := ← Integer.readBase? 10 written
            skipped := ← Integer.readBase? 10 skipped
            error := ← error.unhex? } }
    return { h with runs := h.runs ++ [run] }
  | [kind, path, hash] => do
    if kind ≠ lit "hash" then none
    return { h with hashes := h.hashes ++ [(← path.unhex?, ← hash.unhex?)] }
  | [[]] => some h
  | _ => none

/-- The history that the content of a file holds; none if it is no such file. -/
def decode? (t : Text) : Option Database :=
  match Text.splitOn Text.newline t with
  | first :: rest =>
    if first = formatLine then (rest.foldlM readLine? {}).map .ready else none
  | [] => none

end Database

end CubeSchema
