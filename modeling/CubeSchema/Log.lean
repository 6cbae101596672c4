import CubeSchema.Number.Integer
import CubeSchema.Text.Quoted

/-!
# Log records

What the tool says about its work, one line per record: the level, a message and named values.
Levels are integers with four named steps; a level between two of them is written as a distance from
the named one below it.
-/

namespace CubeSchema

/-- How important a record is; larger is more important. -/
structure LogLevel where
  /-- The level as a number. -/
  value : Int
  deriving DecidableEq, Repr

namespace LogLevel

/-- The level of details. -/
def debug : LogLevel := ⟨-4⟩

/-- The usual level. -/
def info : LogLevel := ⟨0⟩

/-- The level of things that may be wrong. -/
def warn : LogLevel := ⟨4⟩

/-- The level of things that are wrong. -/
def error : LogLevel := ⟨8⟩

/-- The name of a level. -/
def name (l : LogLevel) : Text :=
  let offset (base : String) (from' : LogLevel) : Text :=
    let d := l.value - from'.value
    lit base ++ (if d = 0 then [] else if d > 0 then ascii '+' :: Text.ofInt d else Text.ofInt d)
  if l.value < info.value then offset "DEBUG" debug
  else if l.value < warn.value then offset "INFO" info
  else if l.value < error.value then offset "WARN" warn
  else offset "ERROR" error

/-- Upper-cases the ASCII letters and the dotless `ı`, whose capital is an ASCII letter. -/
def capitals (t : Text) : Text :=
  Text.ofCodePoints (t.codePoints.map fun v =>
    if 97 ≤ v && v ≤ 122 then v - 32 else if v = 0x131 then 73 else v)

/-- A signed number at the end of a level; the level has 64 bits. -/
def offset? (t : Text) : Option Int :=
  match t with
  | [] => some 0
  | _ => Integer.readBase? 10 t

/-- Reads a level: one of the names in any case, and an optional distance from it. -/
def parse? (t : Text) : Option LogLevel := do
  let t := capitals t
  let name := t.takeWhile fun b => b ≠ ascii '+' && b ≠ ascii '-'
  let d ← offset? (t.drop name.length)
  let base ←
    if name = lit "DEBUG" then some debug
    else if name = lit "INFO" then some info
    else if name = lit "WARN" then some warn
    else if name = lit "ERROR" then some error
    else none
  return ⟨Integer.wrap (base.value + d)⟩

end LogLevel

/-- A value of a log record. -/
inductive LogValue where
  /-- A text. -/
  | text (t : Text)
  /-- A number. -/
  | number (n : Int)
  /-- A list of names. -/
  | names (ts : List Text)
  deriving DecidableEq, Repr

/-- A log record. -/
structure LogRecord where
  /-- Its level. -/
  level : LogLevel
  /-- What happened. -/
  message : String
  /-- The values with their names. -/
  fields : List (String × LogValue) := []
  deriving DecidableEq, Repr

namespace LogRecord

/-- A record of details. -/
def debug (message : String) (fields : List (String × LogValue)) : LogRecord :=
  ⟨.debug, message, fields⟩

/-- A record of the usual course. -/
def info (message : String) (fields : List (String × LogValue)) : LogRecord :=
  ⟨.info, message, fields⟩

/-- A record of something that may be wrong. -/
def warn (message : String) (fields : List (String × LogValue)) : LogRecord :=
  ⟨.warn, message, fields⟩

/-- Whether a text has to be quoted in a record: it is empty, or it holds a space, a quote, an
equals sign or something that is not printable. -/
def needsQuotes (t : Text) : Bool :=
  t.isEmpty || t.glyphs.any fun
    | .stray _ => true
    | .point v _ =>
      if v < 0x80 then v ≤ 32 || v = 34 || v = 61 else v = 0xFFFD || !Text.isPrintable v

/-- A text as it stands in a record. -/
def shown (t : Text) : Text := if needsQuotes t then t.quoted else t

/-- A value as it stands in a record. -/
def shownValue : LogValue → Text
  | .text t => shown t
  | .number n => Text.ofInt n
  | .names ts => shown (ascii '[' :: Text.join (lit " ") ts ++ lit "]")

/-- The line of a record, without the time. -/
def line (r : LogRecord) : Text :=
  lit "level=" ++ r.level.name ++ lit " msg=" ++ shown (lit r.message) ++
    r.fields.flatMap (fun f => lit " " ++ lit f.1 ++ lit "=" ++ shownValue f.2) ++ lit "\n"

end LogRecord

/-- The lines of the records of a level at least as high as the given one. -/
def logLines (least : LogLevel) (records : List LogRecord) : Text :=
  (records.filter fun r => least.value ≤ r.level.value).flatMap LogRecord.line

end CubeSchema
