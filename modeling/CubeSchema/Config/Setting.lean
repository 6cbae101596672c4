import CubeSchema.Config
import CubeSchema.Flag
import CubeSchema.Text.Case
import CubeSchema.Text.Space
import CubeSchema.Yaml.Decode

/-!
# Settings

The settings that a configuration is made of come from four sources: defaults, a configuration file,
the environment and flags. A setting of a later source replaces that of an earlier one. The sources
write values differently, so a value is converted where that can be done: numbers and truth values
stand for each other and for texts, and a text that is written like one stands for a number.
-/

namespace CubeSchema

/-- The settings by their names; every name occurs once. -/
abbrev Settings := List (Text × Yaml.Value)

namespace Settings

/-- Replaces settings by later ones. -/
def override (s later : Settings) : Settings := later.foldl (fun s e => Yaml.Value.set s e.1 e.2) s

/-- A text as a setting. -/
def ofText (t : Text) : Yaml.Value := .scalar (.text t)

/-- A list of texts as a setting. -/
def ofTexts (ts : List Text) : Yaml.Value := .list (ts.map ofText)

/-- The settings that count where nothing else is said. -/
def defaults : Settings :=
  [(lit "schema_dir", ofText (lit "schema")), (lit "out_dir", ofText (lit "dist")),
    (lit "symbols", ofTexts []), (lit "concurrency", .scalar (.int 4)),
    (lit "state_path", ofText (lit ".leapcube/state.db")), (lit "no_state", .scalar (.bool false)),
    (lit "verbose", .scalar (.bool false)), (lit "log_level", ofText (lit "info")),
    (lit "output", ofText (lit "text"))]

/-- What the names of the environment variables start with. -/
def environmentMark : Text := lit "LEAPCUBE_"

/-- The comma separated parts of a text, trimmed, without empty ones. -/
def listOf (t : Text) : List Text :=
  ((Text.splitOn (ascii ',') t).map Text.trimSpace).filter fun p => !p.isEmpty

/-- The variables of the environment that are settings, by their names in lower case. -/
def environmentSettings (env : List (Text × Text)) : List (Text × Text) :=
  env.filterMap fun e => do
    let key := Text.folded (← Text.after? environmentMark e.1)
    if key.isEmpty then none else some (key, e.2)

/-- The setting that a variable gives. Behind every point in its name a setting inside of another is
meant. -/
def ofVariable (key value : Text) : Text × Yaml.Value :=
  match Text.splitOn (ascii '.') key with
  | first :: inner :: more =>
    (first, (inner :: more).foldr (fun k v => .fields [(k, v)]) (ofText value))
  | _ => (key, if key = lit "symbols" then ofTexts (listOf value) else ofText value)

/-- The settings of the environment. A setting itself counts before those inside of it. -/
def ofEnvironment (env : List (Text × Text)) : Settings :=
  let (inner, whole) := (environmentSettings env).partition fun e => e.1.any (· = ascii '.')
  override [] ((inner ++ whole).map fun e => ofVariable e.1 e.2)

/-- The setting that a flag of a name sets. -/
def keyOfFlag (name : String) : Text :=
  if name = "state" then lit "state_path"
  else (lit name).map fun b => if b = ascii '-' then ascii '_' else b

/-- The value of a flag as a setting. A list comes as a line of fields, so that a single empty field
is none, and a carriage return before a line feed is dropped. -/
def ofFlagValue : FlagValue → Yaml.Value
  | .text t => ofText t
  | .texts ts => ofTexts ((Csv.fields (Csv.write ts)).toOption.getD [])
  | .int n => .scalar (.int n)
  | .bool b => .scalar (.bool b)

/-- The settings of the flags that have been set. -/
def ofFlags (flags : FlagValues) : Settings := flags.map fun f => (keyOfFlag f.1, ofFlagValue f.2)

/-! ## Conversions -/

/-- A value as a text. -/
def toText? : Yaml.Value → Option Text
  | .scalar .null => some []
  | .scalar (.text t) => some t
  | .scalar (.bool b) => some (if b then lit "1" else lit "0")
  | .scalar (.int n) => some (Text.ofInt n)
  | .scalar (.float x) => some x.positional
  | _ => none

/-- A value as an integer of 64 bits. -/
def toInt? : Yaml.Value → Option Int
  | .scalar .null => some 0
  | .scalar (.text t) => if t.isEmpty then some 0 else (Integer.read t).toOption
  | .scalar (.bool b) => some (if b then 1 else 0)
  | .scalar (.int n) => some (Integer.wrap n)
  | .scalar (.float x) => some x.toInt64
  | _ => none

/-- A value as a truth value. -/
def toBool? : Yaml.Value → Option Bool
  | .scalar .null => some false
  | .scalar (.text t) => if t.isEmpty then some false else readBool? t
  | .scalar (.bool b) => some b
  | .scalar (.int n) => some (n ≠ 0)
  | .scalar (.float x) => some !x.isZero
  | _ => none

/-- A value as a list of texts. A single text is split at its commas, and any other single value
makes a list of its own. -/
def toTexts? : Yaml.Value → Option (List Text)
  | .scalar .null => some []
  | .scalar (.text t) => some (if t.isEmpty then [] else Text.splitOn (ascii ',') t)
  | .list items => items.mapM toText?
  | .fields [] => some []
  | v => (toText? v).map fun t => [t]

/-- The setting of a name. -/
def get (s : Settings) (name : String) : Yaml.Value := (s.lookup (lit name)).getD .null

/-- The configuration that settings describe, with names as they are written. The setting `-` stands
for the directory that names are read from; it has to be a text, but does not count in the end. -/
def config? (s : Settings) : Option Config := do
  return {
    schemaDir := ← toText? (s.get "schema_dir")
    outDir := ← toText? (s.get "out_dir")
    symbols := ← toTexts? (s.get "symbols")
    concurrency := ← toInt? (s.get "concurrency")
    statePath := ← toText? (s.get "state_path")
    noState := ← toBool? (s.get "no_state")
    verbose := ← toBool? (s.get "verbose")
    logLevel := ← toText? (s.get "log_level")
    output := ← toText? (s.get "output")
    projectRoot := ← toText? (s.get "-") }

end Settings

end CubeSchema
