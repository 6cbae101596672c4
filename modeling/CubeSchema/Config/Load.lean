import CubeSchema.Config.Setting

/-!
# Loading the configuration

The configuration file is the one that is named, or the nearest one in the working directory and
those above it. Names of files in the configuration are read from the directory of that file; names
given by flags are read from the working directory.
-/

namespace CubeSchema

/-- Why there is no configuration. -/
inductive ConfigError where
  /-- The configuration file cannot be read. -/
  | unreadable (path : Text) (e : FileError)
  /-- The configuration file is no YAML mapping. -/
  | malformed (path : Text) (e : Yaml.DecodeError)
  /-- A setting has a value of the wrong kind. -/
  | undecodable
  /-- The configuration cannot be used. -/
  | invalid (f : ConfigFault)
  deriving Repr

/-- The failure that an error is. -/
def ConfigError.failure : ConfigError → Failure
  | unreadable path e =>
    { e.failure with message := lit "error reading config file " ++ path ++ lit ": " ++ e.message }
  | malformed path e => ⟨.other, lit "error reading config file " ++ path ++ lit ": " ++ e.message⟩
  | undecodable => .ofString "unable to decode config:"
  | invalid f => ⟨.other, f.message⟩

namespace Config

/-- The names of configuration files, in the order they are looked for. -/
def fileNames : List Text := [lit "leapcube.yaml", lit "leapcube.yml"]

/-- The configuration file of a directory. -/
def fileIn? (t : FileTree) (cwd dir : Text) : Option Text :=
  (fileNames.map fun name => Path.join [dir, name]).find? fun p => t.contains cwd p

/-- Looks for a configuration file in a directory and at most `levels - 1` directories above it. -/
def findUpward (t : FileTree) (cwd : Text) : Nat → Text → Option Text
  | 0, _ => none
  | levels + 1, dir =>
    match fileIn? t cwd dir with
    | some p => some p
    | none => if Path.dir dir = dir then none else findUpward t cwd levels (Path.dir dir)

/-- The number of directories that are looked into. -/
def maxLevels : Nat := 10

/-- A name read from a directory; no name stays so. -/
def resolve (base p : Text) : Text :=
  if p.isEmpty || Path.isAbsolute p then p else Path.join [base, p]

/-- The settings of a configuration file. Its name is brought into its shortest form first. -/
def fileSettings (t : FileTree) (cwd path : Text) : Except ConfigError Settings :=
  match t.read cwd (Path.clean path) with
  | .error e => .error (.unreadable path e)
  | .ok content =>
    match Yaml.read .table content with
    | .error e => .error (.malformed path e)
    | .ok (.fields entries) => .ok entries
    | .ok _ => .ok []

/-- Reads the names of files in a configuration from the directories that they belong to. -/
def resolveAll (c : Config) (flags : FlagValues) (cwd projectRoot : Text) : Config :=
  let base (flag : String) : Text := if (flags.lookup flag).isSome then cwd else projectRoot
  { c with
    schemaDir := resolve (base "schema-dir") c.schemaDir
    outDir := resolve (base "out-dir") c.outDir
    statePath :=
      if c.statePath = lit ":memory:" then c.statePath else resolve (base "state") c.statePath
    symbols := c.symbols.map (resolve (base "symbols"))
    projectRoot }

/-- The configuration file that is used: the one that is named, or else the nearest. -/
def fileUsed? (t : FileTree) (cwd named : Text) : Option Text :=
  if named.isEmpty then findUpward t cwd maxLevels cwd else some named

/-- Loads the configuration. -/
def load (t : FileTree) (cwd : Text) (env : List (Text × Text)) (named : Text)
    (flags : FlagValues) : Except ConfigError Config := do
  let used := fileUsed? t cwd named
  let fromFile ← match used with
    | some path => fileSettings t cwd path
    | none => .ok []
  let projectRoot := match used with
    | some path => Path.dir (Path.absolute cwd path)
    | none => cwd
  let settings := ((Settings.defaults.override fromFile).override
    (Settings.ofEnvironment env)).override (Settings.ofFlags flags)
  match settings.config? with
  | none => .error .undecodable
  | some c =>
    let c := c.resolveAll flags cwd projectRoot
    match c.fault? cwd with
    | some f => .error (.invalid f)
    | none => .ok c

end Config

end CubeSchema
