import CubeSchema.FileTree
import CubeSchema.Log

/-!
# The configuration

What the tool works with: where the schema files are, where the outputs go, and how it reports. The
outputs must not go into the directory that the schema files are in, or they would be compiled
again.
-/

namespace CubeSchema

/-- The configuration of the tool. -/
structure Config where
  /-- The directory of the schema files. -/
  schemaDir : Text
  /-- The directory of the outputs. -/
  outDir : Text
  /-- The names of the symbol manifests. -/
  symbols : List Text := []
  /-- How many files may be worked on at a time. -/
  concurrency : Int
  /-- The name of the state database. -/
  statePath : Text := []
  /-- Whether no state is kept. -/
  noState : Bool := false
  /-- Whether details are reported. -/
  verbose : Bool := false
  /-- The least level that is reported. -/
  logLevel : Text := []
  /-- The form of the results. -/
  output : Text := []
  /-- The directory that names were read from. -/
  projectRoot : Text := []
  deriving DecidableEq, Repr

/-- Why a configuration cannot be used. -/
inductive ConfigFault where
  /-- There is no directory of schema files. -/
  | noSchemaDir
  /-- There is no directory of outputs. -/
  | noOutDir
  /-- The outputs would go where the schema files are. -/
  | nested (outDir schemaDir : Text)
  /-- Less than one file could be worked on. -/
  | concurrency (n : Int)
  /-- There is no such form of results. -/
  | output (name : Text)
  /-- There is no such level. -/
  | logLevel (name : Text)
  deriving DecidableEq, Repr

/-- The wording of a fault. -/
def ConfigFault.message : ConfigFault → Text
  | noSchemaDir => lit "schema_dir is required"
  | noOutDir => lit "out_dir is required"
  | nested out schema => lit "out_dir " ++ out ++ lit " must not be inside schema_dir " ++ schema
  | concurrency n => lit "concurrency must be at least 1, got " ++ Text.ofInt n
  | output name => lit "unknown output format " ++ name.quoted ++ lit " (want text or json)"
  | logLevel name => lit "unknown log level " ++ name.quoted

namespace Config

/-- Whether the outputs would go into the directory of the schema files or below it. -/
def nests (cwd schemaDir outDir : Text) : Bool :=
  match Path.relative? (Path.absolute cwd schemaDir) (Path.absolute cwd outDir) with
  | none => false
  | some rel => !Path.escapes rel

/-- The level of a name; no name is the usual level. -/
def levelOf? (name : Text) : Option LogLevel :=
  if name.isEmpty then some .info else LogLevel.parse? name

/-- The least level that is reported. -/
def level (c : Config) : LogLevel :=
  if c.verbose then .debug else (levelOf? c.logLevel).getD .info

/-- The first thing that is wrong with a configuration. -/
def fault? (c : Config) (cwd : Text) : Option ConfigFault :=
  if c.schemaDir.isEmpty then some .noSchemaDir
  else if c.outDir.isEmpty then some .noOutDir
  else if nests cwd c.schemaDir c.outDir then some (.nested c.outDir c.schemaDir)
  else if c.concurrency < 1 then some (.concurrency c.concurrency)
  else if c.output ≠ lit "text" && c.output ≠ lit "json" then some (.output c.output)
  else if (levelOf? c.logLevel).isNone then some (.logLevel c.logLevel)
  else none

/-- The failure of a configuration without its directory of schema files. -/
def missingSchemaDir (c : Config) : Failure :=
  ⟨.other, lit "schema directory does not exist: " ++ c.schemaDir ++
    lit "\nHint: Create the directory or use --schema-dir to specify a different path"⟩

/-- Whether the directory of the schema files is there, as far as one can tell. -/
def directoryFailure? (c : Config) (t : FileTree) (cwd : Text) : Option Failure :=
  match t.stat cwd c.schemaDir with
  | .error e => if e.fault = .missing then some c.missingSchemaDir else none
  | .ok _ => none

end Config

end CubeSchema
