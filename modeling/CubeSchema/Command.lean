import CubeSchema.Flag

/-!
# Commands

The commands of the tool with their names and flags. All of them take the flags that set up the
configuration, and a flag that asks for help.
-/

namespace CubeSchema

/-- A command of the tool. -/
inductive Command where
  /-- The tool without a command. -/
  | root
  /-- Shows the version. -/
  | version
  /-- Compiles schema files. -/
  | transpile
  /-- Lists cubes, views and members. -/
  | symbols
  /-- Shows the references between cubes. -/
  | deps
  /-- Lists the latest runs. -/
  | history
  /-- Makes completion scripts for shells. -/
  | completion
  /-- Explains a command. -/
  | help
  /-- Answers a shell that completes a command line. -/
  | complete
  deriving DecidableEq, Repr

namespace Command

/-- The name of the tool. -/
def toolName : Text := lit "leapcube"

/-- The version of the tool. -/
def toolVersion : Text := lit "0.1.0"

/-- The names that a command answers to, the proper one first. -/
def names : Command → List Text
  | root => [toolName]
  | version => [lit "version"]
  | transpile => [lit "transpile", lit "build"]
  | symbols => [lit "symbols"]
  | deps => [lit "deps"]
  | history => [lit "history"]
  | completion => [lit "completion"]
  | help => [lit "help"]
  | complete => [lit "__complete", lit "__completeNoDesc"]

/-- The proper name of a command. -/
def name (c : Command) : Text := c.names.headD []

/-- The commands that people are told about, in the order they are suggested. -/
def listed : List Command := [version, transpile, symbols, deps, history, completion]

/-- The command of a name. -/
def ofName? (name : Text) : Option Command :=
  (listed ++ [help, complete]).find? fun c => c.names.contains name

/-- The flags that set up the configuration. -/
def configFlags : List Flag :=
  [⟨"config", .text, none⟩, ⟨"schema-dir", .text, none⟩, ⟨"out-dir", .text, none⟩,
    ⟨"symbols", .texts, none⟩, ⟨"concurrency", .int, none⟩, ⟨"state", .text, none⟩,
    ⟨"no-state", .bool, none⟩, ⟨"verbose", .bool, some 'v'⟩, ⟨"log-level", .text, none⟩,
    ⟨"output", .text, some 'o'⟩]

/-- The flags of one command only. -/
def ownFlags : Command → List Flag
  | version => [⟨"short", .bool, none⟩]
  | transpile => [⟨"stdout", .bool, none⟩, ⟨"watch", .bool, some 'w'⟩]
  | symbols => [⟨"members", .bool, none⟩]
  | deps => [⟨"cube", .text, some 'c'⟩]
  | history => [⟨"limit", .int, some 'n'⟩]
  | _ => []

/-- The flag that asks for help. -/
def helpFlag : Flag := ⟨"help", .bool, some 'h'⟩

/-- The flag that asks for the version, which only the tool itself has. -/
def versionFlag : Flag := ⟨"version", .bool, none⟩

/-- The flags that a command is chosen by: those for help and for the version come later. -/
def selectionFlags (c : Command) : List Flag := c.ownFlags ++ configFlags

/-- All flags of a command. -/
def flags (c : Command) : List Flag :=
  c.selectionFlags ++ [helpFlag] ++ (if c = root then [versionFlag] else [])

/-- Whether a command leaves flags alone and takes everything as arguments. -/
def takesFlagsAsArguments (c : Command) : Bool := c = complete

end Command

end CubeSchema
