import CubeSchema.Command.Inspect
import CubeSchema.Command.Selection
import CubeSchema.Command.Transpile

/-!
# Executing a command line

The command is chosen, its flags are read and its arguments are checked before the configuration is
loaded; what is wrong with the command line is therefore reported first. The commands that only tell
something about the tool need no configuration.
-/

namespace CubeSchema

namespace Command

/-- The shells that completion scripts can be asked for. -/
def shells : List Text := [lit "bash", lit "zsh", lit "fish", lit "powershell"]

/-- What is wrong with the arguments of a command. -/
def argumentError? (c : Command) (args : List Text) : Option UsageError :=
  match c with
  | complete => if args.isEmpty then some (.tooFewArguments 1 0) else none
  | completion =>
    match args with
    | [shell] => if shells.contains shell then none else some (.invalidArgument shell c)
    | _ => some (.argumentCount 1 args.length)
  | _ => none

/-- What is shown of a command to someone who asks for help. -/
def usage (c : Command) : Text :=
  let line (names : Text) : Text := lit "  " ++ names ++ lit "\n"
  lit "Usage:\n" ++
    line (if c = root then toolName ++ lit " [command] [flags]"
      else toolName ++ lit " " ++ c.name ++ lit " [flags]") ++
    (if c = root then lit "\nCommands:\n" ++ listed.flatMap (fun d => line d.name) else []) ++
    lit "\nFlags:\n" ++ c.flags.flatMap fun f => line f.display

/-- What the tool tells about itself. -/
def versionLines (host : Host) (short : Bool) : Text :=
  if short then toolVersion ++ lit "\n"
  else
    toolName ++ lit " v" ++ toolVersion ++
      lit "\n  commit: unknown\n  built:  unknown\n  go:     " ++ host.toolchain ++ lit "\n"

end Command

/-- Loads the configuration that flags, environment and files describe. -/
def loadContext (host : Host) (a : Arguments) : Task Context := do
  let t := (← get).tree
  let named := a.text "config"
  let flags := a.flags.filter fun f => Command.configFlags.any fun g => g.name = f.1
  let config ← Task.ofExcept ConfigError.failure (Config.load t host.cwd host.env named flags)
  let x : Context := ⟨host, config⟩
  match Config.fileUsed? t host.cwd named with
  | some path => Task.log x [.debug "using config file" [("path", .text path)]]
  | none => pure ()
  return x

/-- Runs a command whose arguments have been checked. -/
def runCommand (host : Host) (c : Command) (a : Arguments) : Task Unit :=
  match c with
  | .version => Task.write fun k => k.print (Command.versionLines host (a.bool "short"))
  | .transpile => do Task.transpile (← loadContext host a) a
  | .symbols => do Task.showSymbols (← loadContext host a) a
  | .deps => do Task.showReferences (← loadContext host a) a
  | .history => do Task.showRuns (← loadContext host a) a
  | .help => Task.write fun k => k.print
      (((a.args.head?.bind Command.ofName?).getD .root).usage)
  | .root | .completion | .complete => return ()

/-- Runs a command line. -/
def runCommandLine (host : Host) (words : List Text) : Task Unit := do
  let (c, rest) ← Task.ofExcept UsageError.failure (Selection.select words)
  let a ← if c.takesFlagsAsArguments then pure { args := rest : Arguments }
    else Task.ofExcept UsageError.failure (Arguments.read c.flags rest)
  if a.bool "help" then Task.write fun k => k.print c.usage
  else if c = .root then
    Task.write fun k => k.print
      (if a.bool "version" then Command.toolName ++ lit " " ++ Command.toolVersion ++ lit "\n"
        else c.usage)
  else
    match c.argumentError? a.args with
    | some e => throw e.failure
    | none => runCommand host c a

/-- Runs a command line to its end; a failure is reported in the messages. -/
def execute (host : Host) (t : FileTree) (words : List Text) : Option Failure × Session :=
  match (runCommandLine host words).run { tree := t } with
  | (.ok _, s) => (none, s)
  | (.error f, s) =>
    (some f, { s with console := s.console.messageLine (lit "Error: " ++ f.message) })

end CubeSchema
