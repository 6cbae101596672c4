import CubeSchema.Command

/-!
# Reading the arguments of a command

Flags and arguments may be mixed. A flag is given by its name behind two hyphens or by its letter
behind one, with its value in the same word or in the next one; letters of flags that need no value
can be put together. Two hyphens alone end the flags.
-/

namespace CubeSchema

/-- Why a command line cannot be read. -/
inductive UsageError where
  /-- There is nothing a word could be a flag by. -/
  | malformed (word : Text)
  /-- There is no flag of a name. -/
  | unknownFlag (name : Text)
  /-- There is no flag of a letter; the letters are those from there on. -/
  | unknownLetter (letter : UInt8) (letters : Text)
  /-- The value of a flag is missing. -/
  | missingValue (name : Text)
  /-- The value of a flag given by its letter is missing. -/
  | missingLetterValue (letter : UInt8) (letters : Text)
  /-- A flag does not take its value. -/
  | flag (e : FlagError)
  /-- There is no command of a name; these are meant, maybe. -/
  | unknownCommand (name : Text) (suggestions : List Text)
  /-- There are too many or too few arguments. -/
  | argumentCount (expected actual : Nat)
  /-- There are too few arguments. -/
  | tooFewArguments (least actual : Nat)
  /-- A command does not take an argument. -/
  | invalidArgument (argument : Text) (command : Command)
  deriving DecidableEq, Repr

namespace UsageError

/-- A letter in single quotes. A byte that is no ASCII character shows as the first byte of its
two-byte form. -/
def quotedLetter (b : UInt8) : Text :=
  let v := ((Text.encode b.toNat).headD 0).toNat
  let shown : Text :=
    if v = 39 then [92, 39]
    else if v = 34 then [34]
    else Text.quotedGlyph (.point v 1)
  39 :: shown ++ [39]

/-- The wording of an error. -/
def message : UsageError → Text
  | malformed word => lit "bad flag syntax: " ++ word
  | unknownFlag name => lit "unknown flag: --" ++ name
  | unknownLetter letter letters =>
    lit "unknown shorthand flag: " ++ quotedLetter letter ++ lit " in -" ++ letters
  | missingValue name => lit "flag needs an argument: --" ++ name
  | missingLetterValue letter letters =>
    lit "flag needs an argument: " ++ quotedLetter letter ++ lit " in -" ++ letters
  | flag e => e.message
  | unknownCommand name suggestions =>
    lit "unknown command " ++ name.quoted ++ lit " for " ++ Command.toolName.quoted ++
      (if suggestions.isEmpty then []
        else lit "\n\nDid you mean this?\n" ++
          suggestions.flatMap fun s => lit "\t" ++ s ++ lit "\n")
  | argumentCount expected actual =>
    lit "accepts " ++ Text.ofNat expected ++ lit " arg(s), received " ++ Text.ofNat actual
  | tooFewArguments least actual =>
    lit "requires at least " ++ Text.ofNat least ++ lit " arg(s), only received " ++
      Text.ofNat actual
  | invalidArgument argument command =>
    lit "invalid argument " ++ argument.quoted ++ lit " for " ++
      Text.quoted (Command.toolName ++ lit " " ++ command.name)

/-- The failure that an error is. -/
def failure (e : UsageError) : Failure := ⟨.other, e.message⟩

end UsageError

namespace Flag

/-- The value that a flag gets when it is given without one. -/
def impliedValue? (f : Flag) : Option Text := if f.type = .bool then some (lit "true") else none

/-- The flag of a name. -/
def named? (flags : List Flag) (name : Text) : Option Flag := flags.find? fun f => lit f.name = name

/-- The flag of a letter. -/
def lettered? (flags : List Flag) (letter : UInt8) : Option Flag :=
  flags.find? fun f => f.short.any fun c => ascii c = letter

/-- Sets a flag given on the command line. -/
def assign (f : Flag) (values : FlagValues) (t : Text) : Except UsageError FlagValues :=
  (f.set values t).mapError .flag

end Flag

/-- What a command line says to a command: the values of its flags, and its arguments. -/
structure Arguments where
  /-- The flags that have been set. -/
  flags : FlagValues := []
  /-- The arguments in order. -/
  args : List Text := []
  deriving DecidableEq, Repr

namespace Arguments

/-- What a word is to the one who reads the command line. -/
inductive Word where
  /-- An argument. -/
  | argument
  /-- The end of the flags. -/
  | terminator
  /-- A flag by its name, with what follows the hyphens. -/
  | long (rest : Text)
  /-- Flags by their letters. -/
  | letters (rest : Text)
  deriving DecidableEq, Repr

/-- Classifies a word. -/
def Word.of : Text → Word
  | 45 :: 45 :: [] => .terminator
  | 45 :: 45 :: rest => .long rest
  | 45 :: b :: rest => .letters (b :: rest)
  | _ => .argument

/-- Reads a flag by its name, which may take its value from the words that follow. Gives the values
and whether the next word was used. -/
def readLong (flags : List Flag) (values : FlagValues) (rest : Text) (next : Option Text) :
    Except UsageError (FlagValues × Bool) :=
  match rest with
  | [] => .error (.malformed (lit "--"))
  | b :: _ =>
    if b = ascii '-' || b = ascii '=' then .error (.malformed (lit "--" ++ rest))
    else
      let name := rest.takeWhile (· ≠ ascii '=')
      match Flag.named? flags name with
      | none => .error (.unknownFlag name)
      | some f =>
        match rest.drop name.length, f.impliedValue?, next with
        | _ :: value, _, _ => (f.assign values value).map fun v => (v, false)
        | [], some value, _ => (f.assign values value).map fun v => (v, false)
        | [], none, some value => (f.assign values value).map fun v => (v, true)
        | [], none, none => .error (.missingValue name)

/-- Reads flags by their letters, of which the last may take its value from the next word. -/
def readLetters (flags : List Flag) (next : Option Text) :
    FlagValues → Text → Except UsageError (FlagValues × Bool)
  | values, [] => .ok (values, false)
  | values, letter :: rest =>
    -- What looks like an option of a test runner is passed over.
    if Text.startsWith (letter :: rest) (lit "test.") then .ok (values, false)
    else
      match Flag.lettered? flags letter with
      | none => .error (.unknownLetter letter (letter :: rest))
      | some f =>
        match rest, f.impliedValue?, next with
        | 61 :: b :: value, _, _ => (f.assign values (b :: value)).map fun v => (v, false)
        | rest, some value, _ => do readLetters flags next (← f.assign values value) rest
        | b :: value, none, _ => (f.assign values (b :: value)).map fun v => (v, false)
        | [], none, some value => (f.assign values value).map fun v => (v, true)
        | [], none, none => .error (.missingLetterValue letter [letter])

/-- Adds an argument. -/
def push (a : Arguments) (word : Text) : Arguments := { a with args := a.args ++ [word] }

/-- Reads words behind those that have been read. The flag says whether the first of them has been
used as a value already. -/
def readFrom (flags : List Flag) : Arguments → Bool → List Text → Except UsageError Arguments
  | a, _, [] => .ok a
  | a, true, _ :: rest => readFrom flags a false rest
  | a, false, word :: rest =>
    match Word.of word with
    | .argument => readFrom flags (a.push word) false rest
    | .terminator => .ok { a with args := a.args ++ rest }
    | .long name => do
      let (values, used) ← readLong flags a.flags name rest.head?
      readFrom flags { a with flags := values } used rest
    | .letters letters => do
      let (values, used) ← readLetters flags rest.head? a.flags letters
      readFrom flags { a with flags := values } used rest

/-- Reads the words of a command line. -/
def read (flags : List Flag) (words : List Text) : Except UsageError Arguments :=
  readFrom flags {} false words

/-- The value of a truth flag. -/
def bool (a : Arguments) (name : String) : Bool := a.flags.lookup name = some (.bool true)

/-- The value of a text flag; nothing if it has not been set. -/
def text (a : Arguments) (name : String) : Text :=
  match a.flags.lookup name with
  | some (.text t) => t
  | _ => []

/-- The value of a number flag. -/
def int (a : Arguments) (name : String) (default : Int) : Int :=
  match a.flags.lookup name with
  | some (.int n) => n
  | _ => default

end Arguments

end CubeSchema
