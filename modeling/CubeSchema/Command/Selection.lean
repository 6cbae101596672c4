import CubeSchema.Command.Arguments
import CubeSchema.Text.Case
import CubeSchema.Text.Distance

/-!
# Choosing the command

The command is the first word of the command line that is neither a flag nor the value of one. The
flags in front of it are those of the tool itself, so a flag that is not known there is taken to
have a value. What is left of the command line without that word is for the command.
-/

namespace CubeSchema.Selection

/-- Whether a word is a flag whose value is the next word. -/
def takesNext (flags : List Flag) (word : Text) : Bool :=
  !List.contains word (ascii '=') &&
    match word with
    | 45 :: 45 :: name => !((Flag.named? flags name).any fun f => f.impliedValue?.isSome)
    | [45, letter] => !((Flag.lettered? flags letter).any fun f => f.impliedValue?.isSome)
    | _ => false

/-- Whether a word is a command or an argument as far as its form goes. -/
def isPlain (word : Text) : Bool := word.head? ≠ some (ascii '-')

/-- The words that are neither flags nor values of flags. A flag whose value would be the last word
leaves nothing behind it. -/
def plainWords (flags : List Flag) : List Text → List Text
  | [] => []
  | [word] => if isPlain word && !word.isEmpty then [word] else []
  | word :: next :: rest =>
    if word = lit "--" then []
    else if takesNext flags word then if rest.isEmpty then [] else plainWords flags rest
    else if isPlain word && !word.isEmpty then word :: plainWords flags (next :: rest)
    else plainWords flags (next :: rest)

/-- Leaves out the first word that is the given command and no value of a flag. -/
def without (flags : List Flag) (command : Text) : List Text → List Text
  | [] => []
  | [word] => if word = command then [] else [word]
  | word :: next :: rest =>
    if word = lit "--" then word :: next :: rest
    else if takesNext flags word then word :: next :: without flags command rest
    else if word = command then next :: rest
    else word :: without flags command (next :: rest)

/-- The greatest distance at which a command is suggested. -/
def maxDistance : Nat := 2

/-- The commands that may be meant by a word: those that are close to it, and those that it starts.
-/
def suggestions (word : Text) : List Text :=
  (Command.listed.map Command.name).filter fun name =>
    Text.distance (Text.folded word) name ≤ maxDistance || Text.startsWith name (Text.folded word)

/-- Chooses the command of a command line, and gives what is left of it. -/
def select (words : List Text) : Except UsageError (Command × List Text) :=
  let flags := Command.root.selectionFlags
  match plainWords flags words with
  | [] => .ok (.root, words)
  | word :: _ =>
    match Command.ofName? word with
    | some c => .ok (c, without flags word words)
    | none => .error (.unknownCommand word (suggestions word))

end CubeSchema.Selection
