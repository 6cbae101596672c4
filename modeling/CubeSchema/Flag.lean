import CubeSchema.Failure
import CubeSchema.Number.Integer
import CubeSchema.Text.Csv
import CubeSchema.Text.Quoted

/-!
# Flags

Named options of the command line with a value of a given type. The texts that a flag can be set to
are those of its type; a flag that takes a list adds to it every time it is set.
-/

namespace CubeSchema

/-- The type of a flag's value. -/
inductive FlagType where
  /-- A text. -/
  | text
  /-- A list of texts, given as comma separated fields. -/
  | texts
  /-- An integer of 64 bits. -/
  | int
  /-- A truth value; such a flag may be set without a value. -/
  | bool
  deriving DecidableEq, Repr

/-- A flag. -/
structure Flag where
  /-- The name behind two hyphens. -/
  name : String
  /-- The type of its value. -/
  type : FlagType
  /-- The letter behind one hyphen. -/
  short : Option Char := none
  deriving DecidableEq, Repr

/-- A value of a flag. -/
inductive FlagValue where
  /-- A text. -/
  | text (t : Text)
  /-- A list of texts. -/
  | texts (ts : List Text)
  /-- An integer. -/
  | int (n : Int)
  /-- A truth value. -/
  | bool (b : Bool)
  deriving DecidableEq, Repr

/-- The flags that have been set, with their values; every name occurs once. -/
abbrev FlagValues := List (String × FlagValue)

/-- The words for truth values. -/
def readBool? (t : Text) : Option Bool :=
  if (["1", "t", "T", "TRUE", "true", "True"].map lit).contains t then some true
  else if (["0", "f", "F", "FALSE", "false", "False"].map lit).contains t then some false
  else none

/-- Why a flag cannot be set. -/
inductive FlagError where
  /-- There is no flag of that name. -/
  | unknown (name : Text)
  /-- The text is no value of the flag's type. -/
  | invalid (flag : Flag) (value reason : Text)
  deriving DecidableEq, Repr

/-- How a flag is called in an error. -/
def Flag.display (f : Flag) : Text :=
  (match f.short with
    | some c => ascii '-' :: ascii c :: lit ", "
    | none => []) ++ lit "--" ++ lit f.name

/-- The wording of an error. -/
def FlagError.message : FlagError → Text
  | unknown name => lit "no such flag -" ++ name
  | invalid flag value reason =>
    lit "invalid argument " ++ value.quoted ++ lit " for " ++ flag.display.quoted ++
      lit " flag: " ++ reason

/-- The failure that an error is. -/
def FlagError.failure (e : FlagError) : Failure := ⟨.other, e.message⟩

namespace Flag

/-- The value of a flag after setting it to a text. -/
def parse (f : Flag) (old : Option FlagValue) (t : Text) : Except FlagError FlagValue :=
  match f.type with
  | .text => .ok (.text t)
  | .texts =>
    let before := match old with
      | some (.texts ts) => ts
      | _ => []
    match Csv.fields t with
    | .ok ts => .ok (.texts (before ++ ts))
    | .error e => .error (.invalid f t e.message)
  | .int =>
    match Integer.read t with
    | .ok n => .ok (.int n)
    | .error e =>
      .error (.invalid f t (lit "strconv.ParseInt: parsing " ++ t.quoted ++ lit ": " ++ e.message))
  | .bool =>
    match readBool? t with
    | some b => .ok (.bool b)
    | none =>
      .error (.invalid f t
        (lit "strconv.ParseBool: parsing " ++ t.quoted ++ lit ": invalid syntax"))

/-- Sets a flag. -/
def set (f : Flag) (values : FlagValues) (t : Text) : Except FlagError FlagValues := do
  let v ← f.parse (values.lookup f.name) t
  return values.filter (fun e => e.1 ≠ f.name) ++ [(f.name, v)]

end Flag

/-- Sets a flag by its name. -/
def FlagValues.setByName (flags : List Flag) (values : FlagValues) (name t : Text) :
    Except FlagError FlagValues :=
  match flags.find? fun f => lit f.name = name with
  | some f => f.set values t
  | none => .error (.unknown name)

end CubeSchema
