import CubeSchema.Text.Basic

/-!
# Integers of 64 bits in text

An integer is written with an optional sign, an optional sign of its base (`0x`, `0o`, `0b`, or a
leading zero for octal) and digits, which single lines below may separate.
-/

namespace CubeSchema.Integer

/-- Why a text is no integer of 64 bits. -/
inductive Fault where
  /-- It is no integer at all. -/
  | malformed
  /-- It is an integer that 64 bits do not hold. -/
  | outOfRange
  deriving DecidableEq, Repr

/-- The wording of a fault. -/
def Fault.message : Fault → Text
  | malformed => lit "invalid syntax"
  | outOfRange => lit "value out of range"

/-- The line below, which may separate digits. -/
def separator : UInt8 := ascii '_'

/-- The value of a digit in any base up to 36. -/
def digit? (b : UInt8) : Option Nat :=
  if Text.isDigit b then some (b.toNat - 48)
  else if Text.isLower b then some (b.toNat - 87)
  else if Text.isUpper b then some (b.toNat - 55)
  else none

/-- The base that a text without sign is written in, and what follows the sign of the base. -/
def baseOf (t : Text) : Nat × Text :=
  match t with
  | 48 :: x :: d :: rest =>
    let l := Text.lower [x]
    if l = lit "b" then (2, d :: rest)
    else if l = lit "o" then (8, d :: rest)
    else if l = lit "x" then (16, d :: rest)
    else (8, x :: d :: rest)
  | 48 :: rest => (8, rest)
  | _ => (10, t)

/-- Whether every separator stands between two digits; the sign of a base counts as a digit.
`digit` says whether a digit has just been read, `apart` whether a separator has. -/
def separates (hex : Bool) : Bool → Bool → Text → Bool
  | _, apart, [] => !apart
  | digit, apart, b :: rest =>
    if Text.isDigit b || (hex && (Text.hexValue? b).isSome) then separates hex true false rest
    else if b = separator then digit && separates hex false true rest
    else !apart && separates hex false false rest

/-- Whether the separators of a text without sign stand where they may. -/
def wellSeparated (t : Text) : Bool :=
  match t with
  | 48 :: x :: rest =>
    let l := Text.lower [x]
    if l = lit "x" then separates true true false rest
    else if l = lit "b" || l = lit "o" then separates false true false rest
    else separates false false false t
  | _ => separates false false false t

/-- The value of digits that follow the value `n`, at most `limit`. -/
def digits (base limit : Nat) : Nat → Text → Except Fault Nat
  | n, [] => .ok n
  | n, b :: rest =>
    if b = separator then digits base limit n rest
    else
      match digit? b with
      | none => .error .malformed
      | some d =>
        if base ≤ d then .error .malformed
        else if limit < base * n + d then .error .outOfRange
        else digits base limit (base * n + d) rest

/-- The greatest number of 64 bits without sign. -/
def maxUnsigned : Nat := 0xFFFFFFFFFFFFFFFF

/-- Reads a number without sign of 64 bits. -/
def readUnsigned (t : Text) : Except Fault Nat :=
  if t.isEmpty then .error .malformed
  else
    let (base, ds) := baseOf t
    match digits base maxUnsigned 0 ds with
    | .ok n => if List.contains t separator && !wellSeparated t then .error .malformed else .ok n
    | .error e => .error e

/-- Whether a text starts with a minus sign, and what follows its sign. -/
def signOf (t : Text) : Bool × Text :=
  match t with
  | b :: rest =>
    if b = ascii '-' then (true, rest)
    else if b = ascii '+' then (false, rest)
    else (false, t)
  | [] => (false, [])

/-- Reads an integer of 64 bits. -/
def read (t : Text) : Except Fault Int :=
  let (negative, ds) := signOf t
  match readUnsigned ds with
  | .error e => .error e
  | .ok n =>
    if negative then (if n ≤ 0x8000000000000000 then .ok (-n) else .error .outOfRange)
    else if n < 0x8000000000000000 then .ok n
    else .error .outOfRange

/-- Reads digits in a given base as an integer of 64 bits; there are no separators. -/
def readBase? (base : Nat) (t : Text) : Option Int :=
  let (negative, ds) := signOf t
  if ds.isEmpty || List.contains ds separator then none
  else
    match digits base maxUnsigned 0 ds with
    | .error _ => none
    | .ok n =>
      if negative then (if n ≤ 0x8000000000000000 then some (-n) else none)
      else if n < 0x8000000000000000 then some n else none

/-- The integer of 64 bits that differs from `n` by a multiple of `2 ^ 64`. -/
def wrap (n : Int) : Int := Int.bmod n 0x10000000000000000

end CubeSchema.Integer
