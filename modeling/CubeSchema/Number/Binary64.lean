import CubeSchema.Text.Basic

/-!
# Numbers of double precision

A finite number is a mantissa below `2 ^ 53` times a power of two whose exponent is at least
`-1074`. Reading a decimal rounds to the nearest such number, ties to the even mantissa; writing
takes the fewest digits that read back as the same number.
-/

namespace CubeSchema

/-- A number of double precision. -/
inductive Binary64 where
  /-- The number `mantissa * 2 ^ exponent`, or its opposite. -/
  | finite (negative : Bool) (mantissa : Nat) (exponent : Int)
  /-- An infinity. -/
  | infinite (negative : Bool)
  /-- No number. -/
  | nan
  deriving DecidableEq, Repr

namespace Binary64

/-- The least exponent. -/
def minExponent : Int := -1074

/-- The greatest exponent. -/
def maxExponent : Int := 971

/-- The quotient `num / (den * 2 ^ q)` rounded to the nearest integer, ties to even. -/
def roundScaled (num den : Nat) (q : Int) : Nat :=
  let n := num * Nat.pow 2 (-q).toNat
  let d := den * Nat.pow 2 q.toNat
  let m := n / d
  let r := n % d
  if 2 * r > d || (2 * r = d && m % 2 = 1) then m + 1 else m

/-- The mantissa and the exponent nearest to a positive quotient. -/
def nearest (num den : Nat) : Nat × Int :=
  let guess : Int := (num.log2 : Int) - den.log2 - 52
  let fits (q : Int) : Bool :=
    num * Nat.pow 2 (-q).toNat < den * Nat.pow 2 q.toNat * 0x20000000000000
  let q := if fits (guess - 1) then guess - 1 else if fits guess then guess else guess + 1
  let q := max q minExponent
  let m := roundScaled num den q
  if m = 0x20000000000000 then (0x10000000000000, q + 1) else (m, q)

/-- The number nearest to `digits * 10 ^ scale`; none when it is too large. -/
def ofDecimal? (negative : Bool) (digits : Nat) (scale : Int) : Option Binary64 :=
  let size : Int := ((Nat.toDigits 10 digits).length : Int) + scale
  if digits = 0 || size < -330 then some (.finite negative 0 minExponent)
  else if size > 310 then none
  else
    let (m, q) := nearest (digits * Nat.pow 10 scale.toNat) (Nat.pow 10 (-scale).toNat)
    if q > maxExponent then none else some (.finite negative m q)

/-- The number nearest to an integer. -/
def ofInt (n : Int) : Binary64 := (ofDecimal? (n < 0) n.natAbs 0).getD .nan

/-- Whether a number is a zero. -/
def isZero : Binary64 → Bool
  | finite _ m _ => m = 0
  | _ => false

/-- The integer part of a number, as 64 bits hold it; a number that they cannot hold gives the least
integer that they can. -/
def toInt64 : Binary64 → Int
  | finite negative m q =>
    let n : Nat := m * Nat.pow 2 q.toNat / Nat.pow 2 (-q).toNat
    let i : Int := if negative then -n else n
    if -0x8000000000000000 ≤ i && i < 0x8000000000000000 then i else -0x8000000000000000
  | _ => -0x8000000000000000

/-- The number of decimal digits of the integer part of a positive quotient, or, below one, minus
the number of zeros behind the point. -/
def magnitude (num den : Nat) : Int :=
  if den ≤ num then (Nat.toDigits 10 (num / den)).length
  else
    1 - (Nat.toDigits 10 (den / num)).length +
      (if den % num = 0 && isPower (den / num) then 1 else 0)
where
  /-- Whether a number is a power of ten. -/
  isPower (n : Nat) : Bool :=
    (Nat.toDigits 10 n).tail.all (· = '0') && (Nat.toDigits 10 n).head? = some '1'

/-- The shortest decimal, at most `fuel` digits longer than `n`, that reads back as `m * 2 ^ q`:
its digits and the power of ten they are multiplied with. -/
def shortestFrom (m : Nat) (q : Int) : Nat → Nat → Nat × Int
  | 0, _ => (m, q)
  | fuel + 1, n =>
    let num := m * Nat.pow 2 q.toNat
    let den := Nat.pow 2 (-q).toNat
    let scale := magnitude num den - n
    let scaledNum := num * Nat.pow 10 (-scale).toNat
    let scaledDen := den * Nat.pow 10 scale.toNat
    let low := scaledNum / scaledDen
    let rest := scaledNum % scaledDen
    let back (d : Nat) : Bool := ofDecimal? false d scale = some (.finite false m q)
    let order := if 2 * rest > scaledDen || (2 * rest = scaledDen && low % 2 = 1)
      then [low + 1, low] else [low, low + 1]
    match order.find? back with
    | some d => (d, scale)
    | none => shortestFrom m q fuel (n + 1)

/-- The shortest decimal of a positive number. -/
def shortest (m : Nat) (q : Int) : Nat × Int := shortestFrom m q 18 1

/-- A number in positional notation with the fewest digits that read back. -/
def positional : Binary64 → Text
  | nan => lit "NaN"
  | infinite negative => if negative then lit "-Inf" else lit "+Inf"
  | finite negative m q =>
    let sign := if negative then lit "-" else []
    if m = 0 then sign ++ lit "0"
    else
      let (d, scale) := shortest m q
      let digits := Text.ofNat d
      if 0 ≤ scale then sign ++ digits ++ List.replicate scale.toNat 48
      else
        let places := (-scale).toNat
        let padded := List.replicate (places + 1 - digits.length) 48 ++ digits
        let fraction := padded.drop (padded.length - places)
        let fraction := Text.trimRightBy (fun b => b = 48) fraction
        let whole := padded.take (padded.length - places)
        sign ++ whole ++ (if fraction.isEmpty then [] else ascii '.' :: fraction)

end Binary64

end CubeSchema
