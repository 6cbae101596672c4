import CubeSchema.Number.Binary64
import CubeSchema.Number.Integer

/-!
# The values of YAML scalars

A scalar without quotes is a truth value, a number, a point in time or nothing, if it is written
like one, and text otherwise; a tag may ask for one of these. Tags of the language itself are
written with two exclamation marks.
-/

namespace CubeSchema.Yaml

/-- The beginning that the language's own tags have in full. -/
def longTag : Text := lit "tag:yaml.org,2002:"

/-- A tag in its short form. -/
def shortTag (t : Text) : Text :=
  match Text.after? longTag t with
  | some rest => lit "!!" ++ rest
  | none => t

/-- The value of a scalar. -/
inductive Scalar where
  /-- Nothing. -/
  | null
  /-- A truth value. -/
  | bool (b : Bool)
  /-- An integer. -/
  | int (n : Int)
  /-- A number of double precision. -/
  | float (x : Binary64)
  /-- A point in time, as it is written. -/
  | timestamp (t : Text)
  /-- A text. -/
  | text (t : Text)
  deriving DecidableEq, Repr

/-- The tag of a value. -/
def Scalar.tag : Scalar → Text
  | null => lit "!!null"
  | bool _ => lit "!!bool"
  | int _ => lit "!!int"
  | float _ => lit "!!float"
  | timestamp _ => lit "!!timestamp"
  | text _ => lit "!!str"

/-! ## Points in time -/

/-- One or two digits at the front, with what follows. -/
def shortNumber? (t : Text) : Option (Nat × Text) :=
  match t with
  | a :: rest =>
    if !Text.isDigit a then none
    else
      match rest with
      | b :: rest' =>
        if Text.isDigit b then some (10 * (a.toNat - 48) + (b.toNat - 48), rest')
        else some (a.toNat - 48, rest)
      | [] => some (a.toNat - 48, [])
  | [] => none

/-- What follows a character at the front. -/
def behind? (c : Char) (t : Text) : Option Text := Text.after? [ascii c] t

/-- The number of days of a month. -/
def daysIn (year month : Nat) : Nat :=
  if month = 2 then (if year % 4 = 0 && (year % 100 ≠ 0 || year % 400 = 0) then 29 else 28)
  else if month ∈ [4, 6, 9, 11] then 30
  else 31

/-- A date at the front: a year of four digits, a month and a day. -/
def date? (t : Text) : Option Text := do
  let year ← Text.toNat? (t.take 4)
  if (t.take 4).length ≠ 4 then none
  else
    let t ← behind? '-' (t.drop 4)
    let (month, t) ← shortNumber? t
    let t ← behind? '-' t
    let (day, t) ← shortNumber? t
    if 1 ≤ month && month ≤ 12 && 1 ≤ day && day ≤ daysIn year month then some t else none

/-- A time of day at the front, with parts of a second behind a point or a comma. -/
def clock? (t : Text) : Option Text := do
  let (hour, t) ← shortNumber? t
  let t ← behind? ':' t
  let (minute, t) ← shortNumber? t
  let t ← behind? ':' t
  let (second, t) ← shortNumber? t
  if hour ≥ 24 || minute ≥ 60 || second ≥ 60 then none
  else
    match t with
    | p :: d :: rest =>
      if (p = ascii '.' || p = ascii ',') && Text.isDigit d then some (rest.dropWhile Text.isDigit)
      else some t
    | _ => some t

/-- The offset of a time zone up to the end: the letter `Z`, or a sign, hours and minutes. -/
def isZone (t : Text) : Bool :=
  match t with
  | [90] => true
  | [s, a, b, c, d, e] =>
    (s = ascii '+' || s = ascii '-') && Text.isDigit a && Text.isDigit b && c = ascii ':' &&
      Text.isDigit d && Text.isDigit e && (Text.toNat? [a, b]).any (· ≤ 24) &&
      (Text.toNat? [d, e]).any (· ≤ 60)
  | _ => false

/-- Whether a text is written like a point in time: a date, or a date and a time. -/
def isTimestamp (t : Text) : Bool :=
  match date? t with
  | none => false
  | some [] => true
  | some (b :: rest) =>
    if b = ascii 'T' || b = ascii 't' then (clock? rest).any isZone
    else if b = ascii ' ' then
      (clock? (rest.dropWhile fun c => c = ascii ' ')).any List.isEmpty
    else false

/-! ## Numbers -/

/-- Digits at the front and what follows. -/
def digitRun (t : Text) : Text × Text := (t.takeWhile Text.isDigit, t.dropWhile Text.isDigit)

/-- The exponent of a decimal up to its end; none of it is zero. -/
def exponent? (t : Text) : Option Int :=
  match t with
  | [] => some 0
  | e :: rest =>
    if e = ascii 'e' || e = ascii 'E' then
      let (negative, ds) := Integer.signOf rest
      (Text.toNat? ds).map fun n => if negative then -n else n
    else none

/-- A decimal: digits with an optional point among them, and an optional exponent. -/
def float? (t : Text) : Option Binary64 := do
  let (negative, t) := Integer.signOf t
  let (whole, t) := digitRun t
  let (fraction, t, point) := match t with
    | 46 :: rest => ((digitRun rest).1, (digitRun rest).2, true)
    | _ => ([], t, false)
  if whole.isEmpty && (fraction.isEmpty || !point) then none
  else
    let e ← exponent? t
    let d ← Text.toNat? (whole ++ fraction)
    Binary64.ofDecimal? negative d (e - fraction.length)

/-- An integer, in the bases of the language; one without sign may take all 64 bits. -/
def int? (t : Text) : Option Int :=
  match Integer.read t with
  | .ok n => some n
  | .error _ =>
    match Integer.readUnsigned t with
    | .ok n => some n
    | .error _ => none

/-- An integer behind a sign of its base that itself may have a sign. -/
def basedInt? (t : Text) : Option Int :=
  let based (mark : String) (base : Nat) : Option Int :=
    match Text.after? (lit mark) t with
    | some ds => Integer.readBase? base ds
    | none =>
      match Text.after? (lit "-" ++ lit mark) t with
      | some ds => Integer.readBase? base (ascii '-' :: ds)
      | none => none
  (based "0b" 2).orElse fun _ => based "0o" 8

/-! ## Scalars without quotes -/

/-- The words for truth values, nothing and the numbers that have no digits. -/
def word? (t : Text) : Option Scalar :=
  if (["true", "True", "TRUE"].map lit).contains t then some (.bool true)
  else if (["false", "False", "FALSE"].map lit).contains t then some (.bool false)
  else if (["", "~", "null", "Null", "NULL"].map lit).contains t then some .null
  else if ([".nan", ".NaN", ".NAN"].map lit).contains t then some (.float .nan)
  else if ([".inf", ".Inf", ".INF", "+.inf", "+.Inf", "+.INF"].map lit).contains t then
    some (.float (.infinite false))
  else if (["-.inf", "-.Inf", "-.INF"].map lit).contains t then some (.float (.infinite true))
  else none

/-- The value of a scalar without quotes; only where `time` holds may it be a point in time. -/
def Scalar.ofPlain (time : Bool) (t : Text) : Scalar :=
  match word? t with
  | some s => s
  | none =>
    match t with
    | [] => .null
    | b :: _ =>
      if b = ascii '.' then ((float? t).map Scalar.float).getD (.text t)
      else if Text.isDigit b || b = ascii '+' || b = ascii '-' then
        if time && isTimestamp t then .timestamp t
        else
          let plain := t.filter fun b => b ≠ Integer.separator
          match int? plain, float? plain, basedInt? plain with
          | some n, _, _ => .int n
          | none, some x, _ => .float x
          | none, none, some n => .int n
          | none, none, none => .text t
      else .text t

/-- The six bits of a character of base 64. -/
def sextet? (b : UInt8) : Option Nat :=
  if Text.isUpper b then some (b.toNat - 65)
  else if Text.isLower b then some (b.toNat - 71)
  else if Text.isDigit b then some (b.toNat + 4)
  else if b = ascii '+' then some 62
  else if b = ascii '/' then some 63
  else none

/-- The bytes of a text in base 64, filled up to groups of four by equals signs. -/
def base64? : Text → Option Text
  | [] => some []
  | [a, b, 61, 61] => do
    let a ← sextet? a
    let b ← sextet? b
    return [(a * 4 + b / 16).toUInt8]
  | [a, b, c, 61] => do
    let a ← sextet? a
    let b ← sextet? b
    let c ← sextet? c
    return [(a * 4 + b / 16).toUInt8, (b % 16 * 16 + c / 4).toUInt8]
  | a :: b :: c :: d :: rest => do
    let a ← sextet? a
    let b ← sextet? b
    let c ← sextet? c
    let d ← sextet? d
    let bytes ← base64? rest
    return (a * 4 + b / 16).toUInt8 :: (b % 16 * 16 + c / 4).toUInt8 ::
      (c % 4 * 64 + d).toUInt8 :: bytes
  | _ => none

/-- The value of a scalar with a tag; none when the text is not what the tag asks for. -/
def Scalar.ofTagged? (tag t : Text) : Option Scalar :=
  if tag = lit "!!str" then some (.text t)
  else if tag = lit "!!binary" then
    (base64? (t.filter fun b => b ≠ 10 && b ≠ 13)).map .text
  else if (["!!bool", "!!int", "!!float", "!!null", "!!timestamp"].map lit).contains tag then
    let s := Scalar.ofPlain (tag = lit "!!timestamp") t
    match s with
    | .int n =>
      if tag = lit "!!float" && n < 0x8000000000000000 then some (.float (Binary64.ofInt n))
      else if tag = s.tag then some s else none
    | _ => if tag = s.tag then some s else none
  else some (.text t)

end CubeSchema.Yaml
