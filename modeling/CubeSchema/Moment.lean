import CubeSchema.Text.Basic

/-!
# Moments and durations

A moment is the number of milliseconds since the beginning of 1970 in universal time; a duration is
a number of milliseconds. The calendar is the one with leap years by the rules of four, hundred and
four hundred.
-/

namespace CubeSchema

/-- A day of the calendar. -/
structure Date where
  /-- The year. -/
  year : Int
  /-- The month, from one. -/
  month : Nat
  /-- The day of the month, from one. -/
  day : Nat
  deriving DecidableEq, Repr

/-- The date of a number of days since the beginning of 1970. Years are counted from March, so that
a leap day is the last day of its year, and in eras of four hundred years, all of which have the
same number of days. -/
def Date.ofDays (days : Int) : Date :=
  let shifted := days + 719468
  let era := Int.fdiv shifted 146097
  let dayOfEra := (Int.fmod shifted 146097).toNat
  let yearOfEra := (dayOfEra - dayOfEra / 1460 + dayOfEra / 36524 - dayOfEra / 146096) / 365
  let dayOfYear := dayOfEra - (365 * yearOfEra + yearOfEra / 4 - yearOfEra / 100)
  let monthFromMarch := (5 * dayOfYear + 2) / 153
  let month := if monthFromMarch < 10 then monthFromMarch + 3 else monthFromMarch - 9
  { year := yearOfEra + 400 * era + (if month ≤ 2 then 1 else 0)
    month
    day := dayOfYear - (153 * monthFromMarch + 2) / 5 + 1 }

namespace Moment

/-- A number with leading zeros. -/
def digits (width n : Nat) : Text :=
  let t := Text.ofNat n
  List.replicate (width - t.length) (ascii '0') ++ t

/-- The day of a moment as year, month and day. -/
def day (ms : Int) : Text :=
  let d := Date.ofDays (Int.fdiv ms 86400000)
  digits 4 d.year.toNat ++ lit "-" ++ digits 2 d.month ++ lit "-" ++ digits 2 d.day

/-- The time of day of a moment in hours, minutes and seconds. -/
def clock (ms : Int) : Text :=
  let s := (Int.fmod ms 86400000).toNat / 1000
  digits 2 (s / 3600) ++ lit ":" ++ digits 2 (s / 60 % 60) ++ lit ":" ++ digits 2 (s % 60)

/-- A part of a second behind the point, without the zeros at its end; nothing if there is no such
part. -/
def fraction (ms : Nat) : Text :=
  if ms = 0 then []
  else ascii '.' :: Text.trimRightBy (· = ascii '0') (digits 3 ms)

/-- Day and time of day with a space between them. -/
def display (ms : Int) : Text := day ms ++ lit " " ++ clock ms

/-- Day and time of day in one word, with the part of a second and the mark of universal time. -/
def stamp (ms : Int) : Text :=
  day ms ++ lit "T" ++ clock ms ++ fraction (Int.fmod ms 1000).toNat ++ lit "Z"

/-- A duration in hours, minutes and seconds, without leading parts that are zero; what is less than
a second is given in milliseconds. -/
def duration (ms : Int) : Text :=
  let sign := if ms < 0 then lit "-" else []
  let n := ms.natAbs
  let seconds := Text.ofNat (n / 1000 % 60) ++ fraction (n % 1000) ++ lit "s"
  if n = 0 then lit "0s"
  else if n < 1000 then sign ++ Text.ofNat n ++ lit "ms"
  else if n < 60000 then sign ++ seconds
  else if n < 3600000 then sign ++ Text.ofNat (n / 60000) ++ lit "m" ++ seconds
  else
    sign ++ Text.ofNat (n / 3600000) ++ lit "h" ++ Text.ofNat (n / 60000 % 60) ++ lit "m" ++ seconds

end Moment

end CubeSchema
