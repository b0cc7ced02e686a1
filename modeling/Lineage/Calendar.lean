import Lineage.Text
/-! # Calendar

Dates of the proleptic Gregorian calendar and times of day from seconds since the start of 1970,
within the range of years that the calendar covers.
-/
namespace Lineage.Calendar

structure Moment where
  year : Int
  month : Nat
  day : Nat
  secondOfDay : Nat
  deriving DecidableEq, Repr

def minYear : Int := -262143

def maxYear : Int := 262142

/-- Year, month and day of a day counted from the first of January 1970. Years are taken to begin
in March, so that a leap day is the last day of its year, in eras of four hundred years. -/
def civil (days : Int) : Int × Nat × Nat :=
  let z := days + 719468
  let era := z.fdiv 146097
  let dayOfEra := (z - era * 146097).toNat
  let yearOfEra := (dayOfEra - dayOfEra / 1460 + dayOfEra / 36524 - dayOfEra / 146096) / 365
  let dayOfYear := dayOfEra - (365 * yearOfEra + yearOfEra / 4 - yearOfEra / 100)
  let shifted := (5 * dayOfYear + 2) / 153
  let day := dayOfYear - (153 * shifted + 2) / 5 + 1
  let month := if shifted < 10 then shifted + 3 else shifted - 9
  let year := (yearOfEra : Int) + era * 400
  (if month ≤ 2 then year + 1 else year, month, day)

def moment? (seconds : Int) : Option Moment :=
  let days := seconds.fdiv 86400
  let (year, month, day) := civil days
  if minYear ≤ year ∧ year ≤ maxYear then
    some ⟨year, month, day, (seconds - days * 86400).toNat⟩
  else none

def yearText (year : Int) : String :=
  if year < 0 then "-" ++ Text.paddedNat 4 year.natAbs
  else if 9999 < year then "+" ++ Text.paddedNat 5 year.natAbs
  else Text.paddedNat 4 year.natAbs

def Moment.date (m : Moment) : String :=
  yearText m.year ++ "-" ++ Text.paddedNat 2 m.month ++ "-" ++ Text.paddedNat 2 m.day

def Moment.clock (m : Moment) : String :=
  Text.paddedNat 2 (m.secondOfDay / 3600) ++ ":" ++
    Text.paddedNat 2 (m.secondOfDay / 60 % 60) ++ ":" ++ Text.paddedNat 2 (m.secondOfDay % 60)

/-- A timestamp as a date and a time of day, at the meridian. -/
def stamp (seconds : Int) : String :=
  match moment? seconds with
  | some m => m.date ++ "T" ++ m.clock ++ "+00:00"
  | none => ""

end Lineage.Calendar
