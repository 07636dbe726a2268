/-!
Proleptic Gregorian dates. Years are counted from March, so that the leap day is the last of its
year, and in eras of 400 years, which all have the same number of days.
-/

namespace Backfill

structure Date where
  year : Int
  month : Nat
  day : Nat
  deriving DecidableEq, Repr

namespace Date

def daysPerEra : Int := 146097

/-- Days from 0000-03-01 to 1970-01-01. -/
def epochDay : Int := 719468

/-- The date `n` days after 1970-01-01. -/
def ofDay (n : Int) : Date :=
  let z := n + epochDay
  let era := z / daysPerEra
  let doe := (z % daysPerEra).toNat
  let yoe := (doe - doe / 1460 + doe / 36524 - doe / 146096) / 365
  let doy := doe - (365 * yoe + yoe / 4 - yoe / 100)
  let mp := (5 * doy + 2) / 153
  let month := if mp < 10 then mp + 3 else mp - 9
  ⟨yoe + era * 400 + (if month ≤ 2 then 1 else 0), month, doy - (153 * mp + 2) / 5 + 1⟩

/-- Days from 1970-01-01. -/
def toDay (d : Date) : Int :=
  let y := if d.month ≤ 2 then d.year - 1 else d.year
  let yoe := (y % 400).toNat
  let mp := if d.month ≤ 2 then d.month + 9 else d.month - 3
  let doy := (153 * mp + 2) / 5 + d.day - 1
  let doe := yoe * 365 + yoe / 4 - yoe / 100 + doy
  y / 400 * daysPerEra + doe - epochDay

def isLeap (year : Int) : Bool := year % 4 = 0 && (year % 100 ≠ 0 || year % 400 = 0)

def daysIn (year : Int) (month : Nat) : Nat :=
  if month = 2 then (if isLeap year then 29 else 28)
  else if month ∈ [4, 6, 9, 11] then 30
  else 31

def isValid (d : Date) : Bool :=
  1 ≤ d.month && d.month ≤ 12 && 1 ≤ d.day && d.day ≤ daysIn d.year d.month

end Date

end Backfill
