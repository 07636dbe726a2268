import Backfill.Calendar

/-!
Every day has a date that the calendar knows, and it is told from its date.
-/

namespace Backfill.Date

/-- The year of its era that a day falls in, the days of the era being counted from 0. -/
def yearOfEra (day : Nat) : Nat := (day - day / 1460 + day / 36524 - day / 146096) / 365

/-- The first day of a year of an era. -/
def firstOfYear (year : Nat) : Nat := 365 * year + year / 4 - year / 100

theorem yearOfEra_firstOfYear : ∀ y < 400, yearOfEra (firstOfYear y) = y := by decide +kernel

theorem yearOfEra_before_firstOfYear :
    ∀ y < 400, 0 < y → yearOfEra (firstOfYear y - 1) < y := by decide +kernel

theorem yearOfEra_mono {a b : Nat} (le : a ≤ b) (era : b < 146097) :
    yearOfEra a ≤ yearOfEra b := by
  apply Nat.div_le_div_right
  -- only the last day of an era is at the last of the four corrections
  by_cases last : b = 146096
  · omega
  · have shorter : a - a / 1460 ≤ b - b / 1460 := by omega
    have none : b / 146096 = 0 := by omega
    have corrections : a / 36524 ≤ b / 36524 := Nat.div_le_div_right le
    omega

variable {day year : Nat}

theorem yearOfEra_lt (era : day < 146097) : yearOfEra day < 400 := by
  have := yearOfEra_mono (Nat.le_of_lt_succ era) (by decide)
  have last : yearOfEra 146096 = 399 := by decide
  omega

theorem firstOfYear_le (era : day < 146097) : firstOfYear (yearOfEra day) ≤ day := by
  have bound := yearOfEra_lt era
  apply Nat.le_of_not_lt
  intro before
  have first : 0 < yearOfEra day := by
    apply Nat.pos_of_ne_zero
    intro zero
    rw [zero] at before
    cases before
  have earlier := yearOfEra_before_firstOfYear _ bound first
  have within : firstOfYear (yearOfEra day) - 1 < 146097 := by
    simp only [firstOfYear]
    omega
  exact absurd (yearOfEra_mono (Nat.le_sub_one_of_lt before) within) (Nat.not_le_of_lt earlier)

theorem lt_firstOfYear (era : day < 146097) (notLast : yearOfEra day < 399) :
    day < firstOfYear (yearOfEra day + 1) := by
  apply Nat.lt_of_not_le
  intro after
  have := yearOfEra_mono after era
  rw [yearOfEra_firstOfYear _ (by omega)] at this
  omega

/-- Only a leap year has a 366th day. Years begin in March, so it is the next one by number. -/
theorem dayOfYear_le (era : day < 146097) :
    day - firstOfYear (yearOfEra day) < 365 ∨
      day - firstOfYear (yearOfEra day) = 365 ∧ (yearOfEra day + 1) % 4 = 0 ∧
        ((yearOfEra day + 1) % 100 ≠ 0 ∨ (yearOfEra day + 1) % 400 = 0) := by
  have bound := yearOfEra_lt era
  have first := firstOfYear_le era
  have next := lt_firstOfYear era
  generalize yearOfEra day = y at *
  simp only [firstOfYear] at *
  by_cases last : y = 399
  · subst last
    omega
  · have before := next (by omega)
    -- a year is longer by a day when a fourth one is full, save when a hundredth one is
    have fourth : (y + 1) / 4 = y / 4 + (if (y + 1) % 4 = 0 then 1 else 0) := by
      split <;> omega
    have hundredth : (y + 1) / 100 = y / 100 + (if (y + 1) % 100 = 0 then 1 else 0) := by
      split <;> omega
    split at fourth <;> split at hundredth <;> omega

/-- Months are counted from March. -/
def monthOfYear (day : Nat) : Nat := (5 * day + 2) / 153

def dayOfMonth (day : Nat) : Nat := day - (153 * monthOfYear day + 2) / 5 + 1

/-- The number that a month counted from March has. -/
def monthNumber (month : Nat) : Nat := if month < 10 then month + 3 else month - 9

theorem monthOfYear_lt (h : day < 366) : monthOfYear day < 12 := by
  simp only [monthOfYear]
  omega

/-- In a year without a leap day. -/
theorem dayOfMonth_le : ∀ day < 365, dayOfMonth day ≤ daysIn 1 (monthNumber (monthOfYear day)) := by
  decide +kernel

theorem daysIn_least (y : Int) (month : Nat) : daysIn 1 month ≤ daysIn y month := by
  simp only [daysIn]
  split
  · cases isLeap y <;> decide
  · exact Nat.le_refl _

/-- The date of a day of a year of an era. -/
def ofParts (era : Int) (year dayOfYear : Nat) : Date :=
  let month := monthNumber (monthOfYear dayOfYear)
  ⟨year + era * 400 + (if month ≤ 2 then 1 else 0), month, dayOfMonth dayOfYear⟩

theorem ofDay_eq (n : Int) :
    ofDay n = ofParts ((n + epochDay) / daysPerEra) (yearOfEra ((n + epochDay) % daysPerEra).toNat)
      (((n + epochDay) % daysPerEra).toNat -
        firstOfYear (yearOfEra ((n + epochDay) % daysPerEra).toNat)) := rfl

theorem toDay_ofParts {era : Int} {year day : Nat} (hy : year < 400) (hd : day < 366) :
    (ofParts era year day).toDay =
      era * daysPerEra + (firstOfYear year + day : Nat) - epochDay := by
  have month := monthOfYear_lt hd
  have started : (153 * monthOfYear day + 2) / 5 ≤ day := by
    simp only [monthOfYear]
    omega
  have counted : (153 * monthOfYear day + 2) / 5 + dayOfMonth day - 1 = day := by
    simp only [dayOfMonth]
    omega
  have early : (monthNumber (monthOfYear day) ≤ 2) = (10 ≤ monthOfYear day) := by
    simp only [monthNumber]
    split <;> simp only [eq_iff_iff] <;> omega
  have back : (if 10 ≤ monthOfYear day then monthNumber (monthOfYear day) + 9
      else monthNumber (monthOfYear day) - 3) = monthOfYear day := by
    simp only [monthNumber]
    split <;> split <;> omega
  have own : (if 10 ≤ monthOfYear day then
      (year : Int) + era * 400 + (if 10 ≤ monthOfYear day then 1 else 0) - 1
      else year + era * 400 + (if 10 ≤ monthOfYear day then 1 else 0)) = year + era * 400 := by
    split <;> omega
  simp only [toDay, ofParts, early, own, back]
  have inEra : (((year : Int) + era * 400) % 400).toNat = year := by omega
  have eras : ((year : Int) + era * 400) / 400 = era := by omega
  rw [inEra, eras, counted]
  simp only [firstOfYear]
  omega

theorem isValid_iff {d : Date} : d.isValid = true ↔
    (1 ≤ d.month ∧ d.month ≤ 12) ∧ 1 ≤ d.day ∧ d.day ≤ daysIn d.year d.month := by
  simp [isValid, and_assoc]

theorem isLeap_iff {y : Int} : isLeap y = true ↔ y % 4 = 0 ∧ (y % 100 ≠ 0 ∨ y % 400 = 0) := by
  simp [isLeap]

theorem isValid_ofParts {era : Int} {year day : Nat}
    (leap : day < 365 ∨ day = 365 ∧ (year + 1) % 4 = 0 ∧
      ((year + 1) % 100 ≠ 0 ∨ (year + 1) % 400 = 0)) :
    (ofParts era year day).isValid = true := by
  have month : monthOfYear day < 12 := monthOfYear_lt (by omega)
  refine isValid_iff.mpr ⟨?_, Nat.le_add_left 1 _, ?_⟩
  · simp only [ofParts, monthNumber]
    split <;> omega
  · rcases leap with plain | leap
    · exact Nat.le_trans (dayOfMonth_le day plain) (daysIn_least _ _)
    · obtain ⟨rfl, four, hundred⟩ := leap
      have leapYear : isLeap ((year : Int) + era * 400 + 1) = true := isLeap_iff.mpr (by omega)
      exact Nat.le_of_eq (if_pos leapYear).symm

theorem dayOfEra_lt (n : Int) : (n % daysPerEra).toNat < 146097 := by
  simp only [daysPerEra]
  omega

theorem toDay_ofDay (n : Int) : (ofDay n).toDay = n := by
  have era := dayOfEra_lt (n + epochDay)
  have first := firstOfYear_le era
  have rest := dayOfYear_le era
  rw [ofDay_eq, toDay_ofParts (yearOfEra_lt era) (by omega), Nat.add_sub_cancel' first]
  simp only [daysPerEra, epochDay]
  omega

theorem isValid_ofDay (n : Int) : (ofDay n).isValid = true := by
  rw [ofDay_eq]
  exact isValid_ofParts (dayOfYear_le (dayOfEra_lt _))

end Backfill.Date
