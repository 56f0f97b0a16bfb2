import Mathlib.Data.Int.Notation
import Mathlib.Order.Defs.LinearOrder

/-!
# Dates

The Gregorian calendar: the date of a day and the day of a date. The years begin in March
where days are counted, so that the day of a leap year is the last one.
-/

namespace Tracewake.Calendar

/-- A date. -/
structure Date where
  year : ℤ
  month : ℤ
  day : ℤ
  deriving DecidableEq

/-- The days of the years of a cycle of four hundred that come before one of them. -/
def daysBefore (year : ℤ) : ℤ := 365 * year + year / 4 - year / 100

/-- The year of a day in a cycle of four hundred years: its century, the four years in the
century, and the year among these. -/
def yearOf (day : ℤ) : ℤ :=
  let century := min 3 (day / 36524)
  let ofCentury := day - 36524 * century
  let four := ofCentury / 1461
  let ofFour := ofCentury - 1461 * four
  100 * century + 4 * four + min 3 (ofFour / 365)

/-- The date of a day of a year that began in March. -/
def dateIn (year ofYear : ℤ) : Date :=
  let month := (5 * ofYear + 2) / 153
  let day := ofYear - (153 * month + 2) / 5 + 1
  if month < 10 then ⟨year, month + 3, day⟩ else ⟨year + 1, month - 9, day⟩

/-- The date of a day, counted from the beginning of 1970. -/
def dateOf (day : ℤ) : Date :=
  let shifted := day + 719468
  let year := yearOf (shifted % 146097)
  dateIn (year + shifted / 146097 * 400) (shifted % 146097 - daysBefore year)

/-- The day of a date. -/
def dayOf (date : Date) : ℤ :=
  let year := if date.month ≤ 2 then date.year - 1 else date.year
  let month := if date.month ≤ 2 then date.month + 9 else date.month - 3
  let ofYear := (153 * month + 2) / 5 + date.day - 1
  year / 400 * 146097 + daysBefore (year % 400) + ofYear - 719468

/-- The year has a day more. -/
def isLeap (year : ℤ) : Bool :=
  year % 4 = 0 && (year % 100 ≠ 0 || year % 400 = 0)

/-- The days of a month. -/
def daysIn (year month : ℤ) : ℤ :=
  if month = 2 then if isLeap year then 29 else 28
  else if month = 4 ∨ month = 6 ∨ month = 9 ∨ month = 11 then 30
  else 31

/-- The date exists. -/
def Date.Valid (date : Date) : Prop :=
  1 ≤ date.month ∧ date.month ≤ 12 ∧ 1 ≤ date.day ∧ date.day ≤ daysIn date.year date.month

instance (date : Date) : Decidable date.Valid :=
  inferInstanceAs (Decidable (_ ∧ _ ∧ _ ∧ _))

/-- The parts of the year of a day in a cycle. -/
theorem yearOf_parts {day : ℤ} (hlow : 0 ≤ day) (hhigh : day < 146097) :
    ∃ century four single ofYear : ℤ, yearOf day = 100 * century + 4 * four + single ∧
      day = 36524 * century + 1461 * four + 365 * single + ofYear ∧
      0 ≤ century ∧ century ≤ 3 ∧ 0 ≤ four ∧ four ≤ 24 ∧ 0 ≤ single ∧ single ≤ 3 ∧
      0 ≤ ofYear ∧ ofYear ≤ 365 ∧
      (ofYear = 365 → single = 3 ∧ (four = 24 → century = 3)) := by
  refine ⟨_, _, _, day - 36524 * min 3 (day / 36524) -
    1461 * ((day - 36524 * min 3 (day / 36524)) / 1461) - 365 * min 3 ((day -
      36524 * min 3 (day / 36524) - 1461 * ((day - 36524 * min 3 (day / 36524)) / 1461)) / 365),
    rfl, ?_⟩
  omega

/-- The year of a day, and the day in it. -/
theorem yearOf_bounds {day : ℤ} (hlow : 0 ≤ day) (hhigh : day < 146097) :
    0 ≤ yearOf day ∧ yearOf day < 400 ∧ 0 ≤ day - daysBefore (yearOf day) ∧
      day - daysBefore (yearOf day) ≤ 365 ∧
      (day - daysBefore (yearOf day) = 365 → isLeap (yearOf day + 1) = true) := by
  obtain ⟨century, four, single, ofYear, hyear, hday, hbounds⟩ := yearOf_parts hlow hhigh
  have hbefore : daysBefore (yearOf day) = 36524 * century + 1461 * four + 365 * single := by
    have hfour : (100 * century + 4 * four + single) / 4 = 25 * century + four := by omega
    have hcentury : (100 * century + 4 * four + single) / 100 = century := by omega
    rw [daysBefore, hyear, hfour, hcentury]
    omega
  refine ⟨by omega, by omega, by omega, by omega, fun hlast => ?_⟩
  simp only [isLeap, Bool.and_eq_true, Bool.or_eq_true, decide_eq_true_eq, hyear]
  omega

/-- A day of a year is a date. -/
theorem dateIn_valid {year ofYear : ℤ} (hlow : 0 ≤ ofYear) (hhigh : ofYear ≤ 365)
    (hleap : ofYear = 365 → isLeap (year + 1) = true) : (dateIn year ofYear).Valid := by
  simp only [Date.Valid, dateIn]
  split
  · simp only [daysIn]
    split <;> omega
  · simp only [daysIn]
    split
    · split
      · omega
      · next hplain =>
        have hnot : ofYear ≠ 365 := fun hlast => hplain (hleap hlast)
        omega
    · omega

/-- The number of a day is that of its year and of its place in the year. -/
theorem dayOf_dateIn {year ofYear : ℤ} (hlow : 0 ≤ ofYear) (hhigh : ofYear ≤ 365) :
    dayOf (dateIn year ofYear) =
      year / 400 * 146097 + daysBefore (year % 400) + ofYear - 719468 := by
  simp only [dateIn]
  split
  · simp only [dayOf]
    rw [if_neg (by omega), if_neg (by omega)]
    omega
  · simp only [dayOf]
    rw [if_pos (by omega), if_pos (by omega), Int.add_sub_cancel]
    omega

/-- The leap years come again after four hundred years. -/
theorem isLeap_add_cycles (year cycle : ℤ) :
    isLeap (year + cycle * 400 + 1) = isLeap (year + 1) := by
  have hfour : (year + cycle * 400 + 1) % 4 = (year + 1) % 4 := by omega
  have hhundred : (year + cycle * 400 + 1) % 100 = (year + 1) % 100 := by omega
  have hcycle : (year + cycle * 400 + 1) % 400 = (year + 1) % 400 := by omega
  rw [isLeap, isLeap, hfour, hhundred, hcycle]

/-- The date of a day exists. -/
theorem dateOf_valid (day : ℤ) : (dateOf day).Valid := by
  obtain ⟨-, -, hday, hday', hleap⟩ := yearOf_bounds
    (Int.emod_nonneg (day + 719468) (by decide)) (Int.emod_lt_of_pos (day + 719468) (by decide))
  apply dateIn_valid hday hday'
  intro hlast
  rw [isLeap_add_cycles]
  exact hleap hlast

/-- The years from 0 to 9999 end with the day that is 2932896 days after the beginning of 1970. -/
theorem dateOf_year (day : ℤ) (hlow : -719468 ≤ day) (hhigh : day < 2932897) :
    0 ≤ (dateOf day).year ∧ (dateOf day).year < 10000 := by
  obtain ⟨hyear, hyear', hday, hday', -⟩ := yearOf_bounds
    (Int.emod_nonneg (day + 719468) (by decide)) (Int.emod_lt_of_pos (day + 719468) (by decide))
  have hcycle : 0 ≤ (day + 719468) / 146097 ∧ (day + 719468) / 146097 ≤ 24 := by omega
  have hsplit := Int.mul_ediv_add_emod (day + 719468) 146097
  simp only [dateOf]
  generalize yearOf ((day + 719468) % 146097) = year at *
  generalize (day + 719468) / 146097 = cycle at *
  generalize (day + 719468) % 146097 = ofCycle at *
  simp only [dateIn]
  split
  · simp only
    omega
  · next hmonth =>
    simp only
    constructor
    · omega
    · by_contra hlate
      obtain rfl : year = 399 := by omega
      obtain rfl : cycle = 24 := by omega
      have hbefore : daysBefore 399 = 145731 := by decide
      omega

/-- The day of the date of a day is that day. -/
theorem dayOf_dateOf (day : ℤ) : dayOf (dateOf day) = day := by
  obtain ⟨hyear, hyear', hday, hday', -⟩ := yearOf_bounds
    (Int.emod_nonneg (day + 719468) (by decide)) (Int.emod_lt_of_pos (day + 719468) (by decide))
  have hsplit := Int.mul_ediv_add_emod (day + 719468) 146097
  rw [dateOf, dayOf_dateIn hday hday']
  generalize yearOf ((day + 719468) % 146097) = year at hyear hyear' ⊢
  have hdiv : (year + (day + 719468) / 146097 * 400) / 400 = (day + 719468) / 146097 := by omega
  have hmod : (year + (day + 719468) / 146097 * 400) % 400 = year := by omega
  rw [hdiv, hmod]
  omega

end Tracewake.Calendar
