import PhpRuntime.Lib.Calendar
import PhpRuntime.Lib.LeapRule
import PhpRuntime.Text.CInt

/-!
# Serial day numbers

The conversions between serial day numbers and dates of the Gregorian and the Julian
calendar. Inside, the years begin on 1 March and are counted from 4801 B.C., so that they are
not negative; the dates have no year 0.
-/

set_option autoImplicit false

namespace PhpRuntime.Date

open PhpRuntime.Lib
open PhpRuntime.Text (Undefined INT_MAX LONG_MAX intValue toInt)

def GREGOR_SDN_OFFSET : ℤ := 32045

def JULIAN_SDN_OFFSET : ℤ := 32083

def DAYS_PER_5_MONTHS : ℤ := 153

def DAYS_PER_4_YEARS : ℤ := 1461

def DAYS_PER_400_YEARS : ℤ := 146097

/-- What the conversions of a day number leave behind when they fail. -/
def noDate : CalendarDate := ⟨0, 0, 0⟩

/-- The end that both conversions of a day number have: the month and the day of a day of
the year that begins on 1 March, the beginning of the year on 1 January and the years without
a year 0. -/
def normalDate (year dayOfYear : ℤ) : Except Undefined CalendarDate := do
  let temp := dayOfYear * 5 - 3
  let month := toInt (temp.tdiv DAYS_PER_5_MONTHS)
  let day := toInt ((temp.tmod DAYS_PER_5_MONTHS).tdiv 5 + 1)
  let year ← if month < 10 then .ok year else intValue (year + 1)
  let month := if month < 10 then month + 3 else month - 9
  let year ← intValue (year - 4800)
  let year ← if year ≤ 0 then intValue (year - 1) else .ok year
  return ⟨year, month, day⟩

/-- `SdnToGregorian` -/
def sdnToGregorian (sdn : ℤ) : Except Undefined CalendarDate :=
  if sdn ≤ 0 ∨ (LONG_MAX - 4 * GREGOR_SDN_OFFSET).tdiv 4 < sdn then .ok noDate
  else do
    let temp := (sdn + GREGOR_SDN_OFFSET) * 4 - 1
    -- the quotient is a `long`, the century an `int`
    let century := toInt (temp.tdiv DAYS_PER_400_YEARS)
    let temp := ((temp.tmod DAYS_PER_400_YEARS).tdiv 4) * 4 + 3
    let hundreds ← intValue (century * 100)
    let year := toInt (hundreds + temp.tdiv DAYS_PER_4_YEARS)
    normalDate year (toInt ((temp.tmod DAYS_PER_4_YEARS).tdiv 4 + 1))

/-- `SdnToJulian` -/
def sdnToJulian (sdn : ℤ) : Except Undefined CalendarDate :=
  if sdn ≤ 0 ∨ (LONG_MAX - JULIAN_SDN_OFFSET * 4 + 1).tdiv 4 < sdn then .ok noDate
  else
    let temp := sdn * 4 + (JULIAN_SDN_OFFSET * 4 - 1)
    let yearl := temp.tdiv DAYS_PER_4_YEARS
    if INT_MAX < yearl ∨ yearl < -INT_MAX - 1 then .ok noDate
    else normalDate yearl (toInt ((temp.tmod DAYS_PER_4_YEARS).tdiv 4 + 1))

/-- The beginning that both conversions of a date share once the date is not refused: the
year is made positive and begins on 1 March. -/
def internalYear (inputYear inputMonth : ℤ) : Except Undefined ℤ := do
  let year ← intValue (if inputYear < 0 then inputYear + 4801 else inputYear + 4800)
  if inputMonth > 2 then return year else intValue (year - 1)

/-- The month that `internalYear` goes with. -/
def internalMonth (inputMonth : ℤ) : ℤ :=
  if inputMonth > 2 then inputMonth - 3 else inputMonth + 9

/-- The dates that both conversions of a date refuse: there is no such date, or it is before
the first year of the calendar. -/
def refused (firstYear inputYear inputMonth inputDay : ℤ) : Prop :=
  inputYear = 0 ∨ inputYear < firstYear ∨ inputMonth ≤ 0 ∨ 12 < inputMonth ∨
    inputDay ≤ 0 ∨ 31 < inputDay

instance (firstYear inputYear inputMonth inputDay : ℤ) :
    Decidable (refused firstYear inputYear inputMonth inputDay) := by
  unfold refused
  infer_instance

/-- `GregorianToSdn` -/
def gregorianToSdn (inputYear inputMonth inputDay : ℤ) : Except Undefined ℤ :=
  if refused (-4714) inputYear inputMonth inputDay then .ok 0
  -- before 25 November 4714 B.C.
  else if inputYear = -4714 ∧ (inputMonth < 11 ∨ inputMonth = 11 ∧ inputDay < 25) then .ok 0
  else do
    let year ← internalYear inputYear inputMonth
    let month := internalMonth inputMonth
    let centuries ← intValue (year.tdiv 100 * DAYS_PER_400_YEARS)
    let years ← intValue (year.tmod 100 * DAYS_PER_4_YEARS)
    intValue (centuries.tdiv 4 + years.tdiv 4 + (month * DAYS_PER_5_MONTHS + 2).tdiv 5 +
      inputDay - GREGOR_SDN_OFFSET)

/-- `JulianToSdn` -/
def julianToSdn (inputYear inputMonth inputDay : ℤ) : Except Undefined ℤ :=
  if refused (-4713) inputYear inputMonth inputDay then .ok 0
  -- before 2 January 4713 B.C.
  else if inputYear = -4713 ∧ inputMonth = 1 ∧ inputDay = 1 then .ok 0
  else do
    let year ← internalYear inputYear inputMonth
    let month := internalMonth inputMonth
    let days ← intValue (year * DAYS_PER_4_YEARS)
    intValue (days.tdiv 4 + (month * DAYS_PER_5_MONTHS + 2).tdiv 5 + inputDay -
      JULIAN_SDN_OFFSET)

/-! ## The two calendars -/

def gregorian : LeapRule where
  Leap := Calendar.Leap
  decLeap := inferInstance
  leapsThrough := Calendar.leapsThrough
  leapsThrough_succ := Calendar.leapsThrough_succ

def julian : LeapRule where
  Leap y := y % 4 = 0
  decLeap := inferInstance
  leapsThrough y := y / 4
  leapsThrough_succ y := by split <;> omega

/-- The years without a year 0, counted with one. -/
def astronomical (d : CalendarDate) : CalendarDate :=
  { d with year := if d.year < 0 then d.year + 1 else d.year }

/-- The years with a year 0, counted without one. -/
def historical (d : CalendarDate) : CalendarDate :=
  { d with year := if d.year ≤ 0 then d.year - 1 else d.year }

/-- A date of a calendar that has no year 0. -/
structure ValidSdnDate (r : LeapRule) (d : CalendarDate) : Prop where
  year_ne : d.year ≠ 0
  valid : r.Valid (astronomical d)

/-- The day after a date of a calendar that has no year 0. -/
def nextSdnDate (r : LeapRule) (d : CalendarDate) : CalendarDate :=
  historical (r.nextDay (astronomical d))

example : nextSdnDate gregorian ⟨-1, 12, 31⟩ = ⟨1, 1, 1⟩ := by decide

theorem astronomical_historical (d : CalendarDate) : astronomical (historical d) = d := by
  unfold astronomical historical
  split_ifs with h h' h' <;> dsimp only at *
  · rw [sub_add_cancel]
  · omega
  · omega

theorem historical_astronomical {d : CalendarDate} (h : d.year ≠ 0) :
    historical (astronomical d) = d := by
  unfold astronomical historical
  split_ifs with hneg hpos hpos <;> dsimp only at *
  · rw [add_sub_cancel_right]
  · omega
  · omega

theorem historical_year_ne (d : CalendarDate) : (historical d).year ≠ 0 := by
  unfold historical
  split_ifs <;> dsimp only <;> omega

theorem nextSdnDate_valid {r : LeapRule} {d : CalendarDate} (h : ValidSdnDate r d) :
    ValidSdnDate r (nextSdnDate r d) := by
  refine ⟨historical_year_ne _, ?_⟩
  rw [nextSdnDate, astronomical_historical]
  exact r.nextDay_valid h.valid

end PhpRuntime.Date
