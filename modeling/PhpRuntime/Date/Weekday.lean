import PhpRuntime.Date.Civil
import PhpRuntime.Lib.Weekday

/-!
# Weekdays and ISO weeks

`timelib_day_of_week`, `timelib_isoweek_from_date` and `timelib_daynr_from_weeknr`
(`ext/date/lib/dow.c`). The weekday is a sum modulo 7 over the century, the year in the century, the
month and the day. Before 1600 the rounding towards zero makes the sum wrong for some years, and
before the year 0 the remainder may be negative; elsewhere the weekday and the week are right.
-/

set_option autoImplicit false

namespace PhpRuntime.Date

open PhpRuntime.Lib.Calendar

def mTableCommon : List ℤ := [-1, 0, 3, 3, 6, 1, 4, 6, 2, 5, 0, 3, 5]

def mTableLeap : List ℤ := [-1, 6, 2, 3, 6, 1, 4, 6, 2, 5, 0, 3, 5]

/-- `century_value` -/
def centuryValue (j : ℤ) : ℤ :=
  let i := j - 17
  let c := (4 - i * 2 + (i + 1).tdiv 4).tmod 7
  if c < 0 then c + 7 else c

/-- `m1`: the value of the month. -/
def monthValue (y m : ℤ) : ℤ :=
  if timelibIsLeap y then mTableLeap.getD m.toNat 0 else mTableCommon.getD m.toNat 0

def weekdaySum (y m d : ℤ) : ℤ :=
  centuryValue (y.tdiv 100) + y.tmod 100 + monthValue y m + (y.tmod 100).tdiv 4 + d

/-- `timelib_day_of_week_ex` -/
def timelibDayOfWeekEx (y m d : ℤ) (iso : Bool) : ℤ :=
  let dow := (weekdaySum y m d).tmod 7
  if iso ∧ dow = 0 then 7 else dow

def timelibDayOfWeek (y m d : ℤ) : ℤ := timelibDayOfWeekEx y m d false

def timelibIsoDayOfWeek (y m d : ℤ) : ℤ := timelibDayOfWeekEx y m d true

def dTableCommon : List ℤ := [0, 0, 31, 59, 90, 120, 151, 181, 212, 243, 273, 304, 334]

def dTableLeap : List ℤ := [0, 0, 31, 60, 91, 121, 152, 182, 213, 244, 274, 305, 335]

/-- `timelib_day_of_year` -/
def timelibDayOfYear (y m d : ℤ) : ℤ :=
  (if timelibIsLeap y then dTableLeap.getD m.toNat 0 else dTableCommon.getD m.toNat 0) + d - 1

/-- The three cases of `timelib_isoweek_from_date`: the year and the week, from the day of the year
and the weekdays of 1 January and of the date, 1 to 7. -/
def isoweekCases (y : ℤ) (yLeap prevYLeap : Bool) (doy jan1weekday weekday : ℤ) : ℤ × ℤ :=
  if doy ≤ 8 - jan1weekday ∧ 4 < jan1weekday then
    (y - 1, if jan1weekday = 5 ∨ (jan1weekday = 6 ∧ prevYLeap) then 53 else 52)
  else if (if yLeap then 366 else 365) - (doy - if yLeap then 1 else 0) < 4 - weekday then
    (y + 1, 1)
  else
    let j := doy + (7 - weekday) + (jan1weekday - 1)
    (y, if 4 < jan1weekday then j.tdiv 7 - 1 else j.tdiv 7)

/-- `timelib_isoweek_from_date`: `(*iy, *iw)` -/
def timelibIsoweekFromDate (y m d : ℤ) : ℤ × ℤ :=
  let yLeap := timelibIsLeap y
  let prevYLeap := timelibIsLeap (y - 1)
  let doy := timelibDayOfYear y m d + 1
  let doy := if yLeap ∧ 2 < m then doy + 1 else doy
  let jan1weekday := timelibDayOfWeek y 1 1
  let weekday := timelibDayOfWeek y m d
  let weekday := if weekday = 0 then 7 else weekday
  let jan1weekday := if jan1weekday = 0 then 7 else jan1weekday
  isoweekCases y yLeap prevYLeap doy jan1weekday weekday

/-- `timelib_daynr_from_weeknr` -/
def timelibDaynrFromWeeknr (y w d : ℤ) : ℤ :=
  let dow := timelibDayOfWeek y 1 1
  let day := 0 - if 4 < dow then dow - 7 else dow
  day + (w - 1) * 7 + d

/-! ## The sum -/

/-- The years for which the divisions of the sum round in the right direction. -/
def WeekdayYear (y : ℤ) : Prop :=
  1600 ≤ y ∨ (0 ≤ y ∧ y / 100 % 4 = 0) ∨ (y < 0 ∧ Leap y)

instance (y : ℤ) : Decidable (WeekdayYear y) := by unfold WeekdayYear; infer_instance

/-- The weekday is one day late in the other years. -/
def weekdayError (y : ℤ) : ℤ := if WeekdayYear y then 0 else 1

variable {y m d : ℤ}

theorem weekdayError_cases (y : ℤ) :
    WeekdayYear y ∧ weekdayError y = 0 ∨ ¬ WeekdayYear y ∧ weekdayError y = 1 := by
  unfold weekdayError
  split
  · next h => exact Or.inl ⟨h, rfl⟩
  · next h => exact Or.inr ⟨h, rfl⟩

theorem tmod_seven (a : ℤ) :
    a.tmod 7 = if 0 ≤ a ∨ a % 7 = 0 then a % 7 else a % 7 - 7 := by
  rw [Int.tmod_def]
  rcases le_or_gt 0 a with h | h
  · rw [tdiv_of_nonneg h, if_pos (Or.inl h)]
    omega
  · rw [tdiv_of_neg a 7 h.le]
    split <;> omega

theorem centuryValue_eq (j : ℤ) :
    centuryValue j = (4 - (j - 17) * 2 + (j - 17 + 1).tdiv 4) % 7 := by
  rw [centuryValue]
  simp only [tmod_seven]
  split_ifs <;> omega

theorem monthValue_spec (y : ℤ) (h1 : 1 ≤ m) (h12 : m ≤ 12) :
    0 ≤ monthValue y m ∧ monthValue y m ≤ 6 ∧
      (monthValue y m + leapDay y - daysBeforeMonth y m.toNat) % 7 = 0 := by
  rw [monthValue]
  obtain ⟨k, rfl⟩ := Int.eq_ofNat_of_zero_le (show 0 ≤ m by omega)
  rw [Int.toNat_natCast]
  have hk1 : 1 ≤ k := by omega
  have hk12 : k ≤ 12 := by omega
  by_cases hl : Leap y
  · rw [if_pos ((timelibIsLeap_iff y).mpr hl), leapDay_of_leap hl]
    interval_cases k <;>
      simp [mTableLeap, daysBeforeMonth, monthLength, Finset.sum_range_succ, leapDay_of_leap hl]
  · rw [if_neg (fun h => hl ((timelibIsLeap_iff y).mp h)), leapDay_of_not hl]
    interval_cases k <;>
      simp [mTableCommon, daysBeforeMonth, monthLength, Finset.sum_range_succ, leapDay_of_not hl]

/-- The part of the sum that depends on the year. -/
def yearValue (y : ℤ) : ℤ := centuryValue (y.tdiv 100) + y.tmod 100 + (y.tmod 100).tdiv 4

theorem weekdaySum_eq (y m d : ℤ) : weekdaySum y m d = yearValue y + monthValue y m + d := by
  unfold weekdaySum yearValue
  omega

theorem yearValue_nonneg (h : 0 ≤ y) : 0 ≤ yearValue y := by
  have hmod : y.tmod 100 = y % 100 := by
    rw [Int.tmod_def, tdiv_of_nonneg h]
    omega
  rw [yearValue, hmod, tdiv_of_nonneg (show 0 ≤ y % 100 by omega), centuryValue_eq]
  omega

theorem yearValue_of_neg (h : y < 0) :
    yearValue y = (2 * (-y / 100) - -y / 100 / 4 - 1) % 7 - (-y % 100 + -y % 100 / 4) := by
  have hmod : y.tmod 100 = -(-y % 100) := by
    rw [Int.tmod_def, tdiv_of_neg _ _ h.le]
    omega
  have hcentury : -(-(-y / 100) - 17 + 1) / 4 = -y / 100 / 4 + 4 := by omega
  rw [yearValue, hmod, tdiv_of_neg _ _ h.le, tdiv_of_neg _ _ (show -(-y % 100) ≤ 0 by omega),
    centuryValue_eq, tdiv_of_neg _ _ (show -(-y / 100) - 17 + 1 ≤ 0 by omega), hcentury, neg_neg]
  omega

theorem yearValue_emod_of_nonneg (h : 0 ≤ y) :
    (yearValue y - (365 * (y - 1970) + leapsThrough y - leapsThrough 1969 - 4) -
      weekdayError y) % 7 = 0 := by
  have hmod : y.tmod 100 = y % 100 := by
    rw [Int.tmod_def, tdiv_of_nonneg h]
    omega
  have herror := weekdayError_cases y
  unfold WeekdayYear at herror
  have hquarter : y / 4 = 25 * (y / 100) + y % 100 / 4 := by omega
  have hperiod : y / 400 = y / 100 / 4 := by omega
  rw [yearValue, hmod, tdiv_of_nonneg h, tdiv_of_nonneg (show 0 ≤ y % 100 by omega),
    centuryValue_eq]
  unfold leapsThrough
  rw [hquarter, hperiod]
  rcases le_or_gt 0 (y / 100 - 17 + 1) with hlate | hearly
  · have hcentury : (y / 100 - 17 + 1) / 4 = y / 100 / 4 - 4 := by omega
    rw [tdiv_of_nonneg hlate, hcentury]
    omega
  · have hcentury : -(y / 100 - 17 + 1) / 4 =
        if y / 100 % 4 = 0 then 4 - y / 100 / 4 else 3 - y / 100 / 4 := by
      split <;> omega
    rw [tdiv_of_neg _ _ hearly.le, hcentury]
    split <;> omega

theorem yearValue_emod_of_neg (h : y < 0) :
    (yearValue y - (365 * (y - 1970) + leapsThrough y - leapsThrough 1969 - 4) -
      weekdayError y) % 7 = 0 := by
  obtain ⟨a, b, hb, hb', rfl⟩ : ∃ a b : ℤ, 0 ≤ b ∧ b < 100 ∧ y = -(100 * a + b) :=
    ⟨-y / 100, -y % 100, by omega, by omega, by omega⟩
  have herror := weekdayError_cases (-(100 * a + b))
  have hyear : WeekdayYear (-(100 * a + b)) ↔ b % 4 = 0 ∧ (b ≠ 0 ∨ a % 4 = 0) := by
    unfold WeekdayYear Leap
    omega
  have ha : - -(100 * a + b) / 100 = a := by omega
  have hb'' : - -(100 * a + b) % 100 = b := by omega
  have hquarter : -(100 * a + b) / 4 = -(25 * a) - b / 4 - if b % 4 = 0 then 0 else 1 := by
    split <;> omega
  have hcentury : -(100 * a + b) / 100 = -a - if b = 0 then 0 else 1 := by
    split <;> omega
  have hperiod : -(100 * a + b) / 400 = -(a / 4) - if b = 0 ∧ a % 4 = 0 then 0 else 1 := by
    split <;> omega
  rw [hyear] at herror
  rw [yearValue_of_neg h, ha, hb'']
  unfold leapsThrough
  rw [hquarter, hcentury, hperiod]
  split_ifs <;> omega

theorem weekdaySum_emod (y d : ℤ) (h1 : 1 ≤ m) (h12 : m ≤ 12) :
    (weekdaySum y m d - (dayNumber y m.toNat d - 3) - weekdayError y) % 7 = 0 := by
  have hmonth := (monthValue_spec y h1 h12).2.2
  have hleap := leapsThrough_succ (y - 1)
  rw [sub_add_cancel] at hleap
  have hyear : (yearValue y - (365 * (y - 1970) + leapsThrough y - leapsThrough 1969 - 4) -
      weekdayError y) % 7 = 0 := by
    rcases lt_or_ge y 0 with hneg | hnonneg
    · exact yearValue_emod_of_neg hneg
    · exact yearValue_emod_of_nonneg hnonneg
  rw [weekdaySum_eq]
  unfold dayNumber daysBeforeYear
  omega

/-! ## The weekday -/

/-- The sum is negative, so that its remainder is not above zero: years before 0 only. -/
def BelowZero (y m d : ℤ) : Prop :=
  y < 0 ∧ (2 * (-y / 100) - -y / 100 / 4 - 1) % 7 + monthValue y m + d < -y % 100 + -y % 100 / 4

instance (y m d : ℤ) : Decidable (BelowZero y m d) := by unfold BelowZero; infer_instance

theorem weekdaySum_neg_iff (y : ℤ) (h1 : 1 ≤ m) (h12 : m ≤ 12) (hd : 1 ≤ d) :
    weekdaySum y m d < 0 ↔ BelowZero y m d := by
  have hmonth := monthValue_spec y h1 h12
  rw [weekdaySum_eq, BelowZero]
  rcases lt_or_ge y 0 with hneg | hnonneg
  · rw [yearValue_of_neg hneg]
    omega
  · have hyear := yearValue_nonneg hnonneg
    omega

theorem timelibDayOfWeek_eq (y d : ℤ) (h1 : 1 ≤ m) (h12 : m ≤ 12) :
    timelibDayOfWeek y m d =
      if 0 ≤ weekdaySum y m d ∨ (weekday (dayNumber y m.toNat d) + weekdayError y) % 7 = 0 then
        (weekday (dayNumber y m.toNat d) + weekdayError y) % 7
      else (weekday (dayNumber y m.toNat d) + weekdayError y) % 7 - 7 := by
  have hsum := weekdaySum_emod y d h1 h12
  have hclass : weekdaySum y m d % 7 =
      (weekday (dayNumber y m.toNat d) + weekdayError y) % 7 := by
    unfold weekday
    omega
  rw [← hclass, ← tmod_seven, timelibDayOfWeek, timelibDayOfWeekEx]
  exact if_neg fun h => Bool.false_ne_true h.1

theorem timelibDayOfWeek_iff (y : ℤ) (h1 : 1 ≤ m) (h12 : m ≤ 12) (hd : 1 ≤ d) :
    timelibDayOfWeek y m d = weekday (dayNumber y m.toNat d) ↔
      WeekdayYear y ∧ (BelowZero y m d → weekday (dayNumber y m.toNat d) = 0) := by
  have hbounds := weekday_bounds (dayNumber y m.toNat d)
  rw [timelibDayOfWeek_eq y d h1 h12, ← weekdaySum_neg_iff y h1 h12 hd]
  rcases weekdayError_cases y with ⟨hyear, herror⟩ | ⟨hyear, herror⟩
  · simp only [herror, hyear, true_and]
    split <;> omega
  · simp only [herror, hyear, false_and, iff_false]
    split <;> omega

theorem timelibIsoDayOfWeek_eq (h : timelibDayOfWeek y m d = weekday (dayNumber y m.toNat d)) :
    timelibIsoDayOfWeek y m d = isoWeekday (dayNumber y m.toNat d) := by
  have hplain : (weekdaySum y m d).tmod 7 = weekday (dayNumber y m.toNat d) := by
    rw [← h, timelibDayOfWeek, timelibDayOfWeekEx]
    exact (if_neg fun h => Bool.false_ne_true h.1).symm
  rw [timelibIsoDayOfWeek, timelibDayOfWeekEx, isoWeekday, ← hplain]
  simp only [true_and]

theorem timelibDayOfWeek_bounds (y d : ℤ) (h1 : 1 ≤ m) (h12 : m ≤ 12) :
    -7 < timelibDayOfWeek y m d ∧ timelibDayOfWeek y m d < 7 := by
  rw [timelibDayOfWeek_eq y d h1 h12]
  split <;> omega

/-! ## The week -/

theorem dayNumber_newYear (y : ℤ) : dayNumber y (1 : ℤ).toNat 1 = daysBeforeYear y := by
  rw [dayNumber, show daysBeforeMonth y (1 : ℤ).toNat = 0 from rfl]
  omega

/-- The weekday of 1 January is right, or it is seven too small and a Friday or a Saturday, which
makes no difference to the week. -/
def NewYearFits (y : ℤ) : Prop :=
  WeekdayYear y ∧ (BelowZero y 1 1 → weekday (daysBeforeYear y) = 0 ∨
    weekday (daysBeforeYear y) = 5 ∨ weekday (daysBeforeYear y) = 6)

instance (y : ℤ) : Decidable (NewYearFits y) := by unfold NewYearFits; infer_instance

theorem newYearFits_iff (y : ℤ) :
    NewYearFits y ↔ timelibDayOfWeek y 1 1 = weekday (daysBeforeYear y) ∨
      (timelibDayOfWeek y 1 1 = weekday (daysBeforeYear y) - 7 ∧
        5 ≤ weekday (daysBeforeYear y)) := by
  have hone : (1 : ℤ) ≤ 1 := le_refl 1
  have htwelve : (1 : ℤ) ≤ 12 := by decide
  have hbounds := weekday_bounds (daysBeforeYear y)
  have heq := timelibDayOfWeek_eq y 1 hone htwelve
  have hneg := weekdaySum_neg_iff y hone htwelve hone
  rw [dayNumber_newYear] at heq
  rw [NewYearFits, heq, ← hneg]
  rcases weekdayError_cases y with ⟨hyear, herror⟩ | ⟨hyear, herror⟩
  · simp only [herror, hyear, true_and]
    split <;> omega
  · simp only [herror, hyear, false_and, false_iff]
    split <;> omega

theorem timelibDayOfYear_eq (y d : ℤ) (h1 : 1 ≤ m) (h12 : m ≤ 12) :
    timelibDayOfYear y m d = daysBeforeMonth y m.toNat + d - 1 := by
  rw [timelibDayOfYear]
  obtain ⟨k, rfl⟩ := Int.eq_ofNat_of_zero_le (show 0 ≤ m by omega)
  rw [Int.toNat_natCast]
  have hk1 : 1 ≤ k := by omega
  have hk12 : k ≤ 12 := by omega
  by_cases hl : Leap y
  · rw [if_pos ((timelibIsLeap_iff y).mpr hl)]
    interval_cases k <;>
      simp [dTableLeap, daysBeforeMonth, monthLength, Finset.sum_range_succ, leapDay_of_leap hl]
  · rw [if_neg (fun h => hl ((timelibIsLeap_iff y).mp h))]
    interval_cases k <;>
      simp [dTableCommon, daysBeforeMonth, monthLength, Finset.sum_range_succ, leapDay_of_not hl]

theorem timelibIsLeap_eq (y : ℤ) : timelibIsLeap y = decide (leapDay y = 1) := by
  rw [Bool.eq_iff_iff, timelibIsLeap_iff, decide_eq_true_iff, leap_iff_leapDay]

/-- With the weekday of 1 January, or with 7 less for a Friday or a Saturday, the week is right. The
day of the year is one too large from March on in a leap year. -/
theorem isoweekCases_spec {n doy jan1weekday : ℤ} (hfirst : daysBeforeYear y ≤ n)
    (hlast : n < daysBeforeYear (y + 1))
    (hdoy : (doy = n - daysBeforeYear y + 1 ∧ (leapDay y = 0 ∨ n - daysBeforeYear y < 60)) ∨
      (leapDay y = 1 ∧ doy = n - daysBeforeYear y + 2 ∧ 60 ≤ n - daysBeforeYear y))
    (hjan1 : jan1weekday = isoWeekday (daysBeforeYear y) ∨
      (jan1weekday = isoWeekday (daysBeforeYear y) - 7 ∧
        5 ≤ isoWeekday (daysBeforeYear y) ∧ daysBeforeYear y ≤ thursdayOf n)) :
    IsoWeek n
      (isoweekCases y (timelibIsLeap y) (timelibIsLeap (y - 1)) doy jan1weekday (isoWeekday n)).1
      (isoweekCases y (timelibIsLeap y) (timelibIsLeap (y - 1)) doy jan1weekday
        (isoWeekday n)).2 := by
  have hsucc := daysBeforeYear_succ y
  have hlate := leapDay_eq_zero_or_one y
  have hday := isoWeekday_spec n
  have hnewYear := isoWeekday_spec (daysBeforeYear y)
  have hlength : (if leapDay y = 1 then (366 : ℤ) else 365) = 365 + leapDay y := by
    split <;> omega
  have hleap : (if leapDay y = 1 then (1 : ℤ) else 0) = leapDay y := by
    split <;> omega
  unfold yearLength at hsucc
  rw [isoweekCases]
  simp only [timelibIsLeap_eq, decide_eq_true_eq, hlength, hleap]
  split
  · next hbefore =>
    have hright : jan1weekday = isoWeekday (daysBeforeYear y) := by omega
    rw [hright]
    exact isoWeek_before hfirst (by omega) (by omega)
  split
  · next hafter =>
    refine isoWeek_after hlast ?_
    unfold thursdayOf
    omega
  · unfold thursdayOf at hjan1
    refine ⟨?_, ?_, ?_⟩
    · change daysBeforeYear y ≤ n + 4 - isoWeekday n
      omega
    · change n + 4 - isoWeekday n < daysBeforeYear (y + 1)
      omega
    · rw [tdiv_of_nonneg (by omega)]
      change (if 4 < jan1weekday then (doy + (7 - isoWeekday n) + (jan1weekday - 1)) / 7 - 1
        else (doy + (7 - isoWeekday n) + (jan1weekday - 1)) / 7) =
          (n + 4 - isoWeekday n - daysBeforeYear y) / 7 + 1
      split <;> omega

/-- `doy` of `timelib_isoweek_from_date`. -/
theorem doy_spec (h : ValidDate y m.toNat d) (h1 : 1 ≤ m) :
    let doy := if timelibIsLeap y ∧ 2 < m then timelibDayOfYear y m d + 1 + 1
      else timelibDayOfYear y m d + 1
    (doy = dayNumber y m.toNat d - daysBeforeYear y + 1 ∧
        (leapDay y = 0 ∨ dayNumber y m.toNat d - daysBeforeYear y < 60)) ∨
      (leapDay y = 1 ∧ doy = dayNumber y m.toNat d - daysBeforeYear y + 2 ∧
        60 ≤ dayNumber y m.toNat d - daysBeforeYear y) := by
  have h12 := h.month_le
  have hmarch : daysBeforeMonth y 3 = 59 + leapDay y := by
    simp [daysBeforeMonth, monthLength, Finset.sum_range_succ]
    omega
  have hfirst := dayNumber_first_le_iff (k := 3) h
  have hleap := leapDay_eq_zero_or_one y
  simp only [timelibDayOfYear_eq y d h1 (show m ≤ 12 by omega), timelibIsLeap_eq, decide_eq_true_eq]
  unfold dayNumber at *
  split <;> omega

/-- The whole date: the weekday, the week and the way back. -/
structure WeekDateRight (y m d : ℤ) : Prop where
  weekday : timelibDayOfWeek y m d = weekday (dayNumber y m.toNat d)
  isoWeek : IsoWeek (dayNumber y m.toNat d)
    (timelibIsoweekFromDate y m d).1 (timelibIsoweekFromDate y m d).2
  back : daysBeforeYear (timelibIsoweekFromDate y m d).1 +
    timelibDaynrFromWeeknr (timelibIsoweekFromDate y m d).1 (timelibIsoweekFromDate y m d).2
      (timelibIsoDayOfWeek y m d) = dayNumber y m.toNat d

theorem timelibDaynrFromWeeknr_iff {n w : ℤ} (h : IsoWeek n y w) :
    daysBeforeYear y + timelibDaynrFromWeeknr y w (isoWeekday n) = n ↔ NewYearFits y := by
  have hweek := h.week
  have hday := isoWeekday_spec n
  have hnewYear := weekday_bounds (daysBeforeYear y)
  have hclass : (daysBeforeYear y - 3 - weekday (daysBeforeYear y)) % 7 = 0 := by
    unfold weekday
    omega
  have hvalue := timelibDayOfWeek_bounds y 1 (le_refl 1) (show (1 : ℤ) ≤ 12 by decide)
  unfold thursdayOf at hweek
  rw [newYearFits_iff, timelibDaynrFromWeeknr]
  split <;> omega

theorem isoYear_eq_of_neg {n iy iw : ℤ} (h : IsoWeek n iy iw) (hfirst : daysBeforeYear y ≤ n)
    (hlast : n < daysBeforeYear (y + 1)) (hy : WeekdayYear y) (hiy : WeekdayYear iy) (hneg : y < 0) :
    iy = y := by
  have hnear := h.year_near hfirst hlast
  unfold WeekdayYear Leap at hy hiy
  omega

theorem timelibIsoweekFromDate_spec (h1 : 1 ≤ m) (h : ValidDate y m.toNat d)
    (hweekday : timelibDayOfWeek y m d = weekday (dayNumber y m.toNat d))
    (hjan1 : timelibDayOfWeek y 1 1 = weekday (daysBeforeYear y) ∨
      (timelibDayOfWeek y 1 1 = weekday (daysBeforeYear y) - 7 ∧
        5 ≤ weekday (daysBeforeYear y) ∧
        daysBeforeYear y ≤ thursdayOf (dayNumber y m.toNat d))) :
    IsoWeek (dayNumber y m.toNat d) (timelibIsoweekFromDate y m d).1
      (timelibIsoweekFromDate y m d).2 := by
  obtain ⟨hfirst, hlast⟩ := dayNumber_in_year h
  have hbounds := weekday_bounds (daysBeforeYear y)
  have hday : (if timelibDayOfWeek y m d = 0 then 7 else timelibDayOfWeek y m d) =
      isoWeekday (dayNumber y m.toNat d) := by
    rw [hweekday, isoWeekday]
  rw [timelibIsoweekFromDate, hday]
  refine isoweekCases_spec hfirst hlast (doy_spec h h1) ?_
  unfold isoWeekday
  split_ifs <;> omega

/-- Weekday, week and the way back are right exactly when the year has its weekdays, the sum is not
below zero on a day other than a Sunday, and 1 January of the year of the week fits. -/
theorem weekDateRight_iff (h1 : 1 ≤ m) (h : ValidDate y m.toNat d) :
    WeekDateRight y m d ↔
      (WeekdayYear y ∧ (BelowZero y m d → weekday (dayNumber y m.toNat d) = 0)) ∧
        ∃ iy iw, IsoWeek (dayNumber y m.toNat d) iy iw ∧ NewYearFits iy := by
  obtain ⟨hfirst, hlast⟩ := dayNumber_in_year h
  have h12 : m ≤ 12 := by
    have hle := h.month_le
    omega
  rw [← timelibDayOfWeek_iff y h1 h12 h.day_pos]
  constructor
  · intro hright
    refine ⟨hright.weekday, _, _, hright.isoWeek, ?_⟩
    rw [← timelibDaynrFromWeeknr_iff hright.isoWeek, ← timelibIsoDayOfWeek_eq hright.weekday]
    exact hright.back
  · rintro ⟨hweekday, iy, iw, hweek, hfits⟩
    have hyear := ((timelibDayOfWeek_iff y h1 h12 h.day_pos).mp hweekday).1
    have hisoWeek : IsoWeek (dayNumber y m.toNat d) (timelibIsoweekFromDate y m d).1
        (timelibIsoweekFromDate y m d).2 := by
      apply timelibIsoweekFromDate_spec h1 h hweekday
      rcases lt_or_ge y 0 with hneg | hnonneg
      · have hiy := isoYear_eq_of_neg hweek hfirst hlast hyear hfits.1 hneg
        subst hiy
        rcases (newYearFits_iff iy).mp hfits with hright | ⟨hlow, hfive⟩
        · exact Or.inl hright
        · exact Or.inr ⟨hlow, hfive, hweek.year_le⟩
      · left
        rw [← dayNumber_newYear]
        exact (timelibDayOfWeek_iff y (le_refl 1) (by decide) (le_refl 1)).mpr
          ⟨hyear, fun hbelow => absurd hbelow.1 (not_lt.mpr hnonneg)⟩
    refine ⟨hweekday, hisoWeek, ?_⟩
    rw [timelibIsoDayOfWeek_eq hweekday, timelibDaynrFromWeeknr_iff hisoWeek,
      ← hweek.year_eq hisoWeek]
    exact hfits

theorem newYear_valid (y : ℤ) : ValidDate y (1 : ℤ).toNat 1 := by
  have hlength : (1 : ℤ) ≤ monthLength y 1 := by
    rw [monthLength, if_neg (by decide), if_neg (by decide)]
    decide
  exact ⟨by decide, by decide, le_refl 1, hlength⟩

theorem weekDateRight_2000 :
    WeekDateRight 2000 1 1 ↔
      (WeekdayYear 2000 ∧
        (BelowZero 2000 1 1 → weekday (dayNumber 2000 (1 : ℤ).toNat 1) = 0)) ∧
        ∃ iy iw, IsoWeek (dayNumber 2000 (1 : ℤ).toNat 1) iy iw ∧ NewYearFits iy :=
  weekDateRight_iff (le_refl 1) (newYear_valid 2000)

/-- 1 January 1500 is a Monday, and the function says Tuesday. -/
theorem not_weekDateRight :
    ¬ ∀ y m d : ℤ, 1 ≤ m → ValidDate y m.toNat d → WeekDateRight y m d := by
  intro hall
  have hweekday := (hall 1500 1 1 (le_refl 1) (newYear_valid 1500)).weekday
  rw [dayNumber_newYear] at hweekday
  exact absurd hweekday (by decide)

end PhpRuntime.Date
