import Mathlib.Algebra.Order.BigOperators.Group.Finset
import Mathlib.Algebra.Order.Ring.Int
import Mathlib.Data.Int.Order.Basic
import Mathlib.Data.Int.SuccPred
import Mathlib.Order.Interval.Finset.Nat
import Mathlib.Tactic.IntervalCases

/-!
# The proleptic Gregorian calendar

Days are counted from 1 January 1970. The number of days before a year is in closed
form, through the leap years that came before it; the length of a year, the 400-year
period and the order of the years follow from it. A date is valid when its month and
its day exist, and every day number belongs to exactly one valid date.
-/

set_option autoImplicit false

namespace PhpRuntime.Lib.Calendar

def Leap (y : ℤ) : Prop := y % 4 = 0 ∧ (y % 100 ≠ 0 ∨ y % 400 = 0)

instance (y : ℤ) : Decidable (Leap y) := by unfold Leap; infer_instance

def leapDay (y : ℤ) : ℤ := if Leap y then 1 else 0

def yearLength (y : ℤ) : ℤ := 365 + leapDay y

/-- The leap years up to a year, counted from the year 1. -/
def leapsThrough (y : ℤ) : ℤ := y / 4 - y / 100 + y / 400

/-- The days from 1 January 1970 to 1 January of a year. -/
def daysBeforeYear (y : ℤ) : ℤ :=
  365 * (y - 1970) + leapsThrough (y - 1) - leapsThrough 1969

def monthLength (y : ℤ) (m : ℕ) : ℤ :=
  if m = 2 then 28 + leapDay y else if m = 4 ∨ m = 6 ∨ m = 9 ∨ m = 11 then 30 else 31

/-- The days of a year that come before a month. -/
def daysBeforeMonth (y : ℤ) (m : ℕ) : ℤ := ∑ k ∈ Finset.range (m - 1), monthLength y (k + 1)

def dayNumber (y : ℤ) (m : ℕ) (d : ℤ) : ℤ := daysBeforeYear y + daysBeforeMonth y m + (d - 1)

/-- The month and the day exist. -/
structure ValidDate (y : ℤ) (m : ℕ) (d : ℤ) : Prop where
  month_pos : 1 ≤ m
  month_le : m ≤ 12
  day_pos : 1 ≤ d
  day_le : d ≤ monthLength y m

/-! ## Years -/

theorem leapDay_of_leap {y : ℤ} (h : Leap y) : leapDay y = 1 := if_pos h

theorem leapDay_of_not {y : ℤ} (h : ¬ Leap y) : leapDay y = 0 := if_neg h

theorem leapDay_eq_zero_or_one (y : ℤ) : leapDay y = 0 ∨ leapDay y = 1 := by
  unfold leapDay
  split
  · right; rfl
  · left; rfl

theorem leap_iff_leapDay {y : ℤ} : Leap y ↔ leapDay y = 1 := by
  unfold leapDay
  split <;> simp_all

theorem leapsThrough_succ (y : ℤ) : leapsThrough (y + 1) = leapsThrough y + leapDay (y + 1) := by
  by_cases h : Leap (y + 1)
  · rw [leapDay_of_leap h]
    unfold Leap at h
    unfold leapsThrough
    omega
  · rw [leapDay_of_not h]
    unfold Leap at h
    unfold leapsThrough
    omega

theorem daysBeforeYear_succ (y : ℤ) :
    daysBeforeYear (y + 1) = daysBeforeYear y + yearLength y := by
  have h := leapsThrough_succ (y - 1)
  rw [sub_add_cancel] at h
  unfold daysBeforeYear yearLength
  rw [add_sub_cancel_right]
  omega

theorem daysBeforeYear_epoch : daysBeforeYear 1970 = 0 := by decide

theorem daysBeforeYear_add_period (y k : ℤ) :
    daysBeforeYear (y + 400 * k) = daysBeforeYear y + 146097 * k := by
  unfold daysBeforeYear leapsThrough
  omega

theorem leap_add_period (y k : ℤ) : Leap (y + 400 * k) ↔ Leap y := by
  unfold Leap
  omega

theorem yearLength_pos (y : ℤ) : 0 < yearLength y := by
  have h := leapDay_eq_zero_or_one y
  unfold yearLength
  omega

theorem daysBeforeYear_lt_iff {y y' : ℤ} : daysBeforeYear y < daysBeforeYear y' ↔ y < y' := by
  have hmono : StrictMono daysBeforeYear := by
    apply strictMono_int_of_lt_succ
    intro y
    have h := yearLength_pos y
    rw [daysBeforeYear_succ]
    omega
  exact hmono.lt_iff_lt

theorem year_unique {y y' n : ℤ} (h : daysBeforeYear y ≤ n) (hlt : n < daysBeforeYear (y + 1))
    (h' : daysBeforeYear y' ≤ n) (hlt' : n < daysBeforeYear (y' + 1)) : y = y' := by
  have h1 : y < y' + 1 := daysBeforeYear_lt_iff.mp (lt_of_le_of_lt h hlt')
  have h2 : y' < y + 1 := daysBeforeYear_lt_iff.mp (lt_of_le_of_lt h' hlt)
  omega

theorem year_bounds {y n b : ℤ} (h : daysBeforeYear y ≤ n) (hlt : n < daysBeforeYear (y + 1))
    (hb : -b ≤ n) (hb' : n ≤ b) :
    -(2 * b + 800) ≤ 365 * (y - 1970) ∧ 365 * (y - 1970) ≤ 2 * b + 800 := by
  unfold daysBeforeYear leapsThrough at h hlt
  constructor <;> omega

/-! ## Months -/

theorem daysBeforeMonth_succ (y : ℤ) {m : ℕ} (h : 1 ≤ m) :
    daysBeforeMonth y (m + 1) = daysBeforeMonth y m + monthLength y m := by
  obtain ⟨k, rfl⟩ := Nat.exists_eq_add_of_le' h
  exact Finset.sum_range_succ _ _

theorem monthLength_nonneg (y : ℤ) (m : ℕ) : 0 ≤ monthLength y m := by
  have h := leapDay_eq_zero_or_one y
  unfold monthLength
  split_ifs <;> omega

theorem daysBeforeMonth_le (y : ℤ) {m m' : ℕ} (h : m ≤ m') :
    daysBeforeMonth y m ≤ daysBeforeMonth y m' :=
  Finset.sum_le_sum_of_subset_of_nonneg (Finset.range_subset_range.mpr (by omega))
    fun _ _ _ => monthLength_nonneg _ _

theorem daysBeforeMonth_last (y : ℤ) : daysBeforeMonth y 13 = yearLength y := by
  simp [daysBeforeMonth, monthLength, yearLength, Finset.sum_range_succ]
  omega

theorem daysBeforeMonth_sub (y y' : ℤ) {m : ℕ} (h : m ≤ 12) :
    daysBeforeMonth y m - daysBeforeMonth y' m =
      if 3 ≤ m then leapDay y - leapDay y' else 0 := by
  interval_cases m <;>
    simp [daysBeforeMonth, monthLength, Finset.sum_range_succ]

theorem dayNumber_first_le_iff {y : ℤ} {m k : ℕ} {d : ℤ} (h : ValidDate y m d) :
    dayNumber y k 1 ≤ dayNumber y m d ↔ k ≤ m := by
  have hpos := h.day_pos
  have hle := h.day_le
  have hsucc := daysBeforeMonth_succ y h.month_pos
  unfold dayNumber
  constructor
  · intro hk
    by_contra hmk
    have hmono := daysBeforeMonth_le y (show m + 1 ≤ k by omega)
    omega
  · intro hk
    have hmono := daysBeforeMonth_le y hk
    omega

theorem dayNumber_in_year {y : ℤ} {m : ℕ} {d : ℤ} (h : ValidDate y m d) :
    daysBeforeYear y ≤ dayNumber y m d ∧ dayNumber y m d < daysBeforeYear (y + 1) := by
  have hpos := h.day_pos
  have hle := h.day_le
  have hfirst : daysBeforeMonth y 1 = 0 := rfl
  have hlow := daysBeforeMonth_le y h.month_pos
  have hhigh := daysBeforeMonth_le y (Nat.succ_le_succ h.month_le)
  rw [daysBeforeMonth_succ y h.month_pos, daysBeforeMonth_last] at hhigh
  rw [daysBeforeYear_succ]
  unfold dayNumber
  omega

theorem validDate_of_between {y n : ℤ} {m : ℕ} (h1 : 1 ≤ m) (h12 : m ≤ 12)
    (hle : dayNumber y m 1 ≤ n) (hlt : n < dayNumber y (m + 1) 1) :
    ValidDate y m (n - dayNumber y m 1 + 1) := by
  have hsucc := daysBeforeMonth_succ y h1
  unfold dayNumber at *
  constructor
  · exact h1
  · exact h12
  · omega
  · omega

theorem date_unique {y y' d d' : ℤ} {m m' : ℕ} (h : ValidDate y m d) (h' : ValidDate y' m' d')
    (heq : dayNumber y m d = dayNumber y' m' d') : y = y' ∧ m = m' ∧ d = d' := by
  obtain ⟨hfirst, hlast⟩ := dayNumber_in_year h
  obtain ⟨hfirst', hlast'⟩ := dayNumber_in_year h'
  rw [heq] at hfirst hlast
  obtain rfl := year_unique hfirst hlast hfirst' hlast'
  have hle : m' ≤ m := by
    rw [← dayNumber_first_le_iff h, heq]
    exact (dayNumber_first_le_iff h').mpr le_rfl
  have hge : m ≤ m' := by
    rw [← dayNumber_first_le_iff h', ← heq]
    exact (dayNumber_first_le_iff h).mpr le_rfl
  obtain rfl := le_antisymm hle hge
  unfold dayNumber at heq
  exact ⟨rfl, rfl, by omega⟩

/-! ## Consecutive months -/

/-- The first day of a month, with the months of all years counted through: `12 * y + m` is the
month `m` of the year `y`. -/
def monthStart (k : ℤ) : ℤ := dayNumber ((k - 1) / 12) (((k - 1) % 12).toNat + 1) 1

def lengthOfMonth (k : ℤ) : ℤ := monthLength ((k - 1) / 12) (((k - 1) % 12).toNat + 1)

theorem month_split {y m : ℤ} (h1 : 1 ≤ m) (h12 : m ≤ 12) :
    (12 * y + m - 1) / 12 = y ∧ ((12 * y + m - 1) % 12).toNat + 1 = m.toNat := by
  omega

theorem monthStart_eq {y m : ℤ} (h1 : 1 ≤ m) (h12 : m ≤ 12) :
    monthStart (12 * y + m) = dayNumber y m.toNat 1 := by
  obtain ⟨hy, hm⟩ := @month_split y m h1 h12
  rw [monthStart, hy, hm]

theorem lengthOfMonth_eq {y m : ℤ} (h1 : 1 ≤ m) (h12 : m ≤ 12) :
    lengthOfMonth (12 * y + m) = monthLength y m.toNat := by
  obtain ⟨hy, hm⟩ := @month_split y m h1 h12
  rw [lengthOfMonth, hy, hm]

theorem dayNumber_add (y : ℤ) (m : ℕ) (d e : ℤ) : dayNumber y m (d + e) = dayNumber y m d + e := by
  unfold dayNumber
  omega

theorem dayNumber_eq_monthStart {y m : ℤ} (h1 : 1 ≤ m) (h12 : m ≤ 12) (d : ℤ) :
    dayNumber y m.toNat d = monthStart (12 * y + m) + (d - 1) := by
  rw [monthStart_eq h1 h12, ← dayNumber_add]
  exact congrArg _ (by omega)

theorem monthStart_succ (k : ℤ) : monthStart (k + 1) = monthStart k + lengthOfMonth k := by
  obtain ⟨y, m, h1, h12, rfl⟩ : ∃ y m : ℤ, 1 ≤ m ∧ m ≤ 12 ∧ k = 12 * y + m :=
    ⟨(k - 1) / 12, (k - 1) % 12 + 1, by omega, by omega, by omega⟩
  rw [monthStart_eq h1 h12, lengthOfMonth_eq h1 h12]
  have hsucc := daysBeforeMonth_succ y (show 1 ≤ m.toNat by omega)
  rcases lt_or_eq_of_le h12 with hlt | rfl
  · rw [add_assoc, monthStart_eq (by omega) (by omega), show (m + 1).toNat = m.toNat + 1 by omega]
    unfold dayNumber
    omega
  · have hyear := daysBeforeYear_succ y
    have hlast := daysBeforeMonth_last y
    have hjanuary : daysBeforeMonth (y + 1) 1 = 0 := rfl
    rw [show 12 * y + 12 + 1 = 12 * (y + 1) + 1 by omega, monthStart_eq (by omega) (by omega)]
    change daysBeforeMonth y 13 = daysBeforeMonth y 12 + monthLength y 12 at hsucc
    change daysBeforeYear (y + 1) + daysBeforeMonth (y + 1) 1 + (1 - 1) =
      daysBeforeYear y + daysBeforeMonth y 12 + (1 - 1) + monthLength y 12
    omega

theorem lengthOfMonth_bounds (k : ℤ) : 28 ≤ lengthOfMonth k ∧ lengthOfMonth k ≤ 31 := by
  have h := leapDay_eq_zero_or_one ((k - 1) / 12)
  unfold lengthOfMonth monthLength
  split_ifs <;> omega

theorem monthLength_add_period (y j : ℤ) (m : ℕ) :
    monthLength (y + 400 * j) m = monthLength y m := by
  unfold monthLength leapDay
  simp only [leap_add_period]

theorem monthStart_add_period (k j : ℤ) : monthStart (k + 4800 * j) = monthStart k + 146097 * j := by
  have hyear : (k + 4800 * j - 1) / 12 = (k - 1) / 12 + 400 * j := by omega
  have hmonth : (k + 4800 * j - 1) % 12 = (k - 1) % 12 := by omega
  have hperiod := daysBeforeYear_add_period ((k - 1) / 12) j
  have hmonths : ∀ m, daysBeforeMonth ((k - 1) / 12 + 400 * j) m =
      daysBeforeMonth ((k - 1) / 12) m := by
    intro m
    exact Finset.sum_congr rfl fun i _ => monthLength_add_period _ _ _
  rw [monthStart, monthStart, hyear, hmonth, dayNumber, dayNumber, hmonths, hperiod]
  omega

theorem lt_of_monthStart_lt {k k' : ℤ} (h : monthStart k < monthStart k') : k < k' := by
  by_contra hle
  obtain ⟨n, hn⟩ := Int.eq_ofNat_of_zero_le (show 0 ≤ k - k' by omega)
  have hmono : ∀ n : ℕ, monthStart k' ≤ monthStart (k' + n) := by
    intro n
    induction n with
    | zero =>
      rw [Nat.cast_zero, add_zero]
    | succ n ih =>
      have hsucc := monthStart_succ (k' + n)
      have hlength := lengthOfMonth_bounds (k' + n)
      rw [Nat.cast_succ, ← add_assoc]
      omega
  have hn' := hmono n
  rw [← hn, add_sub_cancel] at hn'
  omega

theorem month_unique {k k' n : ℤ} (h : monthStart k ≤ n) (hlt : n < monthStart (k + 1))
    (h' : monthStart k' ≤ n) (hlt' : n < monthStart (k' + 1)) : k = k' := by
  have hle : k < k' + 1 := lt_of_monthStart_lt (lt_of_le_of_lt h hlt')
  have hge : k' < k + 1 := lt_of_monthStart_lt (lt_of_le_of_lt h' hlt)
  omega

end PhpRuntime.Lib.Calendar
