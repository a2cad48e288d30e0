import Mathlib.Algebra.Order.Ring.Int
import Mathlib.Data.Int.Order.Basic
import Mathlib.Data.Int.SuccPred
import Mathlib.Tactic.IntervalCases

/-!
# Calendars with a leap rule

The twelve months of the Roman calendar with any rule for the leap years. Counted from
1 March the leap day is the last day of the year, the lengths of the months no longer
depend on the year and the days before a month are the quotient `(153 * k + 2) / 5`. A
date has a day number, the next day has the next number, and two dates with one number are
the same.
-/

set_option autoImplicit false

namespace PhpRuntime.Lib

/-- A year, a month and a day. -/
structure CalendarDate where
  year : ℤ
  month : ℤ
  day : ℤ
  deriving DecidableEq, Repr

/-- The leap years and their number up to a year. -/
structure LeapRule where
  Leap : ℤ → Prop
  decLeap : DecidablePred Leap
  leapsThrough : ℤ → ℤ
  leapsThrough_succ : ∀ y, leapsThrough (y + 1) = leapsThrough y + if Leap (y + 1) then 1 else 0

attribute [instance] LeapRule.decLeap

namespace LeapRule

variable (r : LeapRule)

def leapDay (y : ℤ) : ℤ := if r.Leap y then 1 else 0

def monthLength (y m : ℤ) : ℤ :=
  if m = 2 then 28 + r.leapDay y else if m = 4 ∨ m = 6 ∨ m = 9 ∨ m = 11 then 30 else 31

/-- The month and the day exist. -/
structure Valid (d : CalendarDate) : Prop where
  month_pos : 1 ≤ d.month
  month_le : d.month ≤ 12
  day_pos : 1 ≤ d.day
  day_le : d.day ≤ r.monthLength d.year d.month

def nextDay (d : CalendarDate) : CalendarDate :=
  if d.day < r.monthLength d.year d.month then ⟨d.year, d.month, d.day + 1⟩
  else if d.month < 12 then ⟨d.year, d.month + 1, 1⟩
  else ⟨d.year + 1, 1, 1⟩

end LeapRule

/-! ## Years that begin on 1 March -/

/-- The year that a month belongs to when years begin on 1 March. -/
def marchYear (y m : ℤ) : ℤ := if 2 < m then y else y - 1

def marchMonth (m : ℤ) : ℤ := if 2 < m then m - 3 else m + 9

def daysBeforeMarchMonth (k : ℤ) : ℤ := (153 * k + 2) / 5

namespace LeapRule

variable (r : LeapRule)

def daysBeforeMarch (y : ℤ) : ℤ := 365 * y + r.leapsThrough y

def dayNumber (d : CalendarDate) : ℤ :=
  r.daysBeforeMarch (marchYear d.year d.month) + daysBeforeMarchMonth (marchMonth d.month) + d.day

theorem leapDay_eq_zero_or_one (y : ℤ) : r.leapDay y = 0 ∨ r.leapDay y = 1 := by
  unfold leapDay
  split
  · right; rfl
  · left; rfl

theorem daysBeforeMarch_succ (y : ℤ) :
    r.daysBeforeMarch (y + 1) = r.daysBeforeMarch y + 365 + r.leapDay (y + 1) := by
  have h : r.leapsThrough (y + 1) = r.leapsThrough y + r.leapDay (y + 1) := r.leapsThrough_succ y
  unfold daysBeforeMarch
  omega

theorem daysBeforeMarch_lt_iff {y y' : ℤ} :
    r.daysBeforeMarch y < r.daysBeforeMarch y' ↔ y < y' := by
  have hmono : StrictMono r.daysBeforeMarch := by
    apply strictMono_int_of_lt_succ
    intro y
    have h := r.leapDay_eq_zero_or_one (y + 1)
    rw [daysBeforeMarch_succ]
    omega
  exact hmono.lt_iff_lt

theorem daysBeforeMarch_le {y y' : ℤ} (h : y ≤ y') :
    r.daysBeforeMarch y ≤ r.daysBeforeMarch y' := by
  rcases lt_or_eq_of_le h with hlt | rfl
  · exact le_of_lt (r.daysBeforeMarch_lt_iff.mpr hlt)
  · exact le_refl _

theorem marchMonth_bounds {m : ℤ} (hpos : 1 ≤ m) (hle : m ≤ 12) :
    0 ≤ marchMonth m ∧ marchMonth m ≤ 11 := by
  unfold marchMonth
  split <;> omega

theorem monthLength_eq {y m : ℤ} (hpos : 1 ≤ m) (hle : m ≤ 12) (hm : m ≠ 2) :
    r.monthLength y m = daysBeforeMarchMonth (marchMonth m + 1) -
      daysBeforeMarchMonth (marchMonth m) := by
  interval_cases m
  case «2» => exact absurd rfl hm
  all_goals rfl

theorem monthLength_february (y : ℤ) : r.monthLength y 2 = 28 + r.leapDay y := if_pos rfl

theorem dayNumber_bounds {d : CalendarDate} (h : r.Valid d) :
    r.daysBeforeMarch (marchYear d.year d.month) < r.dayNumber d ∧
      r.dayNumber d ≤ r.daysBeforeMarch (marchYear d.year d.month + 1) := by
  obtain ⟨hmpos, hmle, hdpos, hdle⟩ := h
  have hbounds := marchMonth_bounds hmpos hmle
  have hleap := r.leapDay_eq_zero_or_one (marchYear d.year d.month + 1)
  rw [daysBeforeMarch_succ, dayNumber]
  by_cases hm : d.month = 2
  · rw [hm, monthLength_february] at hdle
    rw [hm]
    have hyear : marchYear d.year 2 + 1 = d.year := by unfold marchYear; omega
    have hstart : daysBeforeMarchMonth (marchMonth 2) = 337 := rfl
    rw [hyear]
    omega
  · rw [r.monthLength_eq hmpos hmle hm] at hdle
    have hlast : marchMonth d.month ≠ 11 := by
      unfold marchMonth
      split <;> omega
    unfold daysBeforeMarchMonth at hdle ⊢
    omega

theorem month_bounds {d : CalendarDate} (h : r.Valid d) :
    1 ≤ d.day ∧ (marchMonth d.month < 11 →
      daysBeforeMarchMonth (marchMonth d.month) + d.day ≤
        daysBeforeMarchMonth (marchMonth d.month + 1)) := by
  obtain ⟨hmpos, hmle, hdpos, hdle⟩ := h
  refine ⟨hdpos, fun hlt => ?_⟩
  have hm : d.month ≠ 2 := by
    intro hm
    rw [hm] at hlt
    exact absurd hlt (by decide)
  rw [r.monthLength_eq hmpos hmle hm] at hdle
  omega

theorem marchMonth_injective {m m' : ℤ} (hpos : 1 ≤ m) (hle : m ≤ 12) (hpos' : 1 ≤ m')
    (hle' : m' ≤ 12) (h : marchMonth m = marchMonth m') : m = m' := by
  unfold marchMonth at h
  split at h <;> split at h <;> omega

theorem dayNumber_injective {d d' : CalendarDate} (h : r.Valid d) (h' : r.Valid d')
    (heq : r.dayNumber d = r.dayNumber d') : d = d' := by
  have hbounds := r.dayNumber_bounds h
  have hbounds' := r.dayNumber_bounds h'
  have hmonth := r.month_bounds h
  have hmonth' := r.month_bounds h'
  have hmarch := marchMonth_bounds h.month_pos h.month_le
  have hmarch' := marchMonth_bounds h'.month_pos h'.month_le
  rw [heq] at hbounds
  have hyear : marchYear d.year d.month = marchYear d'.year d'.month := by
    have hlt := r.daysBeforeMarch_lt_iff.mp (lt_of_lt_of_le hbounds.1 hbounds'.2)
    have hlt' := r.daysBeforeMarch_lt_iff.mp (lt_of_lt_of_le hbounds'.1 hbounds.2)
    omega
  unfold dayNumber at heq
  rw [hyear] at heq
  -- the later of two different months begins after the earlier one has ended
  have hmeq : marchMonth d.month = marchMonth d'.month := by
    unfold daysBeforeMarchMonth at *
    omega
  have hm := marchMonth_injective h.month_pos h.month_le h'.month_pos h'.month_le hmeq
  have hd : d.day = d'.day := by
    rw [hmeq] at heq
    omega
  have hy : d.year = d'.year := by
    rw [hm] at hyear
    unfold marchYear at hyear
    split at hyear <;> omega
  cases d
  cases d'
  simp_all

/-! ## The next day -/

theorem nextDay_valid {d : CalendarDate} (h : r.Valid d) : r.Valid (r.nextDay d) := by
  obtain ⟨hmpos, hmle, hdpos, hdle⟩ := h
  have hlength (y m : ℤ) : 1 ≤ r.monthLength y m := by
    have h := r.leapDay_eq_zero_or_one y
    unfold monthLength
    split_ifs <;> omega
  unfold nextDay
  split_ifs with hday hmonth
  · exact ⟨hmpos, hmle, by dsimp only; omega, by dsimp only; omega⟩
  · exact ⟨by dsimp only; omega, by dsimp only; omega, le_refl _, hlength _ _⟩
  · exact ⟨le_refl _, by dsimp only; omega, le_refl _, hlength _ _⟩

theorem dayNumber_nextDay {d : CalendarDate} (h : r.Valid d) :
    r.dayNumber (r.nextDay d) = r.dayNumber d + 1 := by
  obtain ⟨hmpos, hmle, hdpos, hdle⟩ := h
  unfold nextDay
  split_ifs with hday hmonth
  · unfold dayNumber
    dsimp only
    omega
  · have hlast : d.day = r.monthLength d.year d.month := le_antisymm hdle (not_lt.mp hday)
    unfold dayNumber
    dsimp only
    by_cases hm : d.month = 2
    · -- the March year ends
      rw [hm, monthLength_february] at hlast
      have hsucc := r.daysBeforeMarch_succ (d.year - 1)
      rw [sub_add_cancel] at hsucc
      have hyear : marchYear d.year 2 = d.year - 1 := if_neg (by decide)
      have hyear' : marchYear d.year (2 + 1) = d.year := if_pos (by decide)
      have hmarch : daysBeforeMarchMonth (marchMonth 2) = 337 := rfl
      have hmarch' : daysBeforeMarchMonth (marchMonth (2 + 1)) = 0 := rfl
      rw [hm, hlast, hyear, hyear', hmarch, hmarch']
      omega
    · rw [r.monthLength_eq hmpos hmle hm] at hlast
      have hyear : marchYear d.year (d.month + 1) = marchYear d.year d.month := by
        unfold marchYear
        split <;> split <;> omega
      have hmarch : marchMonth (d.month + 1) = marchMonth d.month + 1 := by
        unfold marchMonth
        split <;> split <;> omega
      rw [hyear, hmarch, hlast]
      omega
  · have hm : d.month = 12 := by omega
    have hlast : d.day = r.monthLength d.year d.month := le_antisymm hdle (not_lt.mp hday)
    have hlength : r.monthLength d.year 12 = 31 := rfl
    rw [hm, hlength] at hlast
    have hyear : marchYear d.year 12 = d.year := if_pos (by decide)
    have hyear' : marchYear (d.year + 1) 1 = d.year + 1 - 1 := if_neg (by decide)
    have hmarch : daysBeforeMarchMonth (marchMonth 12) = 275 := rfl
    have hmarch' : daysBeforeMarchMonth (marchMonth 1) = 306 := rfl
    unfold dayNumber
    dsimp only
    rw [hm, hlast, hyear, hyear', hmarch, hmarch', add_sub_cancel_right]
    omega

end LeapRule

/-! ## The date of a day of a year -/

/-- The date of a day of a year that begins on 1 March. -/
def ofMarchDay (y n : ℤ) : CalendarDate :=
  let k := (n * 5 - 3) / 153
  ⟨if k < 10 then y else y + 1, if k < 10 then k + 3 else k - 9, (n * 5 - 3) % 153 / 5 + 1⟩

theorem marchMonth_ofMarchDay {y n : ℤ} (h : 1 ≤ n) (hle : n ≤ 366) :
    marchMonth (ofMarchDay y n).month = (n * 5 - 3) / 153 := by
  unfold ofMarchDay marchMonth
  dsimp only
  split_ifs <;> omega

theorem marchYear_ofMarchDay {y n : ℤ} (h : 1 ≤ n) (hle : n ≤ 366) :
    marchYear (ofMarchDay y n).year (ofMarchDay y n).month = y := by
  unfold ofMarchDay marchYear
  dsimp only
  split_ifs <;> omega

namespace LeapRule

variable (r : LeapRule)

theorem dayNumber_ofMarchDay {y n : ℤ} (h : 1 ≤ n) (hle : n ≤ 366) :
    r.dayNumber (ofMarchDay y n) = r.daysBeforeMarch y + n := by
  unfold dayNumber
  rw [marchYear_ofMarchDay h hle, marchMonth_ofMarchDay h hle]
  unfold daysBeforeMarchMonth ofMarchDay
  dsimp only
  omega

theorem ofMarchDay_valid {y n : ℤ} (h : 1 ≤ n) (hle : n ≤ 365 + r.leapDay (y + 1)) :
    r.Valid (ofMarchDay y n) := by
  have hleap := r.leapDay_eq_zero_or_one (y + 1)
  have hmpos : 1 ≤ (ofMarchDay y n).month := by
    unfold ofMarchDay
    dsimp only
    split_ifs <;> omega
  have hmle : (ofMarchDay y n).month ≤ 12 := by
    unfold ofMarchDay
    dsimp only
    split_ifs <;> omega
  refine ⟨hmpos, hmle, ?_, ?_⟩
  · unfold ofMarchDay
    dsimp only
    omega
  · by_cases hm : (ofMarchDay y n).month = 2
    · -- the days of February come last
      rw [hm, monthLength_february]
      have hk : marchMonth (ofMarchDay y n).month = _ := marchMonth_ofMarchDay h (by omega)
      have hyear : (ofMarchDay y n).year = y + 1 := by
        have hy : marchYear (ofMarchDay y n).year _ = y := marchYear_ofMarchDay h (by omega)
        rw [hm, marchYear, if_neg (by decide)] at hy
        omega
      rw [hm, show marchMonth 2 = 11 from rfl] at hk
      rw [hyear]
      unfold ofMarchDay
      dsimp only
      omega
    · have hday : (ofMarchDay y n).day = n - daysBeforeMarchMonth ((n * 5 - 3) / 153) := by
        unfold daysBeforeMarchMonth ofMarchDay
        dsimp only
        omega
      have hend : n ≤ daysBeforeMarchMonth ((n * 5 - 3) / 153 + 1) := by
        unfold daysBeforeMarchMonth
        omega
      rw [r.monthLength_eq hmpos hmle hm, marchMonth_ofMarchDay h (by omega), hday]
      omega

end LeapRule

end PhpRuntime.Lib
