import Mathlib.Algebra.BigOperators.Intervals
import Mathlib.Algebra.Order.BigOperators.Group.Finset
import Mathlib.Algebra.Order.Ring.Int
import Mathlib.Data.Int.SuccPred

/-!
# Calendars of years and months

A calendar is given by the day on which each year begins and by the lengths of the months, of which
some may be empty. A day belongs to one date only, and two days in a row have dates in a row.
-/

set_option autoImplicit false

namespace PhpRuntime.Lib

/-- The years are counted from 0, the months from 1. -/
structure MonthCalendar where
  newYear : ℕ → ℤ
  months : ℕ
  monthLength : ℕ → ℕ → ℤ
  monthLength_nonneg : ∀ y m, 0 ≤ monthLength y m
  newYear_succ : ∀ y, newYear (y + 1) =
    newYear y + ∑ k ∈ Finset.range months, monthLength y (k + 1)
  newYear_lt : ∀ y, newYear y < newYear (y + 1)

/-- A date of such a calendar. -/
structure MonthDate where
  year : ℕ
  month : ℕ
  day : ℤ
  deriving DecidableEq, Repr

namespace MonthCalendar

variable (c : MonthCalendar)

def daysBefore (y m : ℕ) : ℤ := ∑ k ∈ Finset.range (m - 1), c.monthLength y (k + 1)

def number (t : MonthDate) : ℤ := c.newYear t.year + c.daysBefore t.year t.month + (t.day - 1)

/-- The month and the day exist. -/
structure Valid (t : MonthDate) : Prop where
  month_pos : 1 ≤ t.month
  month_le : t.month ≤ c.months
  day_pos : 1 ≤ t.day
  day_le : t.day ≤ c.monthLength t.year t.month

/-- The second date is the one after the first: the next day of the month, or the first day of the
next month that has days, if need be in the next year. -/
inductive Next (t : MonthDate) : MonthDate → Prop
  | day (h : t.day < c.monthLength t.year t.month) : Next t ⟨t.year, t.month, t.day + 1⟩
  | month (m : ℕ) (hlast : t.day = c.monthLength t.year t.month) (hm : t.month < m)
      (hempty : ∀ k, t.month < k → k < m → c.monthLength t.year k = 0) : Next t ⟨t.year, m, 1⟩
  | year (m : ℕ) (hlast : t.day = c.monthLength t.year t.month)
      (hend : ∀ k, t.month < k → k ≤ c.months → c.monthLength t.year k = 0)
      (hempty : ∀ k, 1 ≤ k → k < m → c.monthLength (t.year + 1) k = 0) : Next t ⟨t.year + 1, m, 1⟩

variable {c} {t t' : MonthDate}

theorem daysBefore_succ (y : ℕ) {m : ℕ} (h : 1 ≤ m) :
    c.daysBefore y (m + 1) = c.daysBefore y m + c.monthLength y m := by
  obtain ⟨k, rfl⟩ := Nat.exists_eq_add_of_le' h
  exact Finset.sum_range_succ _ _

theorem daysBefore_mono (y : ℕ) {m m' : ℕ} (h : m ≤ m') :
    c.daysBefore y m ≤ c.daysBefore y m' :=
  Finset.sum_le_sum_of_subset_of_nonneg (Finset.range_subset_range.mpr (by omega))
    fun _ _ _ => c.monthLength_nonneg _ _

theorem monthLength_eq_zero {y m m' : ℕ} (h1 : 1 ≤ m) (h : c.daysBefore y m = c.daysBefore y m')
    {k : ℕ} (hk : m ≤ k) (hk' : k < m') : c.monthLength y k = 0 := by
  have hsucc := c.daysBefore_succ y (h1.trans hk)
  have hlow := c.daysBefore_mono y hk
  have hhigh := c.daysBefore_mono y (show k + 1 ≤ m' by omega)
  have hnonneg := c.monthLength_nonneg y k
  omega

theorem newYear_succ' (y : ℕ) : c.newYear (y + 1) = c.newYear y + c.daysBefore y (c.months + 1) :=
  c.newYear_succ y

theorem newYear_mono {y y' : ℕ} (h : y ≤ y') : c.newYear y ≤ c.newYear y' :=
  monotone_nat_of_le_succ (fun y => (c.newYear_lt y).le) h

theorem Valid.number_bounds (h : c.Valid t) :
    c.newYear t.year + c.daysBefore t.year t.month ≤ c.number t ∧
      c.number t < c.newYear t.year + c.daysBefore t.year (t.month + 1) := by
  have hpos := h.day_pos
  have hle := h.day_le
  rw [c.daysBefore_succ t.year h.month_pos]
  unfold number
  omega

theorem Valid.number_in_year (h : c.Valid t) :
    c.newYear t.year ≤ c.number t ∧ c.number t < c.newYear (t.year + 1) := by
  obtain ⟨hlow, hhigh⟩ := h.number_bounds
  have hfirst : 0 ≤ c.daysBefore t.year t.month := c.daysBefore_mono t.year (Nat.zero_le _)
  have hlast := c.daysBefore_mono t.year (Nat.add_le_add_right h.month_le 1)
  rw [newYear_succ']
  omega

theorem Valid.year_le (h : c.Valid t) (h' : c.Valid t') (hle : c.number t ≤ c.number t') :
    t.year ≤ t'.year := by
  by_contra hlt
  have hmono := c.newYear_mono (show t'.year + 1 ≤ t.year by omega)
  have hyear := h.number_in_year
  have hyear' := h'.number_in_year
  omega

theorem Valid.month_le' (h : c.Valid t) (h' : c.Valid t') (hyear : t.year = t'.year)
    (hle : c.number t ≤ c.number t') : t.month ≤ t'.month := by
  by_contra hlt
  have hmono := c.daysBefore_mono t'.year (show t'.month + 1 ≤ t.month by omega)
  have hmonth := h.number_bounds
  have hmonth' := h'.number_bounds
  rw [hyear] at hmonth
  omega

theorem next_of_number (h : c.Valid t) (h' : c.Valid t') (heq : c.number t' = c.number t + 1) :
    c.Next t t' := by
  have hyear := h.year_le h' (by omega)
  have hbounds := h.number_bounds
  have hbounds' := h'.number_bounds
  have hday := h'.day_pos
  have hnumber : c.number t = c.newYear t.year + c.daysBefore t.year t.month + (t.day - 1) := rfl
  have hnumber' : c.number t' =
      c.newYear t'.year + c.daysBefore t'.year t'.month + (t'.day - 1) := rfl
  have hsucc := c.daysBefore_succ t.year h.month_pos
  have hdayLe := h.day_le
  obtain ⟨y', m', d'⟩ := t'
  dsimp only at *
  rcases Nat.eq_or_lt_of_le hyear with rfl | hlt
  · have hmonth := h.month_le' h' rfl (by omega)
    rcases Nat.eq_or_lt_of_le hmonth with hmonth | hmonth
    · dsimp only at hmonth
      subst hmonth
      have hd : d' = t.day + 1 := by omega
      rw [hd]
      exact .day (by have hle := h'.day_le; dsimp only at hle; omega)
    · -- the month is over
      dsimp only at hmonth
      have hmono := c.daysBefore_mono t.year (show t.month + 1 ≤ m' from hmonth)
      have hd : d' = 1 := by omega
      rw [hd]
      refine .month m' (by omega) hmonth fun k hk hk' => ?_
      exact monthLength_eq_zero (by omega) (show c.daysBefore t.year (t.month + 1) =
        c.daysBefore t.year m' by omega) hk hk'
  · -- the year is over
    have hin := h.number_in_year
    have hin' := h'.number_in_year
    have hmono := c.newYear_mono (show t.year + 1 ≤ y' from hlt)
    have hlast := c.daysBefore_mono t.year (Nat.add_le_add_right h.month_le 1)
    have hfirst : 0 ≤ c.daysBefore y' m' := c.daysBefore_mono y' (Nat.zero_le _)
    have hyears := c.newYear_succ' t.year
    dsimp only at hin hin'
    have hy : y' = t.year + 1 := by
      by_contra hne
      have hmono' := c.newYear_mono (show t.year + 1 + 1 ≤ y' by omega)
      have hlt' := c.newYear_lt (t.year + 1)
      omega
    subst hy
    have hd : d' = 1 := by omega
    rw [hd]
    refine .year m' (by omega) (fun k hk hk' => ?_) fun k hk hk' => ?_
    · exact monthLength_eq_zero (by omega) (show c.daysBefore t.year (t.month + 1) =
        c.daysBefore t.year (c.months + 1) by omega) hk (by omega)
    · have hzero : c.daysBefore (t.year + 1) 1 = 0 := rfl
      exact monthLength_eq_zero le_rfl (show c.daysBefore (t.year + 1) 1 =
        c.daysBefore (t.year + 1) m' by omega) hk hk'

end MonthCalendar

end PhpRuntime.Lib
