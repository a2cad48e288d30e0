import PhpRuntime.Date.Normalize

/-!
# Normalization of an interval

`timelib_do_rel_normalize` (`ext/date/lib/tm2unixtime.c`) carries the fields of an interval, and
`do_range_limit_days_relative` lends it days while they are negative: the lengths of the months
before the base date, or from the base date on when the interval is inverted.
-/

set_option autoImplicit false

namespace PhpRuntime.Date

open PhpRuntime.Lib.Calendar

/-- A year and a month of the tables: 0 is the December before January. -/
structure YearMonth where
  year : ℤ
  month : ℤ
  nonneg : 0 ≤ month
  le : month ≤ 12

/-- `dec_month` -/
def decMonth (b : YearMonth) : YearMonth :=
  if _h : b.month - 1 < 1 then
    ⟨b.year - 1, b.month - 1 + 12, by have := b.nonneg; omega, by omega⟩
  else ⟨b.year, b.month - 1, by omega, by have := b.le; omega⟩

/-- `inc_month` -/
def incMonth (b : YearMonth) : YearMonth :=
  if _h : 12 < b.month + 1 then
    ⟨b.year + 1, b.month + 1 - 12, by omega, by have := b.le; omega⟩
  else ⟨b.year, b.month + 1, by have := b.nonneg; omega, by omega⟩

/-- `leapyear ? days_in_month_leap[month] : days_in_month[month]` -/
def YearMonth.days (b : YearMonth) : ℤ := daysOfMonth b.year b.month

/-- The place of the month among the months of all years. -/
def YearMonth.index (b : YearMonth) : ℤ := 12 * b.year + b.month

variable {b : YearMonth} {m d k : ℤ}

theorem YearMonth.days_bounds (b : YearMonth) : 28 ≤ b.days ∧ b.days ≤ 31 :=
  daysOfMonth_bounds b.year b.nonneg b.le

theorem YearMonth.days_eq (b : YearMonth) : b.days = lengthOfMonth b.index := by
  rcases lt_or_eq_of_le b.nonneg with h1 | h0
  · exact daysOfMonth_eq b.year h1 b.le
  · have hdecember : 12 * b.year + b.month = 12 * (b.year - 1) + 12 := by omega
    rw [YearMonth.index, hdecember, lengthOfMonth_eq (by decide) (by decide), YearMonth.days, ← h0,
      daysOfMonth]
    split
    · rfl
    · rfl

@[simp] theorem decMonth_index (b : YearMonth) : (decMonth b).index = b.index - 1 := by
  unfold decMonth YearMonth.index
  split
  · dsimp only
    omega
  · dsimp only
    omega

@[simp] theorem incMonth_index (b : YearMonth) : (incMonth b).index = b.index + 1 := by
  unfold incMonth YearMonth.index
  split
  · dsimp only
    omega
  · dsimp only
    omega

/-! ## Lending days -/

/-- The loop of `do_range_limit_days_relative` that goes back from the base: `(*m, *d)`. -/
def lendBefore (b : YearMonth) (m d : ℤ) : ℤ × ℤ :=
  if d < 0 then lendBefore (decMonth b) (m - 1) (d + (decMonth b).days) else (m, d)
termination_by (-d).toNat
decreasing_by
  have h := (decMonth b).days_bounds
  omega

def lendFrom (b : YearMonth) (m d : ℤ) : ℤ × ℤ :=
  if d < 0 then lendFrom (incMonth b) (m - 1) (d + b.days) else (m, d)
termination_by (-d).toNat
decreasing_by
  have h := b.days_bounds
  omega

theorem lendBefore_of_nonneg (h : 0 ≤ d) : lendBefore b m d = (m, d) := by
  rw [lendBefore, if_neg (not_lt.mpr h)]

theorem lendFrom_of_nonneg (h : 0 ≤ d) : lendFrom b m d = (m, d) := by
  rw [lendFrom, if_neg (not_lt.mpr h)]

/-- The day that is denoted stays when the months are counted back from the base. It lies in the
month that is reached, and no more months are taken than there are down to a month that begins
before it. -/
theorem lendBefore_spec (hk : monthStart k ≤ monthStart b.index + d) :
    0 ≤ (lendBefore b m d).2 ∧
      (d < 0 → (lendBefore b m d).2 < lengthOfMonth (b.index - (m - (lendBefore b m d).1))) ∧
      monthStart (b.index - (m - (lendBefore b m d).1)) + (lendBefore b m d).2 =
        monthStart b.index + d ∧
      (k ≤ b.index → k ≤ b.index - (m - (lendBefore b m d).1)) := by
  fun_induction lendBefore b m d with
  | case1 b m d hneg ih =>
    have hbounds := (decMonth b).days_bounds
    have hdays := (decMonth b).days_eq
    have hsucc := monthStart_succ (b.index - 1)
    rw [sub_add_cancel] at hsucc
    simp only [decMonth_index] at ih hdays
    obtain ⟨hnonneg, hle, hday, hmonth⟩ := ih (by omega)
    have hindex : b.index - 1 - (m - 1 - (lendBefore (decMonth b) (m - 1)
        (d + (decMonth b).days)).1) =
          b.index - (m - (lendBefore (decMonth b) (m - 1) (d + (decMonth b).days)).1) := by omega
    rw [hindex] at hday hmonth hle
    refine ⟨hnonneg, fun _ => ?_, by omega, fun _ => hmonth ?_⟩
    · rcases lt_or_ge (d + (decMonth b).days) 0 with hagain | hdone
      · exact hle hagain
      · rw [lendBefore_of_nonneg hdone]
        dsimp only
        rw [sub_sub_cancel]
        omega
    · have hbefore : k < b.index := lt_of_monthStart_lt (by omega)
      omega
  | case2 b m d hnonneg =>
    dsimp only
    rw [sub_self, sub_zero]
    exact ⟨by omega, fun h => absurd h hnonneg, rfl, fun h => h⟩

theorem lendFrom_spec (hk : monthStart b.index ≤ monthStart k + d) :
    0 ≤ (lendFrom b m d).2 ∧
      (d < 0 → (lendFrom b m d).2 < lengthOfMonth (b.index + (m - (lendFrom b m d).1) - 1)) ∧
      monthStart (b.index + (m - (lendFrom b m d).1)) - (lendFrom b m d).2 =
        monthStart b.index - d ∧
      (b.index ≤ k → b.index + (m - (lendFrom b m d).1) ≤ k) := by
  fun_induction lendFrom b m d with
  | case1 b m d hneg ih =>
    have hbounds := b.days_bounds
    have hdays := b.days_eq
    have hsucc := monthStart_succ b.index
    simp only [incMonth_index] at ih
    obtain ⟨hnonneg, hle, hday, hmonth⟩ := ih (by omega)
    have hindex : b.index + 1 + (m - 1 - (lendFrom (incMonth b) (m - 1) (d + b.days)).1) =
        b.index + (m - (lendFrom (incMonth b) (m - 1) (d + b.days)).1) := by omega
    rw [hindex] at hday hmonth hle
    refine ⟨hnonneg, fun _ => ?_, by omega, fun _ => hmonth ?_⟩
    · rcases lt_or_ge (d + b.days) 0 with hagain | hdone
      · exact hle hagain
      · rw [lendFrom_of_nonneg hdone]
        dsimp only
        rw [sub_sub_cancel, add_sub_cancel_right]
        omega
    · have hafter : b.index < k := lt_of_monthStart_lt (by omega)
      omega
  | case2 b m d hnonneg =>
    dsimp only
    rw [sub_self, add_zero]
    exact ⟨by omega, fun h => absurd h hnonneg, rfl, fun h => h⟩

/-! ## All fields -/

/-- The fields of `timelib_rel_time` that an interval has. The number of days has no value where the
conversion to `int` that gives it has none. -/
structure RelTime where
  y : ℤ
  m : ℤ
  d : ℤ
  h : ℤ
  i : ℤ
  s : ℤ
  invert : Bool
  days : Option ℤ
  deriving Repr, DecidableEq

theorem limitMonth_table (t : Ymd) : 0 ≤ (limitMonth t).m ∧ (limitMonth t).m ≤ 12 := by
  have hspec := (limitMonth_spec t).2.2
  omega

/-- `do_range_limit(1, 13, 12, base_m, base_y)` -/
def baseMonth (baseY baseM : ℤ) : YearMonth :=
  ⟨(limitMonth ⟨baseY, baseM, 0⟩).y, (limitMonth ⟨baseY, baseM, 0⟩).m,
    (limitMonth_table ⟨baseY, baseM, 0⟩).1, (limitMonth_table ⟨baseY, baseM, 0⟩).2⟩

/-- `do_range_limit_days_relative`: the new `*m` and `*d`. -/
def doRangeLimitDaysRelative (baseY baseM m d : ℤ) (invert : Bool) : ℤ × ℤ :=
  if !invert then lendBefore (baseMonth baseY baseM) m d
  else lendFrom (baseMonth baseY baseM) m d

/-- `timelib_do_rel_normalize` -/
def timelibDoRelNormalize (baseY baseM : ℤ) (rt : RelTime) : RelTime :=
  let s := doRangeLimit 0 60 60 rt.s rt.i
  let i := doRangeLimit 0 60 60 s.2 rt.h
  let h := doRangeLimit 0 24 24 i.2 rt.d
  let m := doRangeLimit 0 12 12 rt.m rt.y
  let days := doRangeLimitDaysRelative baseY baseM m.1 h.2 rt.invert
  let m := doRangeLimit 0 12 12 days.1 m.2
  { rt with s := s.1, i := i.1, h := h.1, d := days.2, m := m.1, y := m.2 }

/-- The days, with the whole days of the time of day. -/
def RelTime.wholeDays (rt : RelTime) : ℤ := rt.d + (3600 * rt.h + 60 * rt.i + rt.s) / 86400

/-- The months of an interval, with the months of its years. -/
def RelTime.months (rt : RelTime) : ℤ := 12 * rt.y + rt.m

theorem baseMonth_index (y m : ℤ) : (baseMonth y m).index = 12 * y + m :=
  (limitMonth_spec ⟨y, m, 0⟩).2.1

theorem timelibDoRelNormalize_spec (baseY baseM : ℤ) (rt : RelTime) :
    let r := timelibDoRelNormalize baseY baseM rt
    let days := doRangeLimitDaysRelative baseY baseM (rt.m % 12) rt.wholeDays rt.invert
    r.d = days.2 ∧ rt.months - r.months = rt.m % 12 - days.1 ∧ (0 ≤ r.m ∧ r.m < 12) ∧
      3600 * r.h + 60 * r.i + r.s = (3600 * rt.h + 60 * rt.i + rt.s) % 86400 ∧
      (0 ≤ r.h ∧ r.h < 24) ∧ (0 ≤ r.i ∧ r.i < 60) ∧ (0 ≤ r.s ∧ r.s < 60) := by
  have hdays : rt.d + (rt.h + (rt.i + rt.s / 60) / 60) / 24 = rt.wholeDays := by
    unfold RelTime.wholeDays
    omega
  rw [timelibDoRelNormalize]
  simp only [doRangeLimit_zero (show (0 : ℤ) < 60 by decide),
    doRangeLimit_zero (show (0 : ℤ) < 24 by decide),
    doRangeLimit_zero (show (0 : ℤ) < 12 by decide), hdays]
  unfold RelTime.months
  dsimp only
  refine ⟨trivial, ?_, ?_, ?_, ?_, ?_, ?_⟩ <;> omega

end PhpRuntime.Date
