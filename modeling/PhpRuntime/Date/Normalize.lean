import PhpRuntime.Date.Inverse

/-!
# Normalization

`timelib_do_normalize` (`ext/date/lib/tm2unixtime.c`) carries seconds into minutes, minutes into
hours, hours into days and months into years, and then moves the days month by month until they lie
in their month. The fields keep the instant that they denote, and they end in their ranges; the
time of day is left alone when the seconds are unset.
-/

set_option autoImplicit false

namespace PhpRuntime.Date

open PhpRuntime.Lib.Calendar

def timelibUnset : ℤ := -99999

def daysInMonthLeap : List ℤ := [31, 31, 29, 31, 30, 31, 30, 31, 31, 30, 31, 30, 31]

def daysInMonth : List ℤ := [31, 31, 28, 31, 30, 31, 30, 31, 31, 30, 31, 30, 31]

/-- `leapyear ? days_in_month_leap[month] : days_in_month[month]` -/
def daysOfMonth (year month : ℤ) : ℤ :=
  if timelibIsLeap year then daysInMonthLeap.getD month.toNat 0
  else daysInMonth.getD month.toNat 0

/-- `do_range_limit`: the new `*a` and `*b`. It always returns 0, so the loops around it end after
one turn. -/
def doRangeLimit (start end' adj a b : ℤ) : ℤ × ℤ :=
  let r :=
    if a < start then
      (a + adj * ((start - a - 1).tdiv adj + 1), b - ((start - a - 1).tdiv adj + 1))
    else (a, b)
  if end' ≤ r.1 then (r.1 - adj * r.1.tdiv adj, r.2 + r.1.tdiv adj) else r

/-- The fields of a date. -/
structure Ymd where
  y : ℤ
  m : ℤ
  d : ℤ
  deriving Repr, DecidableEq

/-- The jump over whole 400-year periods at the beginning of `do_range_limit_days`. -/
def jumpPeriods (t : Ymd) : Ymd :=
  if daysPerLyearPeriod ≤ t.d ∨ t.d ≤ -daysPerLyearPeriod then
    { t with
      y := t.y + yearsPerLyearPeriod * t.d.tdiv daysPerLyearPeriod
      d := t.d - daysPerLyearPeriod * t.d.tdiv daysPerLyearPeriod }
  else t

/-- `do_range_limit(1, 13, 12, m, y)` -/
def limitMonth (t : Ymd) : Ymd :=
  let r := doRangeLimit 1 13 12 t.m t.y
  { t with m := r.1, y := r.2 }

/-- The move by one month that ends `do_range_limit_days`: its return value and the new fields. -/
def moveMonth (t : Ymd) : Bool × Ymd :=
  let daysThisMonth := daysOfMonth t.y t.m
  let lastMonth := if t.m - 1 < 1 then t.m - 1 + 12 else t.m - 1
  let lastYear := if t.m - 1 < 1 then t.y - 1 else t.y
  let daysLastMonth := daysOfMonth lastYear lastMonth
  if t.d ≤ 0 then (true, { t with d := t.d + daysLastMonth, m := t.m - 1 })
  else if daysThisMonth < t.d then (true, { t with d := t.d - daysThisMonth, m := t.m + 1 })
  else (false, t)

/-- `do_range_limit_days` -/
def doRangeLimitDays (t : Ymd) : Bool × Ymd := moveMonth (limitMonth (jumpPeriods t))

variable {start adj a b : ℤ} {t : Ymd}

/-! ## Carrying -/

theorem neg_sub_one_ediv (a : ℤ) (hadj : 0 < adj) : (-a - 1) / adj = -(a / adj) - 1 := by
  have hmod := Int.emod_nonneg a hadj.ne'
  have hlt := Int.emod_lt_of_pos a hadj
  have hsplit : -a - 1 = (adj - 1 - a % adj) + adj * (-(a / adj) - 1) := by
    have hdiv := Int.emod_add_mul_ediv a adj
    rw [mul_sub, mul_neg, mul_one]
    omega
  rw [hsplit, Int.add_mul_ediv_left _ _ hadj.ne', Int.ediv_eq_zero_of_lt (by omega) (by omega),
    zero_add]

theorem doRangeLimit_zero (hadj : 0 < adj) (a b : ℤ) :
    doRangeLimit 0 adj adj a b = (a % adj, b + a / adj) := by
  have hlt := Int.emod_lt_of_pos a hadj
  have hdiv := Int.emod_add_mul_ediv a adj
  rw [doRangeLimit]
  split
  · next hneg =>
    have hquot : (0 - a - 1).tdiv adj + 1 = -(a / adj) := by
      rw [zero_sub, tdiv_of_nonneg (by omega), neg_sub_one_ediv a hadj, sub_add_cancel]
    have hrem : a + adj * -(a / adj) = a % adj := by
      rw [mul_neg]
      omega
    rw [hquot]
    dsimp only
    rw [hrem, if_neg (by omega), sub_neg_eq_add]
  · next hneg =>
    dsimp only
    split
    · rw [tdiv_of_nonneg (by omega)]
      have hrem : a - adj * (a / adj) = a % adj := by omega
      rw [hrem]
    · rw [Int.emod_eq_of_lt (by omega) (by omega), Int.ediv_eq_zero_of_lt (by omega) (by omega),
        add_zero]

theorem limitMonth_spec (t : Ymd) :
    (limitMonth t).d = t.d ∧ 12 * (limitMonth t).y + (limitMonth t).m = 12 * t.y + t.m ∧
      ((limitMonth t).m = 0 ∧ 24 ≤ t.m ∨ 1 ≤ (limitMonth t).m ∧ (limitMonth t).m ≤ 12) := by
  have hdown : t.m < 1 → (1 - t.m - 1).tdiv 12 = (-t.m) / 12 := by
    intro h
    rw [tdiv_of_nonneg (by omega)]
    omega
  have hup : 13 ≤ t.m → t.m.tdiv 12 = t.m / 12 := fun h => tdiv_of_nonneg (by omega) 12
  rw [limitMonth, doRangeLimit]
  dsimp only
  split
  · next hlow =>
    rw [hdown hlow]
    dsimp only
    rw [if_neg (by omega)]
    dsimp only
    omega
  · next hlow =>
    dsimp only
    split
    · next hhigh =>
      rw [hup hhigh]
      dsimp only
      omega
    · dsimp only
      omega

theorem limitMonth_of_le (h : t.m ≤ 23) :
    1 ≤ (limitMonth t).m ∧ (limitMonth t).m ≤ 12 := by
  have hspec := (limitMonth_spec t).2.2
  omega

/-! ## The days -/

/-- The day number that the fields denote: months outside of the year are carried into it, and the
days are counted from the beginning of the month. -/
def Ymd.number (t : Ymd) : ℤ := monthStart (12 * t.y + t.m) + (t.d - 1)

theorem number_eq {y m d : ℤ} (h1 : 1 ≤ m) (h12 : m ≤ 12) :
    (⟨y, m, d⟩ : Ymd).number = dayNumber y m.toNat d :=
  (dayNumber_eq_monthStart h1 h12 d).symm

theorem limitMonth_number (t : Ymd) : (limitMonth t).number = t.number := by
  obtain ⟨hd, hm, -⟩ := limitMonth_spec t
  rw [Ymd.number, hd, hm, Ymd.number]

theorem daysOfMonth_eq (y : ℤ) {m : ℤ} (h1 : 1 ≤ m) (h12 : m ≤ 12) :
    daysOfMonth y m = lengthOfMonth (12 * y + m) := by
  rw [lengthOfMonth_eq h1 h12, daysOfMonth]
  obtain ⟨k, rfl⟩ := Int.eq_ofNat_of_zero_le (show 0 ≤ m by omega)
  rw [Int.toNat_natCast]
  have hk1 : 1 ≤ k := by omega
  have hk12 : k ≤ 12 := by omega
  by_cases hl : Leap y
  · rw [if_pos ((timelibIsLeap_iff y).mpr hl)]
    interval_cases k <;> simp [daysInMonthLeap, monthLength, leapDay_of_leap hl]
  · rw [if_neg (fun h => hl ((timelibIsLeap_iff y).mp h))]
    interval_cases k <;> simp [daysInMonth, monthLength, leapDay_of_not hl]

theorem jumpPeriods_spec (t : Ymd) :
    (jumpPeriods t).number = t.number ∧ (jumpPeriods t).m = t.m ∧
      (0 < t.d → 0 ≤ (jumpPeriods t).d ∧ (jumpPeriods t).d ≤ t.d ∧
        ((jumpPeriods t).d = 0 → 146097 ≤ t.d)) ∧
      (t.d ≤ 0 → t.d ≤ (jumpPeriods t).d ∧ (jumpPeriods t).d ≤ 0) := by
  rw [jumpPeriods]
  unfold daysPerLyearPeriod yearsPerLyearPeriod
  split
  · next hjump =>
    refine ⟨?_, rfl, ?_⟩
    · rw [Ymd.number, Ymd.number]
      dsimp only
      have hperiod := monthStart_add_period (12 * t.y + t.m) (t.d.tdiv 146097)
      have hindex : 12 * (t.y + 400 * t.d.tdiv 146097) + t.m =
          12 * t.y + t.m + 4800 * t.d.tdiv 146097 := by omega
      rw [hindex, hperiod]
      omega
    · dsimp only
      rcases le_total 0 t.d with hpos | hneg
      · rw [tdiv_of_nonneg hpos]
        omega
      · rw [tdiv_of_neg _ _ hneg]
        omega
  · next hjump => exact ⟨rfl, rfl, by omega⟩

theorem daysLastMonth_eq {y m : ℤ} (h1 : 1 ≤ m) (h12 : m ≤ 12) :
    daysOfMonth (if m - 1 < 1 then y - 1 else y) (if m - 1 < 1 then m - 1 + 12 else m - 1) =
      lengthOfMonth (12 * y + m - 1) := by
  by_cases h : m - 1 < 1
  · rw [if_pos h, if_pos h, daysOfMonth_eq _ (by omega) (by omega)]
    exact congrArg _ (by omega)
  · rw [if_neg h, if_neg h, daysOfMonth_eq _ (by omega) (by omega)]
    exact congrArg _ (by omega)

theorem daysOfMonth_bounds (y : ℤ) {m : ℤ} (h0 : 0 ≤ m) (h12 : m ≤ 12) :
    28 ≤ daysOfMonth y m ∧ daysOfMonth y m ≤ 31 := by
  rcases lt_or_eq_of_le h0 with h1 | rfl
  · rw [daysOfMonth_eq y h1 h12]
    exact lengthOfMonth_bounds _
  · rw [daysOfMonth]
    split
    · exact ⟨by decide, by decide⟩
    · exact ⟨by decide, by decide⟩

theorem moveMonth_d (h0 : 0 ≤ t.m) (h12 : t.m ≤ 12) (hmoved : (moveMonth t).1 = true) :
    (0 < t.d → 0 < (moveMonth t).2.d ∧ (moveMonth t).2.d + 28 ≤ t.d) ∧
      (t.d ≤ 0 → t.d + 28 ≤ (moveMonth t).2.d ∧ (moveMonth t).2.d ≤ t.d + 31) := by
  have hthis := daysOfMonth_bounds t.y h0 h12
  have hlast := daysOfMonth_bounds (if t.m - 1 < 1 then t.y - 1 else t.y)
    (show 0 ≤ if t.m - 1 < 1 then t.m - 1 + 12 else t.m - 1 by split <;> omega)
    (by split <;> omega)
  revert hmoved
  rw [moveMonth]
  split
  · dsimp only
    intro _
    omega
  split
  · dsimp only
    intro _
    omega
  · intro hmoved
    exact absurd hmoved Bool.false_ne_true

theorem moveMonth_spec (h1 : 1 ≤ t.m) (h12 : t.m ≤ 12) :
    (moveMonth t).2.number = t.number ∧ (moveMonth t).2.m ≤ 13 ∧
      ((moveMonth t).1 = false → (moveMonth t).2 = t ∧ 1 ≤ t.d ∧
        t.d ≤ monthLength t.y t.m.toNat) := by
  have hsucc := monthStart_succ (12 * t.y + t.m)
  have hsucc' := monthStart_succ (12 * t.y + t.m - 1)
  rw [sub_add_cancel] at hsucc'
  rw [moveMonth, daysLastMonth_eq h1 h12, daysOfMonth_eq t.y h1 h12]
  split
  · refine ⟨?_, by dsimp only; omega, fun h => absurd h Bool.false_ne_true.symm⟩
    rw [Ymd.number, Ymd.number]
    dsimp only
    rw [show 12 * t.y + (t.m - 1) = 12 * t.y + t.m - 1 by omega]
    omega
  split
  · refine ⟨?_, by dsimp only; omega, fun h => absurd h Bool.false_ne_true.symm⟩
    rw [Ymd.number, Ymd.number]
    dsimp only
    rw [show 12 * t.y + (t.m + 1) = 12 * t.y + t.m + 1 by omega]
    omega
  · next hd hover =>
    rw [lengthOfMonth_eq h1 h12] at hover
    exact ⟨rfl, by dsimp only; omega, fun _ => ⟨rfl, by omega, by omega⟩⟩

theorem doRangeLimitDays_d (t : Ymd) (hmoved : (doRangeLimitDays t).1 = true) :
    (0 < t.d → 0 < (doRangeLimitDays t).2.d ∧ (doRangeLimitDays t).2.d < t.d) ∧
      (t.d ≤ 0 → t.d < (doRangeLimitDays t).2.d ∧ (doRangeLimitDays t).2.d ≤ 31) := by
  obtain ⟨-, -, hpos, hneg⟩ := jumpPeriods_spec t
  obtain ⟨hd, -, hm⟩ := limitMonth_spec (jumpPeriods t)
  obtain ⟨hforth, hback⟩ := moveMonth_d (by omega) (by omega) hmoved
  rw [doRangeLimitDays]
  constructor
  · intro ht
    rcases lt_or_ge 0 (limitMonth (jumpPeriods t)).d with hd' | hd'
    · have hturn := hforth hd'
      omega
    · have hturn := hback hd'
      omega
  · intro ht
    have hturn := hback (by omega)
    omega

theorem doRangeLimitDays_spec (h : t.m ≤ 23) :
    (doRangeLimitDays t).2.number = t.number ∧ (doRangeLimitDays t).2.m ≤ 23 ∧
      ((doRangeLimitDays t).1 = false →
        1 ≤ (doRangeLimitDays t).2.m ∧ ValidDate (doRangeLimitDays t).2.y
          (doRangeLimitDays t).2.m.toNat (doRangeLimitDays t).2.d) := by
  obtain ⟨hnumber, hmonth, -⟩ := jumpPeriods_spec t
  obtain ⟨h1, h12⟩ := @limitMonth_of_le (jumpPeriods t) (by omega)
  obtain ⟨hmove, h13, hstop⟩ := moveMonth_spec h1 h12
  rw [doRangeLimitDays]
  refine ⟨?_, by omega, fun hdone => ?_⟩
  · rw [hmove, limitMonth_number, hnumber]
  · obtain ⟨hsame, hfirst, hlast⟩ := hstop hdone
    rw [hsame]
    exact ⟨h1, by omega, by omega, hfirst, hlast⟩

/-! ## The loop -/

def daysLeft (t : Ymd) : ℕ := if 0 < t.d then t.d.toNat else (32 - t.d).toNat

theorem daysLeft_lt (hmoved : (doRangeLimitDays t).1 = true) :
    daysLeft (doRangeLimitDays t).2 < daysLeft t := by
  have hturn := doRangeLimitDays_d t hmoved
  unfold daysLeft
  split <;> split <;> omega

/-- `do {} while (do_range_limit_days(&time->y, &time->m, &time->d))` -/
def normalizeDays (t : Ymd) : Ymd :=
  if _hmoved : (doRangeLimitDays t).1 then normalizeDays (doRangeLimitDays t).2
  else (doRangeLimitDays t).2
termination_by daysLeft t
decreasing_by exact daysLeft_lt _hmoved

theorem normalizeDays_spec (t : Ymd) (h : t.m ≤ 23) :
    (normalizeDays t).number = t.number ∧ 1 ≤ (normalizeDays t).m ∧
      ValidDate (normalizeDays t).y (normalizeDays t).m.toNat (normalizeDays t).d := by
  fun_induction normalizeDays t with
  | case1 t hmoved ih =>
    obtain ⟨hnumber, hm, -⟩ := doRangeLimitDays_spec h
    rw [← hnumber]
    exact ih hm
  | case2 t hdone =>
    obtain ⟨hnumber, -, hstop⟩ := doRangeLimitDays_spec h
    exact ⟨hnumber, hstop (Bool.eq_false_iff.mpr hdone)⟩

/-! ## All fields -/

/-- The three limits on the time of day: seconds, minutes and hours are carried. -/
def limitTime (time : Time) : Time :=
  let s := doRangeLimit 0 60 60 time.s time.i
  let i := doRangeLimit 0 60 60 s.2 time.h
  let h := doRangeLimit 0 24 24 i.2 time.d
  { time with s := s.1, i := i.1, h := h.1, d := h.2 }

/-- `timelib_do_normalize` -/
def timelibDoNormalize (time : Time) : Time :=
  let time := if time.s ≠ timelibUnset then limitTime time else time
  let date := limitMonth (normalizeDays (limitMonth ⟨time.y, time.m, time.d⟩))
  { time with y := date.y, m := date.m, d := date.d }

/-- The second that the fields denote, whatever their values are. -/
def fieldSeconds (time : Time) : ℤ :=
  86400 * (⟨time.y, time.m, time.d⟩ : Ymd).number + (3600 * time.h + 60 * time.i + time.s)

theorem limitTime_spec (time : Time) :
    fieldSeconds (limitTime time) = fieldSeconds time ∧
      (0 ≤ (limitTime time).h ∧ (limitTime time).h < 24) ∧
      (0 ≤ (limitTime time).i ∧ (limitTime time).i < 60) ∧
      (0 ≤ (limitTime time).s ∧ (limitTime time).s < 60) := by
  rw [limitTime]
  simp only [doRangeLimit_zero (show (0 : ℤ) < 60 by decide),
    doRangeLimit_zero (show (0 : ℤ) < 24 by decide)]
  refine ⟨?_, by omega, by omega, by omega⟩
  rw [fieldSeconds, fieldSeconds, Ymd.number, Ymd.number]
  dsimp only
  omega

theorem limitMonth_of_valid (h1 : 1 ≤ t.m) (h12 : t.m ≤ 12) : limitMonth t = t := by
  rw [limitMonth, doRangeLimit]
  simp only [if_neg (show ¬ t.m < 1 by omega), if_neg (show ¬ 13 ≤ t.m by omega)]

theorem normalizeDate_spec (t : Ymd) :
    (limitMonth (normalizeDays (limitMonth t))).number = t.number ∧
      1 ≤ (limitMonth (normalizeDays (limitMonth t))).m ∧
      ValidDate (limitMonth (normalizeDays (limitMonth t))).y
        (limitMonth (normalizeDays (limitMonth t))).m.toNat
        (limitMonth (normalizeDays (limitMonth t))).d := by
  have hmonth := (limitMonth_spec t).2.2
  obtain ⟨hnumber, h1, hdate⟩ := normalizeDays_spec (limitMonth t) (by omega)
  have h12 := hdate.month_le
  rw [limitMonth_of_valid h1 (by omega), hnumber, limitMonth_number]
  exact ⟨rfl, h1, hdate⟩

theorem timelibDoNormalize_civil {time : Time} (hs : time.s ≠ timelibUnset) :
    fieldSeconds (timelibDoNormalize time) = fieldSeconds time ∧
      (timelibDoNormalize time).Civil := by
  rw [timelibDoNormalize, if_pos hs]
  obtain ⟨hseconds, hhour, hminute, hsecond⟩ := limitTime_spec time
  obtain ⟨hnumber, h1, hdate⟩ := normalizeDate_spec
    ⟨(limitTime time).y, (limitTime time).m, (limitTime time).d⟩
  refine ⟨?_, h1, hdate, hhour, hminute, hsecond⟩
  rw [← hseconds, fieldSeconds, fieldSeconds, ← hnumber]

/-- The fields denote the same second as before, the date exists, and so does the time of day unless
the seconds are unset: then hours, minutes and seconds stay as they are. -/
theorem timelibDoNormalize_spec (time : Time) :
    fieldSeconds (timelibDoNormalize time) = fieldSeconds time ∧
      1 ≤ (timelibDoNormalize time).m ∧
      ValidDate (timelibDoNormalize time).y (timelibDoNormalize time).m.toNat
        (timelibDoNormalize time).d ∧
      (time.s ≠ timelibUnset → (timelibDoNormalize time).Civil) ∧
      (time.s = timelibUnset → (timelibDoNormalize time).h = time.h ∧
        (timelibDoNormalize time).i = time.i ∧ (timelibDoNormalize time).s = time.s) := by
  rw [timelibDoNormalize]
  by_cases hs : time.s = timelibUnset
  · rw [if_neg (not_not.mpr hs)]
    obtain ⟨hnumber, h1, hdate⟩ := normalizeDate_spec ⟨time.y, time.m, time.d⟩
    refine ⟨?_, h1, hdate, fun h => absurd hs h, fun _ => ⟨rfl, rfl, rfl⟩⟩
    rw [fieldSeconds, fieldSeconds, ← hnumber]
  · rw [if_pos hs]
    obtain ⟨hseconds, hhour, hminute, hsecond⟩ := limitTime_spec time
    obtain ⟨hnumber, h1, hdate⟩ := normalizeDate_spec
      ⟨(limitTime time).y, (limitTime time).m, (limitTime time).d⟩
    refine ⟨?_, h1, hdate, fun _ => ⟨h1, hdate, hhour, hminute, hsecond⟩, fun h => absurd h hs⟩
    rw [← hseconds, fieldSeconds, fieldSeconds, ← hnumber]

/-- The seconds are unset and stay negative. -/
theorem not_timelibDoNormalize_civil :
    ¬ ∀ time : Time, (timelibDoNormalize time).Civil ∧
      fieldSeconds (timelibDoNormalize time) = fieldSeconds time := by
  intro hall
  have hsecond := (hall { timelibTimeCtor with m := 1, d := 1, s := timelibUnset }).1.second.1
  exact absurd hsecond (by decide)

end PhpRuntime.Date
