import PhpRuntime.Date.EpochSeconds
import PhpRuntime.Date.RelNormalize

/-!
# The interval between two times

`timelib_diff` (`ext/date/lib/interval.c`) subtracts the fields of two times, which it takes from
the timestamps again, and normalizes the result. The interval has its fields in their ranges and
leads from the first time to the second, except where one of the times lies on the last day of a
400-year period, for which `timelib_unixtime2gmt` gives the day 0 of January, or the number of days
does not fit `int`.
-/

set_option autoImplicit false

namespace PhpRuntime.Date

open PhpRuntime.Lib.Calendar

/-- `abs` of a number that is converted to `int`; outside of `int` it has no value. -/
def absInt (x : ℤ) : Option ℤ := if -2147483648 < x ∧ x ≤ 2147483647 then some |x| else none

/-- `dst_h_corr` and `dst_m_corr`; `sameZone`: both times have a zone identifier, and the same. -/
def dstCorrection (sameZone : Bool) (one two : Time) : ℤ × ℤ :=
  if sameZone ∧ one.z ≠ two.z then
    ((two.z - one.z).tdiv 3600, ((two.z - one.z).tmod 3600).tdiv 60)
  else (0, 0)

/-- The fields of the interval before it is normalized. -/
def fieldDifference (one two : Time) (corr : ℤ × ℤ) (invert : Bool) (days : Option ℤ) : RelTime where
  y := two.y - one.y
  m := two.m - one.m
  d := two.d - one.d
  h := two.h - one.h + corr.1
  i := two.i - one.i + corr.2
  s := two.s - one.s
  invert := invert
  days := days

/-- `timelib_diff` after the exchange: `one` is not later than `two`. The fields of both times are
those of `timelib_apply_localtime(t, 0)`. -/
def diffOrdered (sameZone : Bool) (one two : Time) (invert : Bool) : RelTime :=
  let corr := dstCorrection sameZone one two
  let days := absInt ((sll (one.sse - two.sse) - corr.1 * 3600 - corr.2 * 60).tdiv 86400)
  let one := timelibUnixtime2gmt one one.sse
  let two := timelibUnixtime2gmt two two.sse
  let base := if invert then one else two
  timelibDoRelNormalize base.y base.m (fieldDifference one two corr invert days)

/-- `timelib_diff` -/
def timelibDiff (sameZone : Bool) (one two : Time) : RelTime :=
  if two.sse < one.sse then diffOrdered sameZone two one true
  else diffOrdered sameZone one two false

/-- A time of UTC whose fields are valid and fit its timestamp. -/
structure Time.Utc (t : Time) : Prop where
  civil : t.Civil
  zone : t.z = 0
  seconds : t.sse = fieldSeconds t
  range : SllRange t.sse

/-- The relative fields are added to the fields. -/
def Time.add (t : Time) (rt : RelTime) : Time :=
  { t with
    y := t.y + rt.y
    m := t.m + rt.m
    d := t.d + rt.d
    h := t.h + rt.h
    i := t.i + rt.i
    s := t.s + rt.s }

/-- The relative fields are subtracted from the fields. -/
def Time.sub (t : Time) (rt : RelTime) : Time :=
  { t with
    y := t.y - rt.y
    m := t.m - rt.m
    d := t.d - rt.d
    h := t.h - rt.h
    i := t.i - rt.i
    s := t.s - rt.s }

def Time.SameFields (t u : Time) : Prop :=
  t.y = u.y ∧ t.m = u.m ∧ t.d = u.d ∧ t.h = u.h ∧ t.i = u.i ∧ t.s = u.s

/-- The interval from the first time to the second. -/
structure IntervalRight (one two : Time) (rt : RelTime) : Prop where
  second : 0 ≤ rt.s ∧ rt.s < 60
  minute : 0 ≤ rt.i ∧ rt.i < 60
  hour : 0 ≤ rt.h ∧ rt.h < 24
  day : 0 ≤ rt.d ∧ rt.d ≤ 30
  month : 0 ≤ rt.m ∧ rt.m < 12
  year : 0 ≤ rt.y
  days : rt.days = some (|one.sse - two.sse| / 86400)
  invert : rt.invert = true ↔ two.sse < one.sse
  add : rt.invert = false → (timelibDoNormalize (one.add rt)).SameFields two
  sub : rt.invert = true → (timelibDoNormalize (one.sub rt)).SameFields two

/-! ## The fields of a time -/

def Time.secondOfDay (t : Time) : ℤ := 3600 * t.h + 60 * t.i + t.s

def Time.monthIndex (t : Time) : ℤ := 12 * t.y + t.m

variable {t u one two : Time} {rt : RelTime}

theorem fieldSeconds_eq (t : Time) :
    fieldSeconds t = 86400 * (monthStart t.monthIndex + (t.d - 1)) + t.secondOfDay := rfl

theorem Time.Civil.secondOfDay_bounds (h : t.Civil) :
    0 ≤ t.secondOfDay ∧ t.secondOfDay < 86400 := by
  have hh := h.hour
  have hi := h.minute
  have hs := h.second
  unfold Time.secondOfDay
  omega

theorem Time.Civil.number_eq (h : t.Civil) :
    (⟨t.y, t.m, t.d⟩ : Ymd).number = dayNumber t.y t.m.toNat t.d := by
  have hle := h.date.month_le
  exact PhpRuntime.Date.number_eq h.month_pos (by omega)

theorem Time.Civil.day_bounds (h : t.Civil) :
    1 ≤ t.d ∧ t.d ≤ lengthOfMonth t.monthIndex := by
  have hle := h.date.month_le
  have hlast := h.date.day_le
  rw [← lengthOfMonth_eq h.month_pos (by omega)] at hlast
  exact ⟨h.date.day_pos, hlast⟩

theorem Time.Civil.sameFields (h : t.Civil) (h' : u.Civil) (heq : fieldSeconds t = fieldSeconds u) :
    t.SameFields u := by
  have ht := h.secondOfDay_bounds
  have hu := h'.secondOfDay_bounds
  have hnumber : dayNumber t.y t.m.toNat t.d = dayNumber u.y u.m.toNat u.d := by
    rw [← h.number_eq, ← h'.number_eq]
    unfold fieldSeconds Time.secondOfDay at *
    omega
  obtain ⟨hy, hm, hd⟩ := date_unique h.date h'.date hnumber
  have hday : t.secondOfDay = u.secondOfDay := by
    unfold fieldSeconds at heq
    rw [h.number_eq, h'.number_eq] at heq
    unfold Time.secondOfDay
    omega
  have hmonth := h.month_pos
  have hmonth' := h'.month_pos
  have hh := h.hour
  have hi := h.minute
  have hs := h.second
  have hh' := h'.hour
  have hi' := h'.minute
  have hs' := h'.second
  unfold Time.secondOfDay at hday
  exact ⟨hy, by omega, hd, by omega, by omega, by omega⟩

theorem normalize_sameFields_iff (hs : t.s ≠ timelibUnset) (hu : u.Civil) :
    (timelibDoNormalize t).SameFields u ↔ fieldSeconds t = fieldSeconds u := by
  obtain ⟨hseconds, hcivil⟩ := timelibDoNormalize_civil hs
  constructor
  · rintro ⟨hy, hm, hd, hh, hi, hs'⟩
    rw [← hseconds, fieldSeconds, fieldSeconds, hy, hm, hd, hh, hi, hs']
  · intro heq
    exact hcivil.sameFields hu (hseconds.trans heq)

theorem Time.Utc.gmt_sameFields (h : t.Utc) (hlast : ¬ LastDayOfPeriod t.sse) :
    (timelibUnixtime2gmt t t.sse).SameFields t := by
  have hcivil := (civil_iff t t.sse).mpr hlast
  obtain ⟨m, hm, -, hnumber, hh, hi, hs⟩ := unixtime2gmt_civil t hlast
  apply hcivil.sameFields h.civil
  rw [← h.seconds, fieldSeconds, hcivil.number_eq, hm, Int.toNat_natCast, hnumber, hh, hi, hs]
  omega

/-- The last day of a period is a 31 December, and it becomes the day 0 of January. -/
structure AsDayZero (t g : Time) : Prop where
  index : g.monthIndex = t.monthIndex + 1
  zero : g.d = 0
  day : t.d = 31
  this : lengthOfMonth t.monthIndex = 31
  next : lengthOfMonth (t.monthIndex + 1) = 31
  prev : lengthOfMonth (t.monthIndex - 1) = 30
  hour : g.h = t.h
  minute : g.i = t.i
  second : g.s = t.s

theorem december_valid (y : ℤ) : ValidDate y 12 31 := by
  have hlength : (31 : ℤ) ≤ monthLength y 12 := by
    rw [monthLength, if_neg (by decide), if_neg (by decide)]
  exact ⟨by decide, by decide, by decide, hlength⟩

theorem december_number (q : ℤ) : dayNumber (1969 + 400 * q) 12 31 = 146097 * q - 1 := by
  have hyear := daysBeforeYear_add_period 1969 q
  have hmonths : daysBeforeMonth (1969 + 400 * q) 12 = 334 := by
    have hleap : ¬ Leap (1969 + 400 * q) := by
      rw [leap_add_period]
      decide
    simp [daysBeforeMonth, monthLength, Finset.sum_range_succ, leapDay_of_not hleap]
  have hstart : daysBeforeYear 1969 = -365 := by decide
  rw [dayNumber, hmonths, hyear, hstart]
  omega

theorem Time.Utc.gmt_asDayZero (h : t.Utc) (hlast : LastDayOfPeriod t.sse) :
    AsDayZero t (timelibUnixtime2gmt t t.sse) := by
  obtain ⟨hy, hm, hd, hh, hi, hs⟩ := unixtime2gmt_lastDayOfPeriod t hlast
  have hmod := hlast.2
  have hday := h.civil.secondOfDay_bounds
  have hseconds := h.seconds
  rw [fieldSeconds, h.civil.number_eq] at hseconds
  unfold Time.secondOfDay at hday
  have hnumber : dayNumber t.y t.m.toNat t.d =
      dayNumber (1969 + 400 * ((t.sse / 86400 + 1) / 146097)) 12 31 := by
    rw [december_number]
    omega
  obtain ⟨hty, htm, htd⟩ := date_unique h.civil.date (december_valid _) hnumber
  have hmonth := h.civil.month_pos
  have htm' : t.m = 12 := by omega
  have hhour := h.civil.hour
  have hminute := h.civil.minute
  have hsecond := h.civil.second
  have hindex : t.monthIndex = 12 * t.y + 12 := by rw [Time.monthIndex, htm']
  refine ⟨?_, hd, htd, ?_, ?_, ?_, by omega, by omega, by omega⟩
  · rw [hindex, Time.monthIndex, hy, hm, hty]
    omega
  · rw [hindex, lengthOfMonth_eq (by decide) (by decide)]
    rfl
  · rw [hindex, show 12 * t.y + 12 + 1 = 12 * (t.y + 1) + 1 by omega,
      lengthOfMonth_eq (by decide) (by decide)]
    rfl
  · rw [hindex, show 12 * t.y + 12 - 1 = 12 * t.y + 11 by omega,
      lengthOfMonth_eq (by decide) (by decide)]
    rfl

/-- The fields that the code takes from the timestamp. -/
def Time.gmt (t : Time) : Time := timelibUnixtime2gmt t t.sse

theorem Time.Utc.gmt_day_eq (h : t.Utc) :
    monthStart t.gmt.monthIndex + t.gmt.d = monthStart t.monthIndex + t.d ∧
      t.gmt.secondOfDay = t.secondOfDay := by
  by_cases hlast : LastDayOfPeriod t.sse
  · have hzero : AsDayZero t t.gmt := h.gmt_asDayZero hlast
    have hsucc := monthStart_succ t.monthIndex
    refine ⟨?_, ?_⟩
    · rw [hzero.index, hzero.zero, hzero.day, hsucc, hzero.this, add_zero]
    · rw [Time.secondOfDay, Time.secondOfDay, hzero.hour, hzero.minute, hzero.second]
  · obtain ⟨hy, hm, hd, hh, hi, hs⟩ := h.gmt_sameFields hlast
    change t.gmt.y = t.y at hy
    change t.gmt.m = t.m at hm
    change t.gmt.d = t.d at hd
    change t.gmt.h = t.h at hh
    change t.gmt.i = t.i at hi
    change t.gmt.s = t.s at hs
    refine ⟨?_, ?_⟩
    · rw [Time.monthIndex, Time.monthIndex, hy, hm, hd]
    · rw [Time.secondOfDay, Time.secondOfDay, hh, hi, hs]

theorem Time.Utc.gmt_regular (h : t.Utc) (hlast : ¬ LastDayOfPeriod t.sse) :
    t.gmt.monthIndex = t.monthIndex ∧ t.gmt.d = t.d := by
  obtain ⟨hy, hm, hd, -⟩ := h.gmt_sameFields hlast
  rw [Time.monthIndex, Time.monthIndex]
  exact ⟨by rw [← hy, ← hm]; rfl, hd⟩

theorem Time.Utc.day_le (h : one.Utc) (h' : two.Utc) (hle : one.sse ≤ two.sse) :
    monthStart one.monthIndex + one.d ≤
      monthStart two.monthIndex + two.d + (two.secondOfDay - one.secondOfDay) / 86400 := by
  have hone := h.seconds
  have htwo := h'.seconds
  rw [fieldSeconds_eq] at hone htwo
  omega

theorem Time.Utc.monthIndex_le (h : one.Utc) (h' : two.Utc) (hle : one.sse ≤ two.sse) :
    one.monthIndex ≤ two.monthIndex := by
  have hday := h.day_le h' hle
  have hone := h.civil.day_bounds
  have htwo := h'.civil.day_bounds
  have hone' := h.civil.secondOfDay_bounds
  have htwo' := h'.civil.secondOfDay_bounds
  have hsucc := monthStart_succ two.monthIndex
  have hlt : one.monthIndex < two.monthIndex + 1 := lt_of_monthStart_lt (by omega)
  omega

theorem Time.Utc.monthIndex_lt (h : one.Utc) (h' : two.Utc) (hle : one.sse ≤ two.sse)
    (hlast : LastDayOfPeriod one.sse) (hlast' : ¬ LastDayOfPeriod two.sse) :
    one.monthIndex < two.monthIndex := by
  have hzero := h.gmt_asDayZero hlast
  have hone := h.seconds
  have htwo := h'.seconds
  have hone' := h.civil.secondOfDay_bounds
  have htwo' := h'.civil.secondOfDay_bounds
  have hday := h'.civil.day_bounds
  rw [fieldSeconds_eq] at hone htwo
  apply lt_of_le_of_ne (h.monthIndex_le h' hle)
  intro hsame
  rw [← hsame] at htwo hday
  have hd := hzero.day
  have hlength := hzero.this
  apply hlast'
  refine ⟨hlast.1.trans hle, ?_⟩
  have hmod := hlast.2
  have hdays : two.sse / 86400 = one.sse / 86400 := by omega
  rw [hdays]
  exact hmod

theorem Time.Utc.gmt_monthIndex_le (h : one.Utc) (h' : two.Utc) (hle : one.sse ≤ two.sse) :
    one.gmt.monthIndex ≤ two.gmt.monthIndex := by
  have hmonths := h.monthIndex_le h' hle
  have htwo : two.monthIndex ≤ two.gmt.monthIndex := by
    by_cases hlast' : LastDayOfPeriod two.sse
    · have hindex : two.gmt.monthIndex = two.monthIndex + 1 := (h'.gmt_asDayZero hlast').index
      omega
    · exact (h'.gmt_regular hlast').1.ge
  by_cases hlast : LastDayOfPeriod one.sse
  · have hindex : one.gmt.monthIndex = one.monthIndex + 1 := (h.gmt_asDayZero hlast).index
    by_cases hlast' : LastDayOfPeriod two.sse
    · have hindex' : two.gmt.monthIndex = two.monthIndex + 1 := (h'.gmt_asDayZero hlast').index
      omega
    · have hlt := h.monthIndex_lt h' hle hlast hlast'
      omega
  · rw [(h.gmt_regular hlast).1]
    exact hmonths.trans htwo

/-! ## The difference -/

def rawDays (one two : Time) : ℤ :=
  two.gmt.d - one.gmt.d + (two.secondOfDay - one.secondOfDay) / 86400

/-- What an interval has in any case: ranges, and the day it leads to from the fields that the code
uses. -/
structure IntervalOf (one two : Time) (invert : Bool) (rt : RelTime) : Prop where
  second : 0 ≤ rt.s ∧ rt.s < 60
  minute : 0 ≤ rt.i ∧ rt.i < 60
  hour : 0 ≤ rt.h ∧ rt.h < 24
  month : 0 ≤ rt.m ∧ rt.m < 12
  months : 0 ≤ rt.months
  day : 0 ≤ rt.d
  inverted : rt.invert = invert
  time : 3600 * rt.h + 60 * rt.i + rt.s = (two.secondOfDay - one.secondOfDay) % 86400
  kept : 0 ≤ rawDays one two → rt.d = rawDays one two ∧
    rt.months = two.gmt.monthIndex - one.gmt.monthIndex
  forward : invert = false → monthStart (one.gmt.monthIndex + rt.months) + rt.d =
    monthStart two.gmt.monthIndex + rawDays one two
  forward_lent : invert = false → rawDays one two < 0 →
    rt.d < lengthOfMonth (one.gmt.monthIndex + rt.months)
  backward : invert = true → monthStart (two.gmt.monthIndex - rt.months) - rt.d =
    monthStart one.gmt.monthIndex - rawDays one two
  backward_lent : invert = true → rawDays one two < 0 →
    rt.d < lengthOfMonth (two.gmt.monthIndex - rt.months - 1)

theorem dstCorrection_utc (h : one.Utc) (h' : two.Utc) (sameZone : Bool) :
    dstCorrection sameZone one two = (0, 0) := by
  rw [dstCorrection, h.zone, h'.zone]
  exact if_neg fun hne => hne.2 rfl

/-- The fields that are subtracted. -/
structure RawDifference (one two : Time) (invert : Bool) (rt : RelTime) : Prop where
  inverted : rt.invert = invert
  days : rt.wholeDays = rawDays one two
  months : rt.months = two.gmt.monthIndex - one.gmt.monthIndex
  time : 3600 * rt.h + 60 * rt.i + rt.s = two.secondOfDay - one.secondOfDay

theorem relNormalize_forward (h : one.Utc) (h' : two.Utc) (hle : one.sse ≤ two.sse)
    (hraw : RawDifference one two false rt) :
    IntervalOf one two false (timelibDoRelNormalize two.gmt.y two.gmt.m rt) := by
  have hday := h.day_le h' hle
  have hone := h.gmt_day_eq.1
  have htwo := h'.gmt_day_eq.1
  have hrawDays : rawDays one two =
    two.gmt.d - one.gmt.d + (two.secondOfDay - one.secondOfDay) / 86400 := rfl
  have hinvert : (timelibDoRelNormalize two.gmt.y two.gmt.m rt).invert = false := hraw.inverted
  obtain ⟨hd, hmonths, hmonth, htime, hhour, hminute, hsecond⟩ :=
    timelibDoRelNormalize_spec two.gmt.y two.gmt.m rt
  have hbase : (baseMonth two.gmt.y two.gmt.m).index = two.gmt.monthIndex := baseMonth_index _ _
  obtain ⟨hnonneg, hlent, hforward, hbound⟩ := lendBefore_spec (m := rt.m % 12)
    (b := baseMonth two.gmt.y two.gmt.m) (d := rawDays one two) (k := one.gmt.monthIndex)
    (by rw [hbase]; omega)
  rw [hraw.days, hraw.inverted] at hd hmonths
  rw [hraw.time] at htime
  generalize timelibDoRelNormalize two.gmt.y two.gmt.m rt = r at *
  change r.d = (lendBefore _ _ _).2 at hd
  change _ = _ - (lendBefore _ _ _).1 at hmonths
  have hkept : 0 ≤ rawDays one two → r.d = rawDays one two ∧ rt.months - r.months = 0 := by
    intro hge
    rw [lendBefore_of_nonneg hge] at hd hmonths
    exact ⟨hd, by rw [hmonths, sub_self]⟩
  rw [hbase, ← hmonths, ← hd] at hforward hlent
  rw [hbase, ← hmonths] at hbound
  rw [← hd] at hnonneg
  have hk := hbound (h.gmt_monthIndex_le h' hle)
  have hmonths' := hraw.months
  have hindex : two.gmt.monthIndex - (rt.months - r.months) =
      one.gmt.monthIndex + r.months := by omega
  rw [hindex] at hforward hlent
  exact ⟨hsecond, hminute, hhour, hmonth, by omega, hnonneg, hinvert, htime,
    fun hge => ⟨(hkept hge).1, by have := (hkept hge).2; omega⟩, fun _ => hforward,
    fun _ => hlent, fun hfalse => absurd hfalse Bool.false_ne_true,
    fun hfalse => absurd hfalse Bool.false_ne_true⟩

theorem relNormalize_backward (h : one.Utc) (h' : two.Utc) (hle : one.sse ≤ two.sse)
    (hraw : RawDifference one two true rt) :
    IntervalOf one two true (timelibDoRelNormalize one.gmt.y one.gmt.m rt) := by
  have hday := h.day_le h' hle
  have hone := h.gmt_day_eq.1
  have htwo := h'.gmt_day_eq.1
  have hrawDays : rawDays one two =
    two.gmt.d - one.gmt.d + (two.secondOfDay - one.secondOfDay) / 86400 := rfl
  have hinvert : (timelibDoRelNormalize one.gmt.y one.gmt.m rt).invert = true := hraw.inverted
  obtain ⟨hd, hmonths, hmonth, htime, hhour, hminute, hsecond⟩ :=
    timelibDoRelNormalize_spec one.gmt.y one.gmt.m rt
  have hbase : (baseMonth one.gmt.y one.gmt.m).index = one.gmt.monthIndex := baseMonth_index _ _
  obtain ⟨hnonneg, hlent, hbackward, hbound⟩ := lendFrom_spec (m := rt.m % 12)
    (b := baseMonth one.gmt.y one.gmt.m) (d := rawDays one two) (k := two.gmt.monthIndex)
    (by rw [hbase]; omega)
  rw [hraw.days, hraw.inverted] at hd hmonths
  rw [hraw.time] at htime
  generalize timelibDoRelNormalize one.gmt.y one.gmt.m rt = r at *
  change r.d = (lendFrom _ _ _).2 at hd
  change _ = _ - (lendFrom _ _ _).1 at hmonths
  have hkept : 0 ≤ rawDays one two → r.d = rawDays one two ∧ rt.months - r.months = 0 := by
    intro hge
    rw [lendFrom_of_nonneg hge] at hd hmonths
    exact ⟨hd, by rw [hmonths, sub_self]⟩
  rw [hbase, ← hmonths, ← hd] at hbackward hlent
  rw [hbase, ← hmonths] at hbound
  rw [← hd] at hnonneg
  have hk := hbound (h.gmt_monthIndex_le h' hle)
  have hmonths' := hraw.months
  have hindex : one.gmt.monthIndex + (rt.months - r.months) =
      two.gmt.monthIndex - r.months := by omega
  rw [hindex] at hbackward hlent
  exact ⟨hsecond, hminute, hhour, hmonth, by omega, hnonneg, hinvert, htime,
    fun hge => ⟨(hkept hge).1, by have := (hkept hge).2; omega⟩,
    fun hfalse => absurd hfalse.symm Bool.false_ne_true,
    fun hfalse => absurd hfalse.symm Bool.false_ne_true, fun _ => hbackward, fun _ => hlent⟩

theorem fieldDifference_raw (h : one.Utc) (h' : two.Utc) (invert : Bool) (days : Option ℤ) :
    RawDifference one two invert (fieldDifference one.gmt two.gmt (0, 0) invert days) := by
  have hone := h.gmt_day_eq.2
  have htwo := h'.gmt_day_eq.2
  refine ⟨rfl, ?_, ?_, ?_⟩
  · rw [RelTime.wholeDays, rawDays, ← hone, ← htwo]
    unfold fieldDifference Time.secondOfDay
    dsimp only
    omega
  · unfold RelTime.months fieldDifference Time.monthIndex
    dsimp only
    omega
  · rw [← hone, ← htwo]
    unfold fieldDifference Time.secondOfDay
    dsimp only
    omega

theorem diffOrdered_spec (h : one.Utc) (h' : two.Utc) (hle : one.sse ≤ two.sse)
    (sameZone invert : Bool) :
    IntervalOf one two invert (diffOrdered sameZone one two invert) := by
  rw [diffOrdered, dstCorrection_utc h h']
  cases invert with
  | false => exact relNormalize_forward h h' hle (fieldDifference_raw h h' false _)
  | true => exact relNormalize_backward h h' hle (fieldDifference_raw h h' true _)

theorem diffOrdered_days_iff (h : one.Utc) (h' : two.Utc) (hle : one.sse ≤ two.sse)
    (sameZone invert : Bool) :
    (diffOrdered sameZone one two invert).days = some ((two.sse - one.sse) / 86400) ↔
      (two.sse - one.sse) / 86400 ≤ 2147483647 := by
  have hdays : (diffOrdered sameZone one two invert).days =
      absInt ((sll (one.sse - two.sse)).tdiv 86400) := by
    rw [diffOrdered, dstCorrection_utc h h', zero_mul, zero_mul, sub_zero, sub_zero]
    rfl
  have hlow := h.range
  have hhigh := h'.range
  unfold SllRange at hlow hhigh
  rw [hdays, absInt]
  by_cases hfits : two.sse - one.sse ≤ 9223372036854775808
  · have hsll : sll (one.sse - two.sse) = one.sse - two.sse := by
      unfold sll
      omega
    rw [hsll, tdiv_of_neg _ _ (by omega), neg_sub, abs_neg, abs_of_nonneg (by omega)]
    constructor
    · intro heq
      split at heq
      · omega
      · cases heq
    · intro hle'
      rw [if_pos (by omega)]
  · have hsll : sll (one.sse - two.sse) = one.sse - two.sse + 18446744073709551616 := by
      unfold sll
      omega
    rw [hsll, tdiv_of_nonneg (by omega), abs_of_nonneg (by omega)]
    constructor
    · intro heq
      split at heq
      · have hvalue := Option.some.inj heq
        omega
      · cases heq
    · intro hle'
      omega

/-! ## The way back -/

/-- Adding the interval to the earlier time leads to the later one, unless the earlier time lies on
a last day of a period and the months lead to a month of another length. -/
theorem IntervalOf.add_iff (h : one.Utc) (h' : two.Utc) (hrt : IntervalOf one two false rt) :
    (timelibDoNormalize (one.add rt)).SameFields two ↔
      (LastDayOfPeriod one.sse → lengthOfMonth (one.monthIndex + rt.months) = 31) := by
  have hunset : (one.add rt).s ≠ timelibUnset := by
    have hs := h.civil.second
    have hs' := hrt.second
    change one.s + rt.s ≠ -99999
    omega
  have hone := h.gmt_day_eq.1
  have htwo := h'.gmt_day_eq.1
  have htime := hrt.time
  have hforward := hrt.forward rfl
  have hraw : rawDays one two =
    two.gmt.d - one.gmt.d + (two.secondOfDay - one.secondOfDay) / 86400 := rfl
  have hindex : (one.add rt).monthIndex = one.monthIndex + rt.months := by
    unfold Time.monthIndex Time.add RelTime.months
    dsimp only
    omega
  have hday : (one.add rt).secondOfDay =
      one.secondOfDay + (3600 * rt.h + 60 * rt.i + rt.s) := by
    unfold Time.secondOfDay Time.add
    dsimp only
    omega
  have hd : (one.add rt).d = one.d + rt.d := rfl
  rw [normalize_sameFields_iff hunset h'.civil, fieldSeconds_eq, fieldSeconds_eq, hindex, hday, hd]
  by_cases hlast : LastDayOfPeriod one.sse
  · have hzero : AsDayZero one one.gmt := h.gmt_asDayZero hlast
    have hsucc := monthStart_succ (one.monthIndex + rt.months)
    have hshift : one.monthIndex + 1 + rt.months = one.monthIndex + rt.months + 1 := by omega
    rw [hzero.index, hshift] at hforward
    have hzero' := hzero.zero
    have hday' := hzero.day
    constructor
    · intro heq _
      omega
    · intro hlength
      have hlength' := hlength hlast
      omega
  · obtain ⟨hregular, hregular'⟩ := h.gmt_regular hlast
    rw [hregular] at hforward
    constructor
    · intro _ hlast'
      exact absurd hlast' hlast
    · intro _
      omega

theorem IntervalOf.sub_iff (h : one.Utc) (h' : two.Utc) (hrt : IntervalOf one two true rt) :
    (timelibDoNormalize (two.sub rt)).SameFields one ↔
      (LastDayOfPeriod two.sse → lengthOfMonth (two.monthIndex - rt.months) = 31) := by
  have hunset : (two.sub rt).s ≠ timelibUnset := by
    have hs := h'.civil.second
    have hs' := hrt.second
    change two.s - rt.s ≠ -99999
    omega
  have hone := h.gmt_day_eq.1
  have htwo := h'.gmt_day_eq.1
  have htime := hrt.time
  have hbackward := hrt.backward rfl
  have hraw : rawDays one two =
    two.gmt.d - one.gmt.d + (two.secondOfDay - one.secondOfDay) / 86400 := rfl
  have hindex : (two.sub rt).monthIndex = two.monthIndex - rt.months := by
    unfold Time.monthIndex Time.sub RelTime.months
    dsimp only
    omega
  have hday : (two.sub rt).secondOfDay =
      two.secondOfDay - (3600 * rt.h + 60 * rt.i + rt.s) := by
    unfold Time.secondOfDay Time.sub
    dsimp only
    omega
  have hd : (two.sub rt).d = two.d - rt.d := rfl
  rw [normalize_sameFields_iff hunset h.civil, fieldSeconds_eq, fieldSeconds_eq, hindex, hday, hd]
  by_cases hlast : LastDayOfPeriod two.sse
  · have hzero : AsDayZero two two.gmt := h'.gmt_asDayZero hlast
    have hsucc := monthStart_succ (two.monthIndex - rt.months)
    have hshift : two.monthIndex + 1 - rt.months = two.monthIndex - rt.months + 1 := by omega
    rw [hzero.index, hshift] at hbackward
    have hzero' := hzero.zero
    have hday' := hzero.day
    constructor
    · intro heq _
      omega
    · intro hlength
      have hlength' := hlength hlast
      omega
  · obtain ⟨hregular, hregular'⟩ := h'.gmt_regular hlast
    rw [hregular] at hbackward
    constructor
    · intro _ hlast'
      exact absurd hlast' hlast
    · intro _
      omega

/-! ## When it is right -/

/-- Neither of the two ends is a last day that makes the days or the months wrong, from the earlier
time `one` to the later time `two`. -/
def ForwardFits (one two : Time) : Prop :=
  LastDayOfPeriod one.sse →
    (LastDayOfPeriod two.sse → one.secondOfDay ≤ two.secondOfDay) ∧
    (¬ LastDayOfPeriod two.sse → ¬ (two.d = 31 ∧ one.secondOfDay ≤ two.secondOfDay) ∧
      lengthOfMonth (two.monthIndex - 1) = 31)

/-- The same when the interval is subtracted from the later time `two`. -/
def BackwardFits (one two : Time) : Prop :=
  (LastDayOfPeriod one.sse → ¬ LastDayOfPeriod two.sse →
      ¬ (two.d = 31 ∧ one.secondOfDay ≤ two.secondOfDay)) ∧
    (LastDayOfPeriod two.sse → ¬ LastDayOfPeriod one.sse →
      if one.d = lengthOfMonth one.monthIndex ∧ two.secondOfDay < one.secondOfDay then
        lengthOfMonth (one.monthIndex + 1) = 31
      else lengthOfMonth one.monthIndex = 31)

/-- The number of days fits `int`, and no last day of a period is in the way. -/
def DiffFits (one two : Time) : Prop :=
  |one.sse - two.sse| / 86400 ≤ 2147483647 ∧
    if two.sse < one.sse then BackwardFits two one else ForwardFits one two

theorem rawDays_quotient (h : one.Utc) (h' : two.Utc) :
    (one.secondOfDay ≤ two.secondOfDay ∧ (two.secondOfDay - one.secondOfDay) / 86400 = 0) ∨
      (two.secondOfDay < one.secondOfDay ∧
        (two.secondOfDay - one.secondOfDay) / 86400 = -1) := by
  have hone := h.civil.secondOfDay_bounds
  have htwo := h'.civil.secondOfDay_bounds
  omega

theorem IntervalOf.day_le (h : one.Utc) (h' : two.Utc) {invert : Bool}
    (hrt : IntervalOf one two invert rt) (hlast : ¬ LastDayOfPeriod one.sse) : rt.d ≤ 30 := by
  have hraw : rawDays one two =
    two.gmt.d - one.gmt.d + (two.secondOfDay - one.secondOfDay) / 86400 := rfl
  have hquotient := rawDays_quotient h h'
  have hone := h.civil.day_bounds
  have htwo := h'.civil.day_bounds
  have htwoLength := lengthOfMonth_bounds two.monthIndex
  have hd := (h.gmt_regular hlast).2
  have hd' : two.gmt.d ≤ 31 := by
    by_cases hlast' : LastDayOfPeriod two.sse
    · have hzero : two.gmt.d = 0 := (h'.gmt_asDayZero hlast').zero
      omega
    · rw [(h'.gmt_regular hlast').2]
      omega
  rcases lt_or_ge (rawDays one two) 0 with hneg | hge
  · cases invert with
    | false =>
      have hlent := hrt.forward_lent rfl hneg
      have hlength := lengthOfMonth_bounds (one.gmt.monthIndex + rt.months)
      omega
    | true =>
      have hlent := hrt.backward_lent rfl hneg
      have hlength := lengthOfMonth_bounds (two.gmt.monthIndex - rt.months - 1)
      omega
  · have hkept := (hrt.kept hge).1
    omega

theorem IntervalOf.forward_iff (h : one.Utc) (h' : two.Utc) (hrt : IntervalOf one two false rt) :
    (rt.d ≤ 30 ∧ (timelibDoNormalize (one.add rt)).SameFields two) ↔ ForwardFits one two := by
  have hraw : rawDays one two =
    two.gmt.d - one.gmt.d + (two.secondOfDay - one.secondOfDay) / 86400 := rfl
  have hquotient := rawDays_quotient h h'
  rw [hrt.add_iff h h', ForwardFits]
  by_cases hlast : LastDayOfPeriod one.sse
  · have hzero : AsDayZero one one.gmt := h.gmt_asDayZero hlast
    rw [hzero.zero] at hraw
    have hindex := hzero.index
    simp only [hlast, true_implies]
    by_cases hlast' : LastDayOfPeriod two.sse
    · -- both ends are a 31 December
      have hzero' : AsDayZero two two.gmt := h'.gmt_asDayZero hlast'
      rw [hzero'.zero] at hraw
      simp only [hlast', true_implies, not_true_eq_false, false_implies, and_true]
      have hindex' := hzero'.index
      rcases hquotient with ⟨hle, hquotient⟩ | ⟨hlt, hquotient⟩
      · obtain ⟨hd, hmonths⟩ := hrt.kept (by omega)
        have hreached : one.monthIndex + rt.months = two.monthIndex := by omega
        rw [hreached]
        exact ⟨fun _ => hle, fun _ => ⟨by omega, hzero'.this⟩⟩
      · have hforward := hrt.forward rfl
        have hlent := hrt.forward_lent rfl (by omega)
        have hday := hrt.day
        have hsucc := monthStart_succ (one.gmt.monthIndex + rt.months)
        have hsucc' := monthStart_succ two.monthIndex
        have hthis := hzero'.this
        rw [hindex'] at hforward
        have hreached : one.gmt.monthIndex + rt.months = two.monthIndex :=
          month_unique (n := monthStart (two.monthIndex + 1) - 1) (by omega) (by omega) (by omega)
            (by omega)
        have hprev : one.monthIndex + rt.months = two.monthIndex - 1 := by omega
        have hthirty := hzero'.prev
        rw [hprev]
        constructor
        · rintro ⟨-, hlength⟩
          omega
        · intro hle
          omega
    · -- only the earlier end is
      obtain ⟨hindex', hd'⟩ := h'.gmt_regular hlast'
      have htwo := h'.civil.day_bounds
      have htwoLength := lengthOfMonth_bounds two.monthIndex
      simp only [hlast', false_implies, true_and, not_false_eq_true, true_implies]
      obtain ⟨hd, hmonths⟩ := hrt.kept (by omega)
      have hreached : one.monthIndex + rt.months = two.monthIndex - 1 := by omega
      rw [hreached]
      omega
  · simp only [hlast, false_implies, and_true, iff_true]
    exact hrt.day_le h h' hlast

theorem IntervalOf.backward_month (hrt : IntervalOf one two true rt) (hneg : rawDays one two < 0)
    {k : ℤ} (hk : monthStart k ≤ monthStart one.gmt.monthIndex - rawDays one two - 1)
    (hk' : monthStart one.gmt.monthIndex - rawDays one two - 1 < monthStart (k + 1)) :
    two.gmt.monthIndex - rt.months - 1 = k := by
  have hbackward := hrt.backward rfl
  have hlent := hrt.backward_lent rfl hneg
  have hday := hrt.day
  have hsucc := monthStart_succ (two.gmt.monthIndex - rt.months - 1)
  rw [sub_add_cancel] at hsucc
  refine month_unique (n := monthStart one.gmt.monthIndex - rawDays one two - 1) ?_ ?_ hk hk'
  · omega
  · rw [sub_add_cancel]
    omega

theorem IntervalOf.backward_iff (h : one.Utc) (h' : two.Utc) (hrt : IntervalOf one two true rt) :
    (rt.d ≤ 30 ∧ (timelibDoNormalize (two.sub rt)).SameFields one) ↔ BackwardFits one two := by
  have hraw : rawDays one two =
    two.gmt.d - one.gmt.d + (two.secondOfDay - one.secondOfDay) / 86400 := rfl
  have hquotient := rawDays_quotient h h'
  rw [hrt.sub_iff h h', BackwardFits]
  by_cases hlast : LastDayOfPeriod one.sse
  · have hzero : AsDayZero one one.gmt := h.gmt_asDayZero hlast
    have hindex := hzero.index
    rw [hzero.zero] at hraw
    simp only [hlast, true_implies, not_true_eq_false, false_implies, implies_true, and_true]
    by_cases hlast' : LastDayOfPeriod two.sse
    · have hzero' : AsDayZero two two.gmt := h'.gmt_asDayZero hlast'
      have hindex' := hzero'.index
      rw [hzero'.zero] at hraw
      simp only [hlast', true_implies, not_true_eq_false, false_implies, iff_true]
      rcases hquotient with ⟨-, hquotient⟩ | ⟨-, hquotient⟩
      · obtain ⟨hd, hmonths⟩ := hrt.kept (by omega)
        have hreached : two.monthIndex - rt.months = one.monthIndex := by omega
        rw [hreached]
        exact ⟨by omega, hzero.this⟩
      · have hnext := hzero.next
        have hsucc := monthStart_succ one.gmt.monthIndex
        rw [hindex] at hsucc
        have hmonth := hrt.backward_month (by omega) (k := one.monthIndex + 1)
          (by rw [hindex]; omega) (by rw [hindex]; omega)
        have hbackward := hrt.backward rfl
        have hreached : two.monthIndex - rt.months = one.monthIndex + 1 := by omega
        have hstart : two.gmt.monthIndex - rt.months = one.monthIndex + 1 + 1 := by omega
        rw [hstart, hindex] at hbackward
        rw [hreached]
        exact ⟨by omega, hnext⟩
    · obtain ⟨hindex', hd'⟩ := h'.gmt_regular hlast'
      have htwo := h'.civil.day_bounds
      have htwoLength := lengthOfMonth_bounds two.monthIndex
      simp only [hlast', false_implies, and_true, not_false_eq_true, true_implies]
      obtain ⟨hd, hmonths⟩ := hrt.kept (by omega)
      omega
  · simp only [hlast, false_implies, true_and, not_false_eq_true, true_implies]
    have hle := hrt.day_le h h' hlast
    by_cases hlast' : LastDayOfPeriod two.sse
    · -- only the later end is
      have hzero' : AsDayZero two two.gmt := h'.gmt_asDayZero hlast'
      have hindex' := hzero'.index
      have hone := h.civil.day_bounds
      have hsucc := monthStart_succ one.monthIndex
      have hsucc' := monthStart_succ (one.monthIndex + 1)
      have hlength := lengthOfMonth_bounds (one.monthIndex + 1)
      obtain ⟨hindex, hd⟩ := h.gmt_regular hlast
      rw [hzero'.zero, hd] at hraw
      simp only [hlast', true_implies, hle, true_and]
      split
      · have hmonth := hrt.backward_month (by omega) (k := one.monthIndex + 1)
          (by rw [hindex]; omega) (by rw [hindex]; omega)
        rw [show two.monthIndex - rt.months = one.monthIndex + 1 by omega]
      · have hmonth := hrt.backward_month (by omega) (k := one.monthIndex)
          (by rw [hindex]; omega) (by rw [hindex]; omega)
        rw [show two.monthIndex - rt.months = one.monthIndex by omega]
    · simp only [hlast', false_implies, hle, and_true]

/-- The interval has its fields in their ranges and leads from the first time to the second, exactly
when the days fit and no last day is in the way. -/
theorem timelibDiff_iff (h : one.Utc) (h' : two.Utc) (sameZone : Bool) :
    IntervalRight one two (timelibDiff sameZone one two) ↔ DiffFits one two := by
  rw [timelibDiff, DiffFits]
  by_cases hlt : two.sse < one.sse
  · have hspec := diffOrdered_spec h' h hlt.le sameZone true
    have hdays := diffOrdered_days_iff h' h hlt.le sameZone true
    have habs : |one.sse - two.sse| = one.sse - two.sse := abs_of_nonneg (by omega)
    rw [if_pos hlt, if_pos hlt, ← hspec.backward_iff h' h, habs, ← hdays]
    constructor
    · intro hright
      exact ⟨by rw [hright.days, habs], hright.day.2, hright.sub hspec.inverted⟩
    · rintro ⟨hdays, hd, hsub⟩
      have hyear := hspec.months
      have hmonth := hspec.month
      unfold RelTime.months at hyear
      exact ⟨hspec.second, hspec.minute, hspec.hour, ⟨hspec.day, hd⟩, hmonth, by omega,
        by rw [hdays, habs], iff_of_true hspec.inverted hlt,
        fun hfalse => absurd (hspec.inverted.symm.trans hfalse).symm Bool.false_ne_true,
        fun _ => hsub⟩
  · have hle : one.sse ≤ two.sse := not_lt.mp hlt
    have hspec := diffOrdered_spec h h' hle sameZone false
    have hdays := diffOrdered_days_iff h h' hle sameZone false
    have habs : |one.sse - two.sse| = two.sse - one.sse := by
      rw [abs_sub_comm]
      exact abs_of_nonneg (by omega)
    rw [if_neg hlt, if_neg hlt, ← hspec.forward_iff h h', habs, ← hdays]
    constructor
    · intro hright
      exact ⟨by rw [hright.days, habs], hright.day.2, hright.add hspec.inverted⟩
    · rintro ⟨hdays, hd, hadd⟩
      have hyear := hspec.months
      have hmonth := hspec.month
      unfold RelTime.months at hyear
      exact ⟨hspec.second, hspec.minute, hspec.hour, ⟨hspec.day, hd⟩, hmonth, by omega,
        by rw [hdays, habs],
        iff_of_false (fun htrue => Bool.false_ne_true (hspec.inverted.symm.trans htrue)) hlt,
        fun _ => hadd,
        fun htrue => absurd (hspec.inverted.symm.trans htrue) Bool.false_ne_true⟩

def midnight (y m d sse : ℤ) : Time := { timelibTimeCtor with y := y, m := m, d := d, sse := sse }

theorem midnight_utc {y m d sse : ℤ} (h1 : 1 ≤ m) (hdate : ValidDate y m.toNat d)
    (hsse : sse = 86400 * dayNumber y m.toNat d) (hrange : SllRange sse) :
    (midnight y m d sse).Utc := by
  have hzero : (0 : ℤ) ≤ 0 ∧ (0 : ℤ) < 24 := by decide
  have hzero' : (0 : ℤ) ≤ 0 ∧ (0 : ℤ) < 60 := by decide
  have hcivil : (midnight y m d sse).Civil := ⟨h1, hdate, hzero, hzero', hzero'⟩
  refine ⟨hcivil, rfl, ?_, hrange⟩
  rw [fieldSeconds, hcivil.number_eq]
  change sse = 86400 * dayNumber y m.toNat d + (3600 * 0 + 60 * 0 + 0)
  omega

theorem leapDay2000_utc : (midnight 2000 2 29 951782400).Utc :=
  midnight_utc (by decide) ⟨by decide, by decide, by decide, by decide⟩ (by decide) (by decide)

theorem march2001_utc : (midnight 2001 3 1 983404800).Utc :=
  midnight_utc (by decide) ⟨by decide, by decide, by decide, by decide⟩ (by decide) (by decide)

theorem timelibDiff_leapDay :
    IntervalRight (midnight 2000 2 29 951782400) (midnight 2001 3 1 983404800)
        (timelibDiff false (midnight 2000 2 29 951782400) (midnight 2001 3 1 983404800)) ↔
      DiffFits (midnight 2000 2 29 951782400) (midnight 2001 3 1 983404800) :=
  timelibDiff_iff leapDay2000_utc march2001_utc false

/-- From 31 December 2369 to 31 January 2370 there are 31 days and no month. -/
theorem not_timelibDiff :
    ¬ ∀ (one two : Time) (sameZone : Bool), one.Utc → two.Utc →
      IntervalRight one two (timelibDiff sameZone one two) := by
  intro hall
  have hone : (midnight 2369 12 31 12622694400).Utc :=
    midnight_utc (by decide) ⟨by decide, by decide, by decide, by decide⟩ (by decide) (by decide)
  have htwo : (midnight 2370 1 31 12625372800).Utc :=
    midnight_utc (by decide) ⟨by decide, by decide, by decide, by decide⟩ (by decide) (by decide)
  have hday := (hall _ _ false hone htwo).day.2
  rw [timelibDiff, if_neg (by decide)] at hday
  have hspec := diffOrdered_spec hone htwo (by decide) false false
  have hzero : (midnight 2369 12 31 12622694400).gmt.d = 0 := (hone.gmt_asDayZero (by decide)).zero
  have hregular : (midnight 2370 1 31 12625372800).gmt.d = 31 := (htwo.gmt_regular (by decide)).2
  have hraw : rawDays (midnight 2369 12 31 12622694400) (midnight 2370 1 31 12625372800) = 31 := by
    rw [rawDays, hzero, hregular]
    decide
  have hkept := (hspec.kept (by rw [hraw]; decide)).1
  omega

end PhpRuntime.Date
