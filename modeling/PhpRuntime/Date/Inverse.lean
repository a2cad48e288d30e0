import PhpRuntime.Date.Civil

/-!
# Unix time and civil UTC time are inverse

The seconds that `timelib_update_ts` adds up are, to 64 bits, those of the day number of
the date and of the time of day, except that `do_months` takes the year as an unsigned
number: `2^64` is no multiple of 100, so a negative year can be read as a leap year that
is none, and the other way round.
-/

set_option autoImplicit false

namespace PhpRuntime.Date

open PhpRuntime.Lib.Calendar

/-! ## 64 bits -/

def Same (x x' : ℤ) : Prop := x ≡ x' [ZMOD 18446744073709551616]

theorem Same.refl (x : ℤ) : Same x x := Int.ModEq.refl x

theorem Same.of_eq {x x' : ℤ} (h : x = x') : Same x x' := h ▸ Same.refl x

theorem Same.symm {x x' : ℤ} (h : Same x x') : Same x' x := Int.ModEq.symm h

theorem Same.trans {x x' x'' : ℤ} (h : Same x x') (h' : Same x' x'') : Same x x'' :=
  Int.ModEq.trans h h'

theorem Same.add {x x' v v' : ℤ} (h : Same x x') (h' : Same v v') : Same (x + v) (x' + v') :=
  Int.ModEq.add h h'

theorem Same.mul_right {x x' : ℤ} (h : Same x x') (v : ℤ) : Same (x * v) (x' * v) :=
  Int.ModEq.mul_right v h

theorem sll_same (x : ℤ) : Same (sll x) x := by
  unfold Same sll Int.ModEq
  omega

theorem ull_same (x : ℤ) : Same (ull x) x := by
  unfold Same ull Int.ModEq
  omega

/-- A `timelib_sll` is determined by its 64 bits. -/
theorem sll_eq_iff {x ts : ℤ} (h : SllRange ts) : sll x = ts ↔ Same x ts := by
  unfold SllRange at h
  unfold sll Same Int.ModEq
  omega

/-! ## The sums of the way back -/

theorem addYears_same (i res : ℤ) (h : 1969 ≤ i) :
    Same (addYears i res) (res + 86400 * daysBeforeYear (i + 1)) := by
  induction i, res using addYears.induct with
  | case1 i res hge ih =>
    rw [addYears, if_pos hge]
    have hsucc := daysBeforeYear_succ i
    have hdays := daysOf_eq i
    have hstep := sll_same (res + daysOf i * secsPerDay)
    have h' := ih (by omega)
    rw [sub_add_cancel] at h'
    refine h'.trans ((hstep.add (Same.refl _)).trans ?_)
    apply Same.of_eq
    unfold secsPerDay
    omega
  | case2 i res hlt =>
    rw [addYears, if_neg hlt, show i + 1 = 1970 by omega, daysBeforeYear_epoch]
    rw [mul_zero, add_zero]
    exact Same.refl _

theorem subYears_same (year i res : ℤ) (h : year ≤ i + 1) :
    Same (subYears year i res)
      (res - 86400 * daysBeforeYear (i + 1) + 86400 * daysBeforeYear year) := by
  induction i, res using subYears.induct year with
  | case1 i res hge ih =>
    rw [subYears, if_pos hge]
    have hsucc := daysBeforeYear_succ i
    have hdays := daysOf_eq i
    have hstep := sll_same (res - daysOf i * secsPerDay)
    have h' := ih (by omega)
    rw [sub_add_cancel, sub_eq_add_neg] at h'
    refine h'.trans (((hstep.add (Same.refl _)).add (Same.refl _)).trans ?_)
    apply Same.of_eq
    unfold secsPerDay
    omega
  | case2 i res hlt =>
    rw [subYears, if_neg hlt, show i + 1 = year by omega, sub_add_cancel]
    exact Same.refl _

/-- `do_years` gives the seconds before the year. -/
theorem doYears_same {year : ℤ} (h : SllRange (year - 1970)) :
    Same (doYears year) (86400 * daysBeforeYear year) := by
  have hsub : sll (year - 1970) = year - 1970 := (sll_eq_iff h).mpr (Same.refl _)
  unfold doYears
  rw [hsub]
  generalize (year - 1970).tdiv 40000 = eras
  have hperiod : daysBeforeYear (year - eras * 40000) = daysBeforeYear year - 14609700 * eras := by
    have := daysBeforeYear_add_period year (-100 * eras)
    rw [show year - eras * 40000 = year + 400 * (-100 * eras) by omega, this]
    omega
  have hera : Same (if eras ≠ 0 then sll (sll (secsPerEra * eras) * 100) else 0)
      (86400 * (14609700 * eras)) := by
    split
    · refine (sll_same _).trans (((sll_same _).mul_right 100).trans ?_)
      apply Same.of_eq
      unfold secsPerEra
      omega
    · rename_i hzero
      rw [not_not.mp hzero]
      exact Same.refl _
  have hyear : (if eras ≠ 0 then year - eras * 40000 else year) = year - eras * 40000 := by
    split <;> omega
  dsimp only
  rw [hyear]
  generalize (if eras ≠ 0 then sll (sll (secsPerEra * eras) * 100) else 0) = res at hera ⊢
  have hepoch := daysBeforeYear_epoch
  split
  · refine (addYears_same _ _ (by omega)).trans ?_
    rw [sub_add_cancel]
    exact (hera.add (Same.refl _)).trans (Same.of_eq (by omega))
  · refine (subYears_same _ _ _ (by omega)).trans ?_
    rw [show (1969 : ℤ) + 1 = 1970 from rfl, hepoch, mul_zero, sub_zero]
    exact (hera.add (Same.refl _)).trans (Same.of_eq (by omega))

/-- `do_months` gives the days before the month in the year it has read. -/
theorem doMonths_eq (m : ℕ) (h1 : 1 ≤ m) (h12 : m ≤ 12) (year : ℤ) :
    doMonths m year = 86400 * daysBeforeMonth (ull year) m := by
  obtain ⟨i, rfl⟩ := Nat.exists_eq_add_of_le' h1
  have hindex : (ull (ull ((i + 1 : ℕ) : ℤ) - 1)).toNat = i := by
    unfold ull
    omega
  have hget := monthsOf_getD (ull year) (show i ≤ 11 by omega)
  unfold doMonths
  rw [hindex]
  unfold monthsOf at hget
  by_cases hl : Leap (ull year)
  · have hl' := (timelibIsLeap_iff (ull year)).mpr hl
    rw [if_pos hl', leapDay_of_leap hl] at hget
    rw [if_pos hl', hget]
    unfold secsPerDay
    omega
  · have hl' := fun h' => hl ((timelibIsLeap_iff (ull year)).mp h')
    rw [if_neg hl', leapDay_of_not hl] at hget
    rw [if_neg hl', hget]
    unfold secsPerDay
    omega

theorem doDays_same (day : ℤ) : Same (doDays day) (86400 * (day - 1)) := by
  unfold doDays secsPerDay
  refine (sll_same _).trans (((ull_same _).mul_right _).trans ?_)
  exact (((ull_same day).add (Same.refl (-1))).mul_right 86400).trans (Same.of_eq (by omega))

theorem doTime_same (hour minute second : ℤ) :
    Same (doTime hour minute second) (3600 * hour + 60 * minute + second) := by
  have hh := (ull_same hour).mul_right 3600
  have hm := (ull_same minute).mul_right 60
  have hs := ull_same second
  unfold doTime
  refine (sll_same _).trans ((((sll_same _).trans ?_).add hs))
  refine Same.trans ((sll_same _).add hm) ?_
  rw [zero_add]
  exact (hh.add (Same.refl _)).trans (Same.of_eq (by omega))

theorem epochSeconds_same {time : Time} (hyear : SllRange (time.y - 1970)) {m : ℕ}
    (hm : time.m = m) (h1 : 1 ≤ m) (h12 : m ≤ 12) :
    Same (epochSeconds time)
      (86400 * (daysBeforeYear time.y + daysBeforeMonth (ull time.y) m + (time.d - 1)) +
        (3600 * time.h + 60 * time.i + time.s)) := by
  have hy := doYears_same hyear
  have hmonths := doMonths_eq m h1 h12 time.y
  have hd := doDays_same time.d
  have ht := doTime_same time.h time.i time.s
  unfold epochSeconds
  rw [hm, hmonths]
  refine (sll_same _).trans (((sll_same _).trans (((sll_same _).trans
    (((sll_same _).trans ((Same.refl 0).add hy)).add (Same.refl _))).add hd)).add ht |>.trans ?_)
  exact Same.of_eq (by omega)

theorem same_add_days_iff {ts δ : ℤ} (h : -7 ≤ δ) (h' : δ ≤ 7) :
    Same (ts + 86400 * δ) ts ↔ δ = 0 := by
  have hlt : |ts - (ts + 86400 * δ)| < 18446744073709551616 := by
    rw [abs_lt]
    omega
  unfold Same
  rw [Int.modEq_iff_dvd]
  constructor
  · intro hdvd
    have hzero := Int.eq_zero_of_abs_lt_dvd hdvd hlt
    clear hdvd hlt
    omega
  · rintro rfl
    simp

theorem epochSeconds_same_iff {time : Time} (hyear : SllRange (time.y - 1970)) {m : ℕ}
    (hm : time.m = m) (h1 : 1 ≤ m) (h12 : m ≤ 12) :
    Same (epochSeconds time)
        (86400 * dayNumber time.y m time.d + (3600 * time.h + 60 * time.i + time.s)) ↔
      ¬ (3 ≤ m ∧ leapDay (ull time.y) ≠ leapDay time.y) := by
  have hsame := epochSeconds_same hyear hm h1 h12
  have hread := daysBeforeMonth_sub (ull time.y) time.y h12
  have hleap := leapDay_eq_zero_or_one (ull time.y)
  have hleap' := leapDay_eq_zero_or_one time.y
  have hsum : 86400 * (daysBeforeYear time.y + daysBeforeMonth (ull time.y) m + (time.d - 1)) +
      (3600 * time.h + 60 * time.i + time.s) =
      86400 * dayNumber time.y m time.d + (3600 * time.h + 60 * time.i + time.s) +
        86400 * (daysBeforeMonth (ull time.y) m - daysBeforeMonth time.y m) := by
    unfold dayNumber
    clear hsame hread
    omega
  rw [hsum] at hsame
  generalize 86400 * dayNumber time.y m time.d + (3600 * time.h + 60 * time.i + time.s) = ts
    at hsame ⊢
  have hsmall : -7 ≤ daysBeforeMonth (ull time.y) m - daysBeforeMonth time.y m ∧
      daysBeforeMonth (ull time.y) m - daysBeforeMonth time.y m ≤ 7 := by
    rw [hread]
    split <;> omega
  have hiff : Same (epochSeconds time) ts ↔
      daysBeforeMonth (ull time.y) m - daysBeforeMonth time.y m = 0 := by
    rw [← same_add_days_iff hsmall.1 hsmall.2]
    exact ⟨hsame.symm.trans, hsame.trans⟩
  rw [hiff, hread]
  split <;> omega

/-! ## The two directions -/

/-- The fields are a date of the proleptic Gregorian calendar and a time of day. -/
structure Time.Civil (time : Time) : Prop where
  month_pos : 1 ≤ time.m
  date : ValidDate time.y time.m.toNat time.d
  hour : 0 ≤ time.h ∧ time.h < 24
  minute : 0 ≤ time.i ∧ time.i < 60
  second : 0 ≤ time.s ∧ time.s < 60

/-- The way there and back: the fields are valid and give the timestamp again. -/
def RoundTrip (tm : Time) (ts : ℤ) : Prop :=
  (timelibUnixtime2gmt tm ts).Civil ∧ epochSeconds (timelibUnixtime2gmt tm ts) = ts

/-- A day from March on in a year before the year 0 that is read as a leap year and is
none, or is one and is not read so. -/
def InMisreadYear (ts : ℤ) : Prop :=
  ∃ y, y < 0 ∧ ¬ (Leap (ull y) ↔ Leap y) ∧ dayNumber y 3 1 ≤ ts / 86400 ∧
    ts / 86400 < daysBeforeYear (y + 1)

theorem unixtime2gmt_lastDayOfPeriod (tm : Time) {ts : ℤ} (h : LastDayOfPeriod ts) :
    (timelibUnixtime2gmt tm ts).y = 1970 + 400 * ((ts / 86400 + 1) / 146097) ∧
      (timelibUnixtime2gmt tm ts).m = 1 ∧ (timelibUnixtime2gmt tm ts).d = 0 ∧
      (timelibUnixtime2gmt tm ts).h = ts % 86400 / 3600 ∧
      (timelibUnixtime2gmt tm ts).i = (ts % 86400 - ts % 86400 / 3600 * 3600) / 60 ∧
      (timelibUnixtime2gmt tm ts).s = ts % 86400 % 60 := by
  obtain ⟨hts, hmod⟩ := h
  have hrem : ¬ (ts < 0 ∧ ts - ts.tdiv 86400 * 86400 = 0) := by omega
  have hnotleap : ¬ Leap (1970 + 400 * ((ts / 86400 + 1) / 146097)) := by
    rw [leap_add_period]
    decide
  have hbool : ¬ timelibIsLeap (1970 + 400 * ((ts / 86400 + 1) / 146097)) = true :=
    fun h' => hnotleap ((timelibIsLeap_iff _).mp h')
  have hsplit : splitTimestamp ts =
      (0, 1970 + 400 * ((ts / 86400 + 1) / 146097), ts % 86400) := by
    unfold splitTimestamp secsPerDay
    simp only [hrem, if_false, hts, if_true]
    rw [tdiv_of_nonneg hts, skipPeriods_eq (by omega), yearsForward,
      show ts / 86400 + 1 - 146097 * ((ts / 86400 + 1) / 146097) = 0 by omega,
      show ts - ts / 86400 * 86400 = ts % 86400 by omega]
    rfl
  have hr : 0 ≤ ts % 86400 := by omega
  have hminute : 0 ≤ ts % 86400 - ts % 86400 / 3600 * 3600 := by omega
  unfold timelibUnixtime2gmt
  rw [hsplit]
  dsimp only
  rw [if_neg hbool, if_neg (fun h' => hbool h'.1), tdiv_of_nonneg hr, tdiv_of_nonneg hminute,
    Int.tmod_eq_emod_of_nonneg hr]
  exact ⟨rfl, by decide, by decide, rfl, rfl, rfl⟩

theorem unixtime2gmt_civil (tm : Time) {ts : ℤ} (h : ¬ LastDayOfPeriod ts) :
    ∃ m : ℕ, (timelibUnixtime2gmt tm ts).m = m ∧
      ValidDate (timelibUnixtime2gmt tm ts).y m (timelibUnixtime2gmt tm ts).d ∧
      dayNumber (timelibUnixtime2gmt tm ts).y m (timelibUnixtime2gmt tm ts).d = ts / 86400 ∧
      (timelibUnixtime2gmt tm ts).h = ts % 86400 / 3600 ∧
      (timelibUnixtime2gmt tm ts).i = (ts % 86400 - ts % 86400 / 3600 * 3600) / 60 ∧
      (timelibUnixtime2gmt tm ts).s = ts % 86400 % 60 := by
  have hspec := splitTimestamp_spec h
  unfold timelibUnixtime2gmt
  generalize splitTimestamp ts = r at hspec
  obtain ⟨tmpDays, curYear, remainder⟩ := r
  obtain ⟨hin, hrem⟩ := hspec
  dsimp only at hin hrem ⊢
  have hadjust : (if timelibIsLeap curYear = true ∧ curYear < 1970 then tmpDays - 1 else tmpDays) =
      tmpDays - if timelibIsLeap curYear = true ∧ curYear < 1970 then 1 else 0 := by
    split
    · rfl
    · rw [sub_zero]
  obtain ⟨hdate, hnumber⟩ := findMonth_date hin
  have hr : 0 ≤ ts % 86400 := by omega
  have hhour := tdiv_of_nonneg hr 3600
  rw [hadjust, hrem, hhour]
  refine ⟨_, rfl, hdate, hnumber, rfl, ?_, ?_⟩
  · exact tdiv_of_nonneg (by omega) 60
  · exact Int.tmod_eq_emod_of_nonneg hr

theorem civil_iff (tm : Time) (ts : ℤ) :
    (timelibUnixtime2gmt tm ts).Civil ↔ ¬ LastDayOfPeriod ts := by
  constructor
  · intro hcivil hlast
    have hpos := hcivil.date.day_pos
    rw [(unixtime2gmt_lastDayOfPeriod tm hlast).2.2.1] at hpos
    omega
  · intro h
    obtain ⟨m, hm, hdate, -, hh, hi, hs⟩ := unixtime2gmt_civil tm h
    have hpos := hdate.month_pos
    constructor
    · omega
    · rwa [hm, Int.toNat_natCast]
    all_goals omega

theorem year_range {ts y d : ℤ} {m : ℕ} (hts : SllRange ts) (h : ValidDate y m d)
    (hnumber : dayNumber y m d = ts / 86400) : SllRange (y - 1970) := by
  obtain ⟨hfirst, hlast⟩ := dayNumber_in_year h
  rw [hnumber] at hfirst hlast
  unfold SllRange at *
  have hbounds := year_bounds (b := 106751991167301) hfirst hlast (by omega) (by omega)
  clear hfirst hlast
  omega

theorem inMisreadYear_iff {ts y d : ℤ} {m : ℕ} (hts : SllRange ts) (h : ValidDate y m d)
    (hnumber : dayNumber y m d = ts / 86400) :
    InMisreadYear ts ↔ 3 ≤ m ∧ leapDay (ull y) ≠ leapDay y := by
  obtain ⟨hfirst, hlast⟩ := dayNumber_in_year h
  have hmarch := dayNumber_first_le_iff h (k := 3)
  have hleap : (Leap (ull y) ↔ Leap y) ↔ leapDay (ull y) = leapDay y := by
    rw [leap_iff_leapDay, leap_iff_leapDay]
    have h1 := leapDay_eq_zero_or_one (ull y)
    have h2 := leapDay_eq_zero_or_one y
    omega
  rw [hnumber] at hfirst hlast hmarch
  rw [← hmarch, ne_eq, ← hleap]
  constructor
  · rintro ⟨y', -, hread, hmarch', hlast'⟩
    have hfirst' : daysBeforeYear y' ≤ ts / 86400 :=
      (dayNumber_in_year (m := 3) (d := 1)
        ⟨by decide, by decide, by decide, by simp [monthLength]⟩).1.trans hmarch'
    rw [year_unique hfirst hlast hfirst' hlast']
    exact ⟨hmarch', hread⟩
  · rintro ⟨hmarch', hread⟩
    refine ⟨y, ?_, hread, hmarch', hlast⟩
    by_contra hy
    apply hread
    have hyear := year_range hts h hnumber
    rw [show ull y = y by unfold ull; unfold SllRange at hyear; omega]

theorem epochSeconds_eq_iff {time : Time} {ts : ℤ} (hts : SllRange ts) :
    epochSeconds time = ts ↔ Same (epochSeconds time) ts := by
  constructor
  · exact Same.of_eq
  · unfold epochSeconds
    intro h
    exact (sll_eq_iff hts).mpr ((sll_same _).symm.trans h)

theorem epochSeconds_iff (tm : Time) {ts : ℤ} (hts : SllRange ts) (h : ¬ LastDayOfPeriod ts) :
    epochSeconds (timelibUnixtime2gmt tm ts) = ts ↔ ¬ InMisreadYear ts := by
  obtain ⟨m, hm, hdate, hnumber, hh, hi, hs⟩ := unixtime2gmt_civil tm h
  generalize timelibUnixtime2gmt tm ts = time at *
  have hsame := epochSeconds_same_iff (year_range hts hdate hnumber) hm hdate.month_pos
    hdate.month_le
  have hsum : 86400 * dayNumber time.y m time.d + (3600 * time.h + 60 * time.i + time.s) = ts := by
    rw [hnumber, hh, hi, hs]
    clear hsame
    omega
  rw [hsum] at hsame
  rw [inMisreadYear_iff hts hdate hnumber, epochSeconds_eq_iff hts]
  exact hsame

/-- The date and the time of a timestamp are valid and lead back to it exactly when the day
is not the last one of a 400-year period from 1970 on and not one from March on in a year
before 0 that the unsigned year number makes a leap year or an ordinary year by mistake. -/
theorem roundTrip_iff (tm : Time) (ts : ℤ) (h : SllRange ts) :
    RoundTrip tm ts ↔ ¬ LastDayOfPeriod ts ∧ ¬ InMisreadYear ts := by
  unfold RoundTrip
  rw [civil_iff]
  constructor
  · rintro ⟨hlast, hepoch⟩
    exact ⟨hlast, (epochSeconds_iff tm h hlast).mp hepoch⟩
  · rintro ⟨hlast, hread⟩
    exact ⟨hlast, (epochSeconds_iff tm h hlast).mpr hread⟩

theorem not_inMisreadYear {ts : ℤ} (h : -719528 ≤ ts / 86400) : ¬ InMisreadYear ts := by
  rintro ⟨y, hneg, -, -, hlast⟩
  have hzero : daysBeforeYear 0 = -719528 := by decide
  have hbefore : ¬ daysBeforeYear 0 < daysBeforeYear (y + 1) := by
    rw [daysBeforeYear_lt_iff]
    omega
  omega

/-- The last day of the year 2000. -/
theorem roundTrip_december2000 :
    SllRange 978220800 ∧ RoundTrip timelibTimeCtor 978220800 := by
  have hrange : SllRange 978220800 := by decide
  exact ⟨hrange, (roundTrip_iff timelibTimeCtor 978220800 hrange).mpr
    ⟨by decide, not_inMisreadYear (by decide)⟩⟩

/-- 31 December 2369 becomes day 0 of January 2370. -/
theorem not_roundTrip_december2369 : ¬ RoundTrip timelibTimeCtor 12622694400 := by
  have hrange : SllRange 12622694400 := by decide
  have hlast : LastDayOfPeriod 12622694400 := by decide
  intro h
  exact (civil_iff timelibTimeCtor 12622694400).mp h.1 hlast

end PhpRuntime.Date
