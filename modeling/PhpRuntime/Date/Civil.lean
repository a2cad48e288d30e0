import Mathlib.Data.Int.ModEq
import PhpRuntime.Date.UnixTime

/-!
# The date of a timestamp

The loops over the years find the year that the day of a timestamp lies in, and the
loop over the months the month, so that the day number of the date that is found is the
number of whole days of the timestamp. One kind of timestamp is different: on the last
day of a 400-year period counted from 1970 all days are taken off with the period.
-/

set_option autoImplicit false

namespace PhpRuntime.Date

open PhpRuntime.Lib.Calendar

/-! ## Rounding towards zero -/

theorem tmod_eq_zero_iff (y k : ℤ) : y.tmod k = 0 ↔ y % k = 0 := by
  rw [← Int.dvd_iff_tmod_eq_zero, Int.dvd_iff_emod_eq_zero]

theorem tdiv_of_nonneg {a : ℤ} (h : 0 ≤ a) (k : ℤ) : a.tdiv k = a / k :=
  Int.tdiv_eq_ediv_of_nonneg h

theorem tdiv_of_neg (a k : ℤ) (h : a ≤ 0) : a.tdiv k = -(-a / k) := by
  rw [← Int.tdiv_eq_ediv_of_nonneg (by omega), Int.neg_tdiv, neg_neg]

theorem timelibIsLeap_iff (y : ℤ) : timelibIsLeap y = true ↔ Leap y := by
  simp [timelibIsLeap, Leap, tmod_eq_zero_iff]

theorem daysOf_eq (y : ℤ) : daysOf y = yearLength y := by
  unfold daysOf yearLength
  by_cases h : Leap y
  · rw [if_pos ((timelibIsLeap_iff y).mpr h), leapDay_of_leap h]
    rfl
  · rw [if_neg (fun hl => h ((timelibIsLeap_iff y).mp hl)), leapDay_of_not h]
    rfl

/-! ## The year -/

/-- The day `n` lies in the year `y` and `tmpDays` is its number in the month table of
that year, whose entries for a leap year are one smaller. -/
structure InYear (n tmpDays y : ℤ) : Prop where
  day : tmpDays = n - daysBeforeYear y + 1 - leapDay y
  first : daysBeforeYear y ≤ n
  last : n < daysBeforeYear (y + 1)

/-- The last day of a 400-year period counted from 1970. -/
def LastDayOfPeriod (ts : ℤ) : Prop := 0 ≤ ts ∧ (ts / 86400 + 1) % 146097 = 0

instance (ts : ℤ) : Decidable (LastDayOfPeriod ts) := by unfold LastDayOfPeriod; infer_instance

theorem yearsForward_inYear (n tmpDays curYear : ℤ)
    (hday : tmpDays = n - daysBeforeYear curYear + 1 - leapDay curYear)
    (hfirst : daysBeforeYear curYear ≤ n) :
    InYear n (yearsForward tmpDays curYear).1 (yearsForward tmpDays curYear).2 ∧
      curYear ≤ (yearsForward tmpDays curYear).2 := by
  induction tmpDays, curYear using yearsForward.induct with
  | case1 tmpDays curYear hge ih =>
    rw [yearsForward, if_pos hge]
    have hlen : yearLength curYear = 365 + leapDay curYear := rfl
    have hlen' : yearLength (curYear + 1) = 365 + leapDay (curYear + 1) := rfl
    have hsucc := daysBeforeYear_succ curYear
    have hdays := daysOf_eq (curYear + 1)
    unfold daysPerLyear at hge
    have h := ih (by omega) (by omega)
    exact ⟨h.1, by omega⟩
  | case2 tmpDays curYear hlt =>
    rw [yearsForward, if_neg hlt]
    have hlen : yearLength curYear = 365 + leapDay curYear := rfl
    have hsucc := daysBeforeYear_succ curYear
    unfold daysPerLyear at hlt
    exact ⟨⟨hday, hfirst, by dsimp only; omega⟩, le_refl _⟩

theorem yearsBackward_spec (n tmpDays curYear : ℤ)
    (hday : tmpDays = n - daysBeforeYear curYear + 1)
    (hlast : n < daysBeforeYear (curYear + 1)) :
    let r := yearsBackward tmpDays curYear
    r.1 = n - daysBeforeYear r.2 + 1 ∧ daysBeforeYear r.2 ≤ n ∧
      n < daysBeforeYear (r.2 + 1) ∧ r.2 ≤ curYear ∧ (tmpDays ≤ 0 → r.2 < curYear) := by
  induction tmpDays, curYear using yearsBackward.induct with
  | case1 tmpDays curYear hle hlow ih =>
    rw [yearsBackward, if_pos hle, if_pos hlow]
    have hperiod := daysBeforeYear_add_period curYear (-10)
    have hperiod' := daysBeforeYear_add_period (curYear + 1) (-10)
    have hyear : curYear - 4000 = curYear + 400 * (-10) := by omega
    have hyear' : curYear - 4000 + 1 = curYear + 1 + 400 * (-10) := by omega
    have hmono := daysBeforeYear_lt_iff.mpr (show curYear < curYear + 1 by omega)
    have hlast' : n < daysBeforeYear (curYear - 4000 + 1) := by
      rw [hyear', hperiod']
      omega
    have h := ih (by rw [hyear, hperiod]; omega) hlast'
    dsimp only at h ⊢
    omega
  | case2 tmpDays curYear hle hlow ih =>
    rw [yearsBackward, if_pos hle, if_neg hlow]
    have hsucc := daysBeforeYear_succ (curYear - 1)
    have hdays := daysOf_eq (curYear - 1)
    rw [sub_add_cancel] at hsucc
    have h := ih (by omega) (by rw [sub_add_cancel]; omega)
    dsimp only at h ⊢
    omega
  | case3 tmpDays curYear hgt =>
    rw [yearsBackward, if_neg hgt]
    dsimp only
    omega

theorem skipPeriods_eq {n : ℤ} (h : 0 ≤ n) :
    skipPeriods n 1970 =
      (n - 146097 * (n / 146097), 1970 + 400 * (n / 146097)) := by
  unfold skipPeriods daysPerLyearPeriod yearsPerLyearPeriod
  rw [tdiv_of_nonneg h]
  split
  · rfl
  · rw [show n / 146097 = 0 by omega]
    simp

theorem daysBeforeYear_period (k : ℤ) : daysBeforeYear (1970 + 400 * k) = 146097 * k := by
  rw [daysBeforeYear_add_period, daysBeforeYear_epoch, zero_add]

theorem leapDay_period (k : ℤ) : leapDay (1970 + 400 * k) = 0 := by
  apply leapDay_of_not
  rw [leap_add_period]
  decide

theorem splitTimestamp_spec {ts : ℤ} (h : ¬ LastDayOfPeriod ts) :
    let r := splitTimestamp ts
    InYear (ts / 86400) (r.1 - if timelibIsLeap r.2.1 ∧ r.2.1 < 1970 then 1 else 0) r.2.1 ∧
      r.2.2 = ts % 86400 := by
  unfold splitTimestamp secsPerDay
  by_cases hts : 0 ≤ ts
  · have hrem : ¬ (ts < 0 ∧ ts - ts.tdiv 86400 * 86400 = 0) := by omega
    have hdiv := tdiv_of_nonneg hts 86400
    simp only [hrem, if_false, hts, if_true]
    rw [hdiv, skipPeriods_eq (by omega)]
    have hnot : (ts / 86400 + 1) % 146097 ≠ 0 := fun h0 => h ⟨hts, h0⟩
    have hdby := daysBeforeYear_period ((ts / 86400 + 1) / 146097)
    have hleap := leapDay_period ((ts / 86400 + 1) / 146097)
    obtain ⟨hin, hge⟩ := yearsForward_inYear (ts / 86400)
      (ts / 86400 + 1 - 146097 * ((ts / 86400 + 1) / 146097))
      (1970 + 400 * ((ts / 86400 + 1) / 146097)) (by omega) (by omega)
    dsimp only
    rw [if_neg (by omega), sub_zero]
    exact ⟨hin, by omega⟩
  · simp only [hts, if_false]
    have hdiv := tdiv_of_neg ts 86400 (by omega)
    have hdays : (if ts < 0 ∧ ts - ts.tdiv 86400 * 86400 = 0 then ts.tdiv 86400 + 1
        else ts.tdiv 86400) = ts / 86400 + 1 := by
      split <;> omega
    have hrem : (if ts < 0 ∧ ts - ts.tdiv 86400 * 86400 = 0
        then ts - ts.tdiv 86400 * 86400 - 86400 else ts - ts.tdiv 86400 * 86400) + 86400 =
        ts % 86400 := by
      split <;> omega
    rw [hdays, hrem]
    have h1970 := daysBeforeYear_epoch
    have h1971 := daysBeforeYear_succ 1970
    have hpos := yearLength_pos 1970
    have hspec := yearsBackward_spec (ts / 86400) (ts / 86400 + 1) 1970
      (by omega) (by omega)
    dsimp only at hspec ⊢
    obtain ⟨hday, hfirst, hlast, -, hlt⟩ := hspec
    refine ⟨⟨?_, hfirst, hlast⟩, rfl⟩
    rw [hday]
    have hlt' := hlt (by omega)
    unfold leapDay
    simp only [timelibIsLeap_iff, hlt', and_true]

/-! ## The month -/

def monthsOf (y : ℤ) : List ℤ := if timelibIsLeap y then monthTabLeap else monthTab

theorem monthsOf_getD (y : ℤ) {i : ℕ} (h : i ≤ 11) :
    (monthsOf y).getD i 0 = daysBeforeMonth y (i + 1) - leapDay y := by
  unfold monthsOf
  by_cases hl : Leap y
  · rw [if_pos ((timelibIsLeap_iff y).mpr hl)]
    interval_cases i <;>
      simp [monthTabLeap, daysBeforeMonth, monthLength, Finset.sum_range_succ, leapDay_of_leap hl]
  · rw [if_neg (fun h' => hl ((timelibIsLeap_iff y).mp h'))]
    interval_cases i <;>
      simp [monthTab, daysBeforeMonth, monthLength, Finset.sum_range_succ, leapDay_of_not hl]

theorem findMonth_spec (months : List ℤ) (tmpDays : ℤ) (k : ℕ) :
    findMonth months tmpDays k ≤ k ∧
      (findMonth months tmpDays k = 0 ∨
        months.getD (findMonth months tmpDays k) 0 < tmpDays) ∧
      ∀ j, findMonth months tmpDays k < j → j ≤ k → tmpDays ≤ months.getD j 0 := by
  induction k with
  | zero => exact ⟨le_refl _, Or.inl rfl, fun j hj hk => by omega⟩
  | succ k ih =>
    unfold findMonth
    split
    · rename_i hlt
      exact ⟨le_refl _, Or.inr hlt, fun j hj hk => by omega⟩
    · rename_i hge
      obtain ⟨hle, hbegin, hlater⟩ := ih
      refine ⟨by omega, hbegin, fun j hj hk => ?_⟩
      rcases Nat.lt_or_ge k j with hkj | hkj
      · rw [show j = k + 1 by omega]
        omega
      · exact hlater j hj hkj

theorem findMonth_date {n tmpDays y : ℤ} (h : InYear n tmpDays y) :
    let i := findMonth (monthsOf y) tmpDays 11
    ValidDate y (i + 1) (tmpDays - (monthsOf y).getD i 0) ∧
      dayNumber y (i + 1) (tmpDays - (monthsOf y).getD i 0) = n := by
  intro i
  obtain ⟨hle, hbegin, hlater⟩ := findMonth_spec (monthsOf y) tmpDays 11
  change i ≤ 11 at hle
  change i = 0 ∨ (monthsOf y).getD i 0 < tmpDays at hbegin
  have hday := h.day
  have hget := monthsOf_getD y hle
  have hfirst : dayNumber y (i + 1) 1 ≤ n := by
    unfold dayNumber
    rcases hbegin with hzero | hlt
    · have hjan : daysBeforeMonth y (0 + 1) = 0 := rfl
      have := h.first
      rw [hzero]
      omega
    · omega
  have hlast : n < dayNumber y (i + 1 + 1) 1 := by
    unfold dayNumber
    rcases Nat.lt_or_ge i 11 with hlt | hge
    · have hnext := hlater (i + 1) (Nat.lt_succ_self i) hlt
      rw [monthsOf_getD y (show i + 1 ≤ 11 by omega)] at hnext
      omega
    · have hyear := daysBeforeMonth_last y
      have hend := h.last
      rw [daysBeforeYear_succ] at hend
      have hdec : daysBeforeMonth y (i + 1 + 1) = yearLength y := by
        rw [show i = 11 by omega, hyear]
      omega
  have hd : tmpDays - (monthsOf y).getD i 0 = n - dayNumber y (i + 1) 1 + 1 := by
    unfold dayNumber
    omega
  rw [hd]
  refine ⟨validDate_of_between (by omega) (by omega) hfirst hlast, ?_⟩
  unfold dayNumber
  omega

end PhpRuntime.Date
