import PhpRuntime.Date.JewishYear
import PhpRuntime.Lib.MonthCalendar

/-!
# Jewish dates

`SdnToJewish` and `JewishToSdn` (`ext/calendar/jewish.c`). The conversion of a day looks for the new
moon of a Tishri near the day and counts from the beginning of the year or back from its end; the
other direction computes the year. They agree, and days in a row have dates in a row, up to the year
in which a product of `JewishToSdn` leaves `int`.
-/

set_option autoImplicit false

namespace PhpRuntime.Date

open PhpRuntime.Lib
open PhpRuntime.Text (Undefined INT_MAX intValue intValue_eq)

/-- The loop that increments the number of the metonic cycle. -/
def correctCycle (inputDay : ℤ) (metonicCycle : ℕ) (molad : Molad) : ℕ × Molad :=
  if (molad.day : ℤ) < inputDay - 6940 + 310 then
    correctCycle inputDay (metonicCycle + 1) (molad.add HALAKIM_PER_METONIC_CYCLE)
  else (metonicCycle, molad)
termination_by (inputDay - molad.day).toNat
decreasing_by
  unfold Molad.add HALAKIM_PER_METONIC_CYCLE HALAKIM_PER_LUNAR_CYCLE HALAKIM_PER_DAY
  dsimp only
  omega

/-- The loop that finds the molad of Tishri closest to the day. -/
def closestYear (inputDay : ℤ) (metonicYear : ℕ) (molad : Molad) : ℕ × Molad :=
  if metonicYear < 18 then
    if inputDay - 74 < molad.day then (metonicYear, molad)
    else closestYear inputDay (metonicYear + 1)
      (molad.add (HALAKIM_PER_LUNAR_CYCLE * monthsPerYear.getD metonicYear 0))
  else (metonicYear, molad)
termination_by 18 - metonicYear

/-- `FindTishriMolad`: the metonic cycle, the year in it and the molad. The day is not before
-310. -/
def findTishriMolad (inputDay : ℤ) : Except Undefined (ℕ × ℕ × Molad) := do
  let metonicCycle := ((inputDay + 310).tdiv 6940).toNat
  let molad ← moladOfMetonicCycle metonicCycle
  let (metonicCycle, molad) := correctCycle inputDay metonicCycle molad
  let (metonicYear, molad) := closestYear inputDay 0 molad
  return (metonicCycle, metonicYear, molad)

/-- `FindStartOfYear`: the year in the cycle, its molad and its first day. -/
def findStartOfYear (year : ℤ) : Except Undefined (ℕ × Molad × ℕ) := do
  let metonicCycle := ((year - 1).tdiv 19).toNat
  let metonicYear := ((year - 1).tmod 19).toNat
  let molad ← moladOfMetonicCycle metonicCycle
  let molad := molad.add (HALAKIM_PER_LUNAR_CYCLE * yearOffset.getD metonicYear 0)
  return (metonicYear, molad, tishri1 metonicYear molad)

/-- The last six months, counted back from the beginning of the next year. -/
def lastSixMonths (year inputDay tishri1 : ℤ) : CalendarDate :=
  if tishri1 - 30 < inputDay then ⟨year, 13, inputDay - tishri1 + 30⟩
  else if tishri1 - 60 < inputDay then ⟨year, 12, inputDay - tishri1 + 60⟩
  else if tishri1 - 89 < inputDay then ⟨year, 11, inputDay - tishri1 + 89⟩
  else if tishri1 - 119 < inputDay then ⟨year, 10, inputDay - tishri1 + 119⟩
  else if tishri1 - 148 < inputDay then ⟨year, 9, inputDay - tishri1 + 148⟩
  else ⟨year, 8, inputDay - tishri1 + 178⟩

/-- Shevat and Tevet: `day` is counted in the month 5. -/
def shevatOrTevet (year day : ℤ) : Option CalendarDate :=
  if 0 < day then some ⟨year, 5, day⟩
  else if 0 < day + 29 then some ⟨year, 4, day + 29⟩
  else none

def adarToTevet (year inputDay tishri1 : ℤ) : Option CalendarDate :=
  let day := inputDay - tishri1 + 207
  if monthsPerYear.getD ((year - 1).toNat % 19) 0 = 13 then
    if 0 < day then some ⟨year, 7, day⟩
    else if 0 < day + 30 then some ⟨year, 6, day + 30⟩
    else shevatOrTevet year (day + 30 + 30)
  else
    if 0 < day then some ⟨year, 6, day⟩
    else shevatOrTevet year (day + 30)

/-- Heshvan or Kislev, with the length of the year. -/
def heshvanOrKislev (year inputDay tishri1 tishri1After : ℤ) : CalendarDate :=
  let yearLength := tishri1After - tishri1
  let day := inputDay - tishri1 - 29
  if yearLength = 355 ∨ yearLength = 385 then
    if day ≤ 30 then ⟨year, 2, day⟩ else ⟨year, 3, day - 30⟩
  else if day ≤ 29 then ⟨year, 2, day⟩ else ⟨year, 3, day - 29⟩

/-- `SdnToJewish` -/
def sdnToJewish (sdn : ℤ) : Except Undefined CalendarDate :=
  if sdn ≤ JEWISH_SDN_OFFSET ∨ JEWISH_SDN_MAX < sdn then .ok noDate
  else do
    let inputDay := sdn - JEWISH_SDN_OFFSET
    let (metonicCycle, metonicYear, molad) ← findTishriMolad inputDay
    let first : ℤ := tishri1 metonicYear molad
    if first ≤ inputDay then
      let year := metonicCycle * 19 + metonicYear + 1
      if inputDay < first + 59 then
        if inputDay < first + 30 then return ⟨year, 1, inputDay - first + 1⟩
        else return ⟨year, 2, inputDay - first - 29⟩
      else
        let molad := molad.add (HALAKIM_PER_LUNAR_CYCLE * monthsPerYear.getD metonicYear 0)
        return heshvanOrKislev year inputDay first (tishri1 ((metonicYear + 1) % 19) molad)
    else
      let year := metonicCycle * 19 + metonicYear
      if first - 177 ≤ inputDay then return lastSixMonths year inputDay first
      else
        match adarToTevet year inputDay first with
        | some date => return date
        | none =>
          let (_, metonicYear, molad) ← findTishriMolad (molad.day - 365)
          return heshvanOrKislev year inputDay (tishri1 metonicYear molad) first

/-- `JewishToSdn` -/
def jewishToSdn (year month day : ℤ) : Except Undefined ℤ :=
  if year ≤ 0 ∨ day ≤ 0 ∨ 30 < day then .ok 0
  else if month = 1 ∨ month = 2 then do
    let (_, _, first) ← findStartOfYear year
    return (if month = 1 then first + day - 1 else first + day + 29) + JEWISH_SDN_OFFSET
  else if month = 3 then do
    let (metonicYear, molad, first) ← findStartOfYear year
    let molad := molad.add (HALAKIM_PER_LUNAR_CYCLE * monthsPerYear.getD metonicYear 0)
    let yearLength : ℤ := tishri1 ((metonicYear + 1) % 19) molad - first
    return (if yearLength = 355 ∨ yearLength = 385 then first + day + 59 else first + day + 58) +
      JEWISH_SDN_OFFSET
  else if month = 4 ∨ month = 5 ∨ month = 6 then do
    let (_, _, after) ← findStartOfYear (← intValue (year + 1))
    let lengthOfAdarIAndII :=
      if monthsPerYear.getD ((year - 1).toNat % 19) 0 = 12 then 29 else 59
    return after + day - lengthOfAdarIAndII -
      (if month = 4 then 237 else if month = 5 then 208 else 178) + JEWISH_SDN_OFFSET
  else do
    let (_, _, after) ← findStartOfYear (← intValue (year + 1))
    if month = 7 then return after + day - 207 + JEWISH_SDN_OFFSET
    else if month = 8 then return after + day - 178 + JEWISH_SDN_OFFSET
    else if month = 9 then return after + day - 148 + JEWISH_SDN_OFFSET
    else if month = 10 then return after + day - 119 + JEWISH_SDN_OFFSET
    else if month = 11 then return after + day - 89 + JEWISH_SDN_OFFSET
    else if month = 12 then return after + day - 60 + JEWISH_SDN_OFFSET
    else if month = 13 then return after + day - 30 + JEWISH_SDN_OFFSET
    else return 0

/-! ## The calendar -/

def yearDays (j : ℕ) : ℤ := newYear (j + 1) - newYear j

/-- The lengths of the months. Heshvan and Kislev take what the first days of the years leave, and
the thirteenth month is the seventh: in the other years it is empty. -/
def jewishMonthLength (j : ℕ) : ℕ → ℤ
  | 1 => 30
  | 2 => if yearDays j = 355 ∨ yearDays j = 385 then 30 else 29
  | 3 => if yearDays j = 353 ∨ yearDays j = 383 then 29 else 30
  | 4 => 29
  | 5 => 30
  | 6 => if LeapYear j then 30 else 29
  | 7 => if LeapYear j then 29 else 0
  | 8 => 30
  | 9 => 29
  | 10 => 30
  | 11 => 29
  | 12 => 30
  | 13 => 29
  | _ => 0

theorem yearDays_bounds (j : ℕ) :
    if LeapYear j then 383 ≤ yearDays j ∧ yearDays j ≤ 385
    else 353 ≤ yearDays j ∧ yearDays j ≤ 355 := by
  unfold yearDays
  split
  · next h =>
    have hbounds := newYear_succ_leap h
    omega
  · next h =>
    have hbounds := newYear_succ_common h
    omega

theorem jewishMonthLength_nonneg (j m : ℕ) : 0 ≤ jewishMonthLength j m := by
  unfold jewishMonthLength
  split <;> (try split) <;> omega

theorem sum_jewishMonthLength (j : ℕ) :
    ∑ k ∈ Finset.range 13, jewishMonthLength j (k + 1) = yearDays j := by
  have hbounds := yearDays_bounds j
  simp only [Finset.sum_range_succ, Finset.sum_range_zero, jewishMonthLength]
  split_ifs at * <;> omega

/-- The Jewish calendar, the years counted from 0. -/
def jewishCalendar : MonthCalendar where
  newYear j := newYear j
  months := 13
  monthLength := jewishMonthLength
  monthLength_nonneg := jewishMonthLength_nonneg
  newYear_succ j := by
    rw [sum_jewishMonthLength, yearDays]
    omega
  newYear_lt j := by
    have hbounds := yearDays_bounds j
    unfold yearDays at hbounds
    split_ifs at hbounds <;> omega

/-- The date as the functions give it, with the years counted from 1. -/
def jewishDate (t : MonthDate) : CalendarDate := ⟨t.year + 1, t.month, t.day⟩

/-- The date of the day `n` in the year `j`. -/
def DateOf (j : ℕ) (n : ℤ) (date : CalendarDate) : Prop :=
  ∃ t : MonthDate, jewishCalendar.Valid t ∧ t.year = j ∧ jewishCalendar.number t = n ∧
    date = jewishDate t

variable {j : ℕ} {n : ℤ}

theorem number_early (j m : ℕ) (d : ℤ) :
    jewishCalendar.number ⟨j, m, d⟩ =
      newYear j + ∑ k ∈ Finset.range (m - 1), jewishMonthLength j (k + 1) + (d - 1) := rfl

/-- The days from the beginning of a month to the end of its year, from Tevet on. -/
def daysToEnd (leap : Prop) [Decidable leap] (m : ℕ) : ℤ :=
  ([265, 236, 206, 177, 177, 147, 118, 88, 59, 29] : List ℤ).getD (m - 4) 0 +
    if leap then if m ≤ 6 then 30 else if m = 7 then 29 else 0 else 0

theorem number_late (j : ℕ) {m : ℕ} (h4 : 4 ≤ m) (h13 : m ≤ 13) (d : ℤ) :
    jewishCalendar.number ⟨j, m, d⟩ = newYear (j + 1) - daysToEnd (LeapYear j) m + (d - 1) := by
  have hsum := sum_jewishMonthLength j
  have hdays : yearDays j = newYear (j + 1) - newYear j := rfl
  rw [number_early]
  simp only [Finset.sum_range_succ, Finset.sum_range_zero, jewishMonthLength] at hsum
  unfold daysToEnd
  interval_cases m <;>
    simp only [Finset.sum_range_succ, Finset.sum_range_zero, jewishMonthLength, Nat.reduceSub] <;>
    simp <;> split_ifs at * <;> omega

theorem dateOf_late {m : ℕ} {d year : ℤ} (h4 : 4 ≤ m) (h13 : m ≤ 13)
    (hn : n = newYear (j + 1) - daysToEnd (LeapYear j) m + (d - 1)) (hd : 1 ≤ d)
    (hle : d ≤ jewishMonthLength j m) (hyear : year = j + 1) : DateOf j n ⟨year, m, d⟩ := by
  refine ⟨⟨j, m, d⟩, ⟨show 1 ≤ m by omega, h13, hd, hle⟩, rfl, ?_, ?_⟩
  · rw [number_late j h4 h13, hn]
  · rw [hyear]
    rfl

theorem lastSixMonths_spec (hlow : (newYear (j + 1) : ℤ) - 177 ≤ n) (hhigh : n < newYear (j + 1)) :
    DateOf j n (lastSixMonths (j + 1) n (newYear (j + 1))) := by
  unfold lastSixMonths
  split
  · exact dateOf_late (m := 13) (by decide) (by decide) (by simp [daysToEnd]; omega) (by omega)
      (show _ ≤ 29 by omega) rfl
  split
  · exact dateOf_late (m := 12) (by decide) (by decide) (by simp [daysToEnd]; omega) (by omega)
      (show _ ≤ 30 by omega) rfl
  split
  · exact dateOf_late (m := 11) (by decide) (by decide) (by simp [daysToEnd]; omega) (by omega)
      (show _ ≤ 29 by omega) rfl
  split
  · exact dateOf_late (m := 10) (by decide) (by decide) (by simp [daysToEnd]; omega) (by omega)
      (show _ ≤ 30 by omega) rfl
  split
  · exact dateOf_late (m := 9) (by decide) (by decide) (by simp [daysToEnd]; omega) (by omega)
      (show _ ≤ 29 by omega) rfl
  · exact dateOf_late (m := 8) (by decide) (by decide) (by simp [daysToEnd]; omega) (by omega)
      (show _ ≤ 30 by omega) rfl

theorem adarToTevet_spec (hhigh : n < (newYear (j + 1) : ℤ) - 177) :
    (∃ date, adarToTevet (j + 1) n (newYear (j + 1)) = some date ∧ DateOf j n date) ∨
      (adarToTevet (j + 1) n (newYear (j + 1)) = none ∧
        n < newYear (j + 1) - daysToEnd (LeapYear j) 4) := by
  have hindex : ((j : ℤ) + 1 - 1).toNat % 19 = j % 19 := by omega
  unfold adarToTevet shevatOrTevet
  rw [hindex, monthsPerYear_eq]
  by_cases hleap : LeapYear j
  · rw [if_pos hleap, if_pos rfl]
    split
    · left
      exact ⟨_, rfl, dateOf_late (m := 7) (by decide) (by decide)
        (by simp [daysToEnd, hleap]; omega) (by omega)
        (by simp [jewishMonthLength, hleap]; omega) rfl⟩
    split
    · left
      exact ⟨_, rfl, dateOf_late (m := 6) (by decide) (by decide)
        (by simp [daysToEnd, hleap]; omega) (by omega)
        (by simp [jewishMonthLength, hleap]; omega) rfl⟩
    split
    · left
      exact ⟨_, rfl, dateOf_late (m := 5) (by decide) (by decide)
        (by simp [daysToEnd, hleap]; omega) (by omega)
        (by simp [jewishMonthLength]; omega) rfl⟩
    split
    · left
      exact ⟨_, rfl, dateOf_late (m := 4) (by decide) (by decide)
        (by simp [daysToEnd, hleap]; omega) (by omega)
        (by simp [jewishMonthLength]; omega) rfl⟩
    · right
      refine ⟨rfl, ?_⟩
      simp [daysToEnd, hleap]
      omega
  · rw [if_neg hleap, if_neg (by decide)]
    split
    · left
      exact ⟨_, rfl, dateOf_late (m := 6) (by decide) (by decide)
        (by simp [daysToEnd, hleap]; omega) (by omega)
        (by simp [jewishMonthLength, hleap]; omega) rfl⟩
    split
    · left
      exact ⟨_, rfl, dateOf_late (m := 5) (by decide) (by decide)
        (by simp [daysToEnd, hleap]; omega) (by omega)
        (by simp [jewishMonthLength]; omega) rfl⟩
    split
    · left
      exact ⟨_, rfl, dateOf_late (m := 4) (by decide) (by decide)
        (by simp [daysToEnd, hleap]; omega) (by omega)
        (by simp [jewishMonthLength]; omega) rfl⟩
    · right
      refine ⟨rfl, ?_⟩
      simp [daysToEnd, hleap]
      omega

theorem dateOf_tishri {year d : ℤ} (hd : n = newYear j + (d - 1)) (h1 : 1 ≤ d) (h30 : d ≤ 30)
    (hyear : year = j + 1) : DateOf j n ⟨year, 1, d⟩ := by
  refine ⟨⟨j, 1, d⟩, ⟨show 1 ≤ 1 from le_rfl, show 1 ≤ 13 by decide, h1, h30⟩, rfl, ?_, ?_⟩
  · rw [number_early, hd]
    simp
  · rw [hyear]
    rfl

theorem dateOf_heshvan {year d : ℤ} (hd : n = newYear j + 30 + (d - 1)) (h1 : 1 ≤ d)
    (hle : d ≤ jewishMonthLength j 2) (hyear : year = j + 1) : DateOf j n ⟨year, 2, d⟩ := by
  refine ⟨⟨j, 2, d⟩, ⟨show 1 ≤ 2 by decide, show 2 ≤ 13 by decide, h1, hle⟩, rfl, ?_, ?_⟩
  · rw [number_early, hd]
    simp [jewishMonthLength]
  · rw [hyear]
    rfl

theorem dateOf_kislev {year d : ℤ} (hd : n = newYear j + 30 + jewishMonthLength j 2 + (d - 1))
    (h1 : 1 ≤ d) (hle : d ≤ jewishMonthLength j 3) (hyear : year = j + 1) :
    DateOf j n ⟨year, 3, d⟩ := by
  refine ⟨⟨j, 3, d⟩, ⟨show 1 ≤ 3 by decide, show 3 ≤ 13 by decide, h1, hle⟩, rfl, ?_, ?_⟩
  · rw [number_early, hd]
    simp [Finset.sum_range_succ, jewishMonthLength]
    omega
  · rw [hyear]
    rfl

theorem heshvan_bounds (j : ℕ) : 29 ≤ jewishMonthLength j 2 ∧ jewishMonthLength j 2 ≤ 30 := by
  change 29 ≤ (if yearDays j = 355 ∨ yearDays j = 385 then (30 : ℤ) else 29) ∧
    (if yearDays j = 355 ∨ yearDays j = 385 then (30 : ℤ) else 29) ≤ 30
  split <;> omega

theorem kislev_bounds (j : ℕ) : 29 ≤ jewishMonthLength j 3 ∧ jewishMonthLength j 3 ≤ 30 := by
  change 29 ≤ (if yearDays j = 353 ∨ yearDays j = 383 then (29 : ℤ) else 30) ∧
    (if yearDays j = 353 ∨ yearDays j = 383 then (29 : ℤ) else 30) ≤ 30
  split <;> omega

theorem kislev_end (j : ℕ) :
    (newYear (j + 1) : ℤ) - daysToEnd (LeapYear j) 4 =
      newYear j + 30 + jewishMonthLength j 2 + jewishMonthLength j 3 := by
  have hbounds := yearDays_bounds j
  have hdays : yearDays j = newYear (j + 1) - newYear j := rfl
  unfold jewishMonthLength daysToEnd
  simp
  split_ifs at * <;> omega

theorem heshvanOrKislev_spec (hlow : (newYear j : ℤ) + 30 ≤ n)
    (hhigh : n < newYear (j + 1) - daysToEnd (LeapYear j) 4) :
    DateOf j n (heshvanOrKislev (j + 1) n (newYear j) (newYear (j + 1))) := by
  rw [kislev_end] at hhigh
  rw [heshvanOrKislev]
  split
  · next hlength =>
    have hheshvan : jewishMonthLength j 2 = 30 := if_pos hlength
    split
    · exact dateOf_heshvan (by omega) (by omega) (by omega) rfl
    · exact dateOf_kislev (by omega) (by omega) (by omega) rfl
  · next hlength =>
    have hheshvan : jewishMonthLength j 2 = 29 := if_neg hlength
    split
    · exact dateOf_heshvan (by omega) (by omega) (by omega) rfl
    · exact dateOf_kislev (by omega) (by omega) (by omega) rfl

/-! ## The search -/

theorem newMoon_mul (c : ℕ) : newMoon (19 * c) = moladAt (235 * c) := by
  have hbefore : monthsBefore (19 * c) = 235 * c := by
    rw [monthsBefore, show 19 * c / 19 = c by omega, show 19 * c % 19 = 0 by omega]
    rfl
  rw [newMoon, hbefore]

theorem moladAt_cycle (c : ℕ) :
    (moladAt (235 * c)).add HALAKIM_PER_METONIC_CYCLE = moladAt (235 * (c + 1)) := by
  have hcycle : HALAKIM_PER_METONIC_CYCLE = HALAKIM_PER_LUNAR_CYCLE * 235 := rfl
  rw [hcycle, moladAt_add, mul_add]

theorem moladAt_cycle_day (c : ℕ) :
    (moladAt (235 * c)).day + 6939 ≤ (moladAt (235 * (c + 1))).day ∧
      (moladAt (235 * (c + 1))).day ≤ (moladAt (235 * c)).day + 6940 := by
  unfold moladAt NEW_MOON_OF_CREATION HALAKIM_PER_LUNAR_CYCLE HALAKIM_PER_DAY
  dsimp only
  omega

theorem correctCycle_spec (x : ℤ) (c : ℕ) (h : ((moladAt (235 * c)).day : ℤ) ≤ x + 311) :
    ∃ c', correctCycle x c (moladAt (235 * c)) = (c', moladAt (235 * c')) ∧
      ((moladAt (235 * c')).day : ℤ) ≤ x + 311 ∧ x - 6630 ≤ (moladAt (235 * c')).day := by
  generalize hm : moladAt (235 * c) = m
  fun_induction correctCycle x c m with
  | case1 c m hlt ih =>
    subst hm
    have hday := moladAt_cycle_day c
    exact ih (by omega) (moladAt_cycle c).symm
  | case2 c m hge =>
    subst hm
    exact ⟨c, rfl, h, by omega⟩

theorem closestYear_spec (x : ℤ) (c y : ℕ) (hy : y ≤ 18)
    (hprev : 0 < y → ((newMoon (19 * c + y - 1)).day : ℤ) ≤ x - 74) :
    ∃ y', closestYear x y (newMoon (19 * c + y)) = (y', newMoon (19 * c + y')) ∧ y' ≤ 18 ∧
      (y' = 18 ∨ x - 74 < (newMoon (19 * c + y')).day) ∧
      (0 < y' → ((newMoon (19 * c + y' - 1)).day : ℤ) ≤ x - 74) := by
  generalize hm : newMoon (19 * c + y) = m
  fun_induction closestYear x y m with
  | case1 y m hlt hclose =>
    subst hm
    exact ⟨y, rfl, hy, Or.inr hclose, hprev⟩
  | case2 y m hlt hfar ih =>
    subst hm
    have hmod : (19 * c + y) % 19 = y := by omega
    refine ih (by omega) (fun _ => ?_) ?_
    · rw [show 19 * c + (y + 1) - 1 = 19 * c + y by omega]
      omega
    · rw [← add_assoc, newMoon_succ, hmod]
  | case3 y m hge =>
    subst hm
    exact ⟨y, rfl, hy, Or.inl (by omega), hprev⟩

theorem newMoon_last (c : ℕ) :
    (newMoon (19 * c)).day + 6555 ≤ (newMoon (19 * c + 18)).day := by
  have hbefore : monthsBefore (19 * c + 18) = 235 * c + 222 := by
    rw [monthsBefore, show (19 * c + 18) / 19 = c by omega, show (19 * c + 18) % 19 = 18 by omega]
    rfl
  rw [newMoon_mul, newMoon, hbefore]
  unfold moladAt NEW_MOON_OF_CREATION HALAKIM_PER_LUNAR_CYCLE HALAKIM_PER_DAY
  dsimp only
  omega

theorem findTishriMolad_spec {x : ℤ} (hlow : -310 ≤ x) (hhigh : x ≤ 324194849) :
    ∃ c y, findTishriMolad x = .ok (c, y, newMoon (19 * c + y)) ∧ y ≤ 18 ∧
      x - 76 < (newMoon (19 * c + y)).day ∧
      (y = 0 ∧ ((newMoon (19 * c + y)).day : ℤ) ≤ x + 311 ∨
        0 < y ∧ ((newMoon (19 * c + y - 1)).day : ℤ) ≤ x - 74) := by
  have hquotient : ((x + 310).tdiv 6940).toNat = (x + 310).toNat / 6940 := by
    rw [Int.tdiv_eq_ediv_of_nonneg (by omega)]
    omega
  have hstart : ((moladAt (235 * ((x + 310).toNat / 6940))).day : ℤ) ≤ x + 311 := by
    unfold moladAt NEW_MOON_OF_CREATION HALAKIM_PER_LUNAR_CYCLE HALAKIM_PER_DAY
    dsimp only
    omega
  obtain ⟨c, hcycle, hceil, hfloor⟩ := correctCycle_spec x _ hstart
  obtain ⟨y, hyear, hy, hclose, hprev⟩ := closestYear_spec x c 0 (by decide)
    (fun h => absurd h (lt_irrefl 0))
  rw [add_zero, newMoon_mul] at hyear
  refine ⟨c, y, ?_, hy, ?_, ?_⟩
  · rw [findTishriMolad, hquotient, moladOfMetonicCycle_eq (by omega), ok_bind, hcycle]
    dsimp only
    rw [hyear]
    rfl
  · rcases hclose with rfl | hclose
    · have hlast := newMoon_last c
      rw [newMoon_mul] at hlast
      omega
    · omega
  · rcases Nat.eq_zero_or_pos y with rfl | hpos
    · left
      rw [add_zero, newMoon_mul]
      exact ⟨rfl, hceil⟩
    · exact Or.inr ⟨hpos, hprev hpos⟩

/-! ## From the day to the date -/

theorem newMoon_day_succ (j : ℕ) :
    (newMoon j).day + 354 ≤ (newMoon (j + 1)).day ∧
      (newMoon (j + 1)).day ≤ (newMoon j).day + 384 := by
  have hlt := newMoon_halakim_lt j
  by_cases hleap : LeapYear j
  · have hday := (newMoon_succ_leap hleap).1
    omega
  · have hday := (newMoon_succ_common hleap).1
    omega

theorem newMoon_mono {i k : ℕ} (h : i ≤ k) : (newMoon i).day ≤ (newMoon k).day := by
  induction k, h using Nat.le_induction with
  | base => exact le_rfl
  | succ k _ ih =>
    have hsucc := newMoon_day_succ k
    omega

theorem newYear_bounds (j : ℕ) :
    (newMoon j).day ≤ newYear j ∧ newYear j ≤ (newMoon j).day + 2 := by
  have hdelay := delay_le (LeapYear j) (LeapYear (j + 18)) ((newMoon j).day % 7) (newMoon j).halakim
  rw [newYear_eq]
  omega

theorem tishri1_eq {c y : ℕ} (hy : y ≤ 18) :
    tishri1 y (newMoon (19 * c + y)) = newYear (19 * c + y) := by
  rw [newYear, show (19 * c + y) % 19 = y by omega]

theorem tishri1_next (j : ℕ) :
    tishri1 ((j % 19 + 1) % 19)
        ((newMoon j).add (HALAKIM_PER_LUNAR_CYCLE * monthsPerYear.getD (j % 19) 0)) =
      newYear (j + 1) := by
  rw [newYear, newMoon_succ, show (j + 1) % 19 = (j % 19 + 1) % 19 by omega]

theorem tishri1_succ_eq {c y : ℕ} (hy : y ≤ 18) :
    tishri1 ((y + 1) % 19)
        ((newMoon (19 * c + y)).add (HALAKIM_PER_LUNAR_CYCLE * monthsPerYear.getD y 0)) =
      newYear (19 * c + y + 1) := by
  have hnext := tishri1_next (19 * c + y)
  rw [show (19 * c + y) % 19 = y by omega] at hnext
  exact hnext

theorem found_year {x : ℤ} {c y : ℕ} (hx : 1 ≤ x)
    (hprev : y = 0 ∧ ((newMoon (19 * c + y)).day : ℤ) ≤ x + 311 ∨
      0 < y ∧ ((newMoon (19 * c + y - 1)).day : ℤ) ≤ x - 74)
    (hlt : x < newYear (19 * c + y)) :
    ∃ j, 19 * c + y = j + 1 ∧ (newYear j : ℤ) + 70 ≤ x := by
  have hbounds := newYear_bounds (19 * c + y)
  have hpos : 19 * c + y ≠ 0 := by
    intro hzero
    rw [hzero] at hlt
    have hfirst : newYear 0 = 1 := by decide
    omega
  obtain ⟨j, hj⟩ := Nat.exists_eq_succ_of_ne_zero hpos
  refine ⟨j, hj, ?_⟩
  have hbounds' := newYear_bounds j
  rcases hprev with ⟨rfl, hday⟩ | ⟨hypos, hday⟩
  · have hleap : LeapYear j := by
      rw [LeapYear, show j % 19 = 18 by omega]
      rfl
    have hsucc := (newMoon_succ_leap hleap).1
    rw [hj, Nat.succ_eq_add_one] at hday
    omega
  · rw [hj, Nat.succ_sub_one] at hday
    omega

theorem findTishriMolad_prev (j : ℕ) (hday : (newMoon (j + 1)).day ≤ 324195214) :
    ∃ c y, findTishriMolad ((newMoon (j + 1)).day - 365) = .ok (c, y, newMoon j) ∧ y ≤ 18 ∧
      19 * c + y = j := by
  have hfirst : 354 ≤ (newMoon (j + 1)).day := by
    have hsucc := newMoon_day_succ j
    omega
  obtain ⟨c, y, hfind, hy, hclose, hprev⟩ :=
    findTishriMolad_spec (x := (newMoon (j + 1)).day - 365) (by omega) (by omega)
  have hsucc := newMoon_day_succ j
  have hj : 19 * c + y = j := by
    rcases lt_trichotomy (19 * c + y) j with hlt | heq | hgt
    · -- two years before it is too early
      have hle := newMoon_mono (show 19 * c + y ≤ j - 1 by omega)
      have hsucc' := newMoon_day_succ (j - 1)
      rw [show j - 1 + 1 = j by omega] at hsucc'
      omega
    · exact heq
    · rcases hprev with ⟨-, hday'⟩ | ⟨hpos, hday'⟩
      · have hle := newMoon_mono (show j + 1 ≤ 19 * c + y by omega)
        omega
      · have hle := newMoon_mono (show j ≤ 19 * c + y - 1 by omega)
        omega
  rw [hj] at hfind
  exact ⟨c, y, hfind, hy, hj⟩

theorem sdnToJewish_spec {sdn : ℤ} (hlow : JEWISH_SDN_OFFSET < sdn) (hhigh : sdn ≤ JEWISH_SDN_MAX) :
    ∃ j date, sdnToJewish sdn = .ok date ∧ DateOf j (sdn - JEWISH_SDN_OFFSET) date := by
  have hx : 1 ≤ sdn - JEWISH_SDN_OFFSET := by omega
  have hx' : sdn - JEWISH_SDN_OFFSET ≤ 324194849 := by
    unfold JEWISH_SDN_MAX at hhigh
    unfold JEWISH_SDN_OFFSET
    omega
  rw [sdnToJewish, if_neg (by omega)]
  generalize sdn - JEWISH_SDN_OFFSET = x at *
  obtain ⟨c, y, hfind, hy, hclose, hprev⟩ := findTishriMolad_spec (x := x) (by omega) hx'
  have hbounds := newYear_bounds (19 * c + y)
  dsimp only
  rw [hfind, ok_bind]
  dsimp only
  rw [tishri1_eq hy]
  split
  · next hstart =>
    refine ⟨19 * c + y, ?_⟩
    have hcast : ((c * 19 + y + 1 : ℕ) : ℤ) = ((19 * c + y : ℕ) : ℤ) + 1 := by omega
    rw [hcast, tishri1_succ_eq hy]
    split
    · split
      · exact ⟨_, rfl, dateOf_tishri (by omega) (by omega) (by omega) rfl⟩
      · have hheshvan := heshvan_bounds (19 * c + y)
        exact ⟨_, rfl, dateOf_heshvan (by omega) (by omega) (by omega) rfl⟩
    · refine ⟨_, rfl, heshvanOrKislev_spec (by omega) ?_⟩
      rw [kislev_end]
      have hheshvan := heshvan_bounds (19 * c + y)
      have hkislev := kislev_bounds (19 * c + y)
      omega
  · next hend =>
    obtain ⟨j, hj, hfar⟩ := found_year hx hprev (not_le.mp hend)
    have hcast : ((c * 19 + y : ℕ) : ℤ) = (j : ℤ) + 1 := by omega
    have hday : (newMoon (j + 1)).day ≤ 324195214 := by
      have hsucc := newMoon_day_succ j
      have hyear := newYear_bounds j
      omega
    rw [hj] at hend ⊢
    rw [hcast]
    refine ⟨j, ?_⟩
    split
    · exact ⟨_, rfl, lastSixMonths_spec (by omega) (by omega)⟩
    · rcases adarToTevet_spec (j := j) (n := x) (by omega) with
        ⟨date, hdate, hspec⟩ | ⟨hnone, hearly⟩
      · rw [hdate]
        exact ⟨date, rfl, hspec⟩
      · obtain ⟨c', y', hfind', hy', hj'⟩ := findTishriMolad_prev j hday
        rw [hnone]
        dsimp only
        rw [hfind', ok_bind]
        dsimp only
        rw [← hj', tishri1_eq hy', hj']
        exact ⟨_, rfl, heshvanOrKislev_spec (by omega) hearly⟩

/-! ## From the date to the day -/

theorem newMoon_eq_add (j : ℕ) :
    newMoon j = (moladAt (235 * (j / 19))).add
      (HALAKIM_PER_LUNAR_CYCLE * yearOffset.getD (j % 19) 0) := by
  rw [moladAt_add]
  rfl

theorem findStartOfYear_eq {j : ℕ} (h : j ≤ 887565) :
    findStartOfYear (j + 1) = .ok (j % 19, newMoon j, newYear j) := by
  have hcycle : ((j + 1 - 1 : ℤ).tdiv 19).toNat = j / 19 := by
    rw [Int.tdiv_eq_ediv_of_nonneg (by omega)]
    omega
  have hyear : ((j + 1 - 1 : ℤ).tmod 19).toNat = j % 19 := by
    rw [Int.tmod_eq_emod_of_nonneg (by omega)]
    omega
  rw [findStartOfYear, hcycle, hyear, moladOfMetonicCycle_eq (by omega), ok_bind, ← newMoon_eq_add]
  rfl

theorem findStartOfYear_error {j : ℕ} (h : 887565 < j) :
    findStartOfYear (j + 1) = .error .overflow := by
  have hcycle : ((j + 1 - 1 : ℤ).tdiv 19).toNat = j / 19 := by
    rw [Int.tdiv_eq_ediv_of_nonneg (by omega)]
    omega
  rw [findStartOfYear, hcycle, moladOfMetonicCycle_error (by omega)]
  rfl

/-- The year whose beginning `JewishToSdn` computes. -/
def startYear (t : MonthDate) : ℕ := if t.month ≤ 3 then t.year else t.year + 1

theorem jewishMonthLength_le (j m : ℕ) : jewishMonthLength j m ≤ 30 := by
  unfold jewishMonthLength
  split <;> (try split) <;> omega

variable {t : MonthDate}

theorem leapYear_of_seven (h : jewishCalendar.Valid t) (hseven : t.month = 7) :
    LeapYear t.year := by
  by_contra hleap
  have hpos := h.day_pos
  have hle : t.day ≤ jewishMonthLength t.year t.month := h.day_le
  simp only [hseven, jewishMonthLength, if_neg hleap] at hle
  omega

theorem jewishToSdn_early (h : jewishCalendar.Valid t) (hm : t.month ≤ 3) (hj : t.year ≤ 887565) :
    jewishToSdn (t.year + 1) t.month t.day =
      .ok (jewishCalendar.number t + JEWISH_SDN_OFFSET) := by
  obtain ⟨j, m, d⟩ := t
  have hpos : 1 ≤ m := h.month_pos
  have hd : 1 ≤ d := h.day_pos
  have hle : d ≤ 30 := le_trans h.day_le (jewishMonthLength_le j m)
  dsimp only at hm hj ⊢
  rw [jewishToSdn, if_neg (by omega), findStartOfYear_eq hj, number_early]
  interval_cases m
  · simp
    omega
  · simp [jewishMonthLength]
    omega
  · have hafter := tishri1_next j
    have hdays : yearDays j = newYear (j + 1) - newYear j := rfl
    simp only [ok_bind, hafter, ← hdays]
    simp only [Finset.sum_range_succ, jewishMonthLength]
    refine congrArg Except.ok ?_
    simp
    split_ifs <;> omega

theorem jewishToSdn_late (h : jewishCalendar.Valid t) (hm : 4 ≤ t.month)
    (hj : t.year + 1 ≤ 887565) :
    jewishToSdn (t.year + 1) t.month t.day =
      .ok (jewishCalendar.number t + JEWISH_SDN_OFFSET) := by
  obtain ⟨j, m, d⟩ := t
  have hle : m ≤ 13 := h.month_le
  have hd : 1 ≤ d := h.day_pos
  have hd' : d ≤ 30 := le_trans h.day_le (jewishMonthLength_le j m)
  dsimp only at hm hj ⊢
  have hindex : ((j : ℤ) + 1 - 1).toNat % 19 = j % 19 := by omega
  have hnext : intValue ((j : ℤ) + 1 + 1) = .ok ((j + 1 : ℕ) + 1) :=
    intValue_eq (by omega) (by rw [INT_MAX]; omega)
  rw [jewishToSdn, if_neg (by omega), number_late j hm hle, hindex, monthsPerYear_eq]
  simp only [hnext, ok_bind, findStartOfYear_eq hj]
  by_cases hleap : LeapYear j
  · interval_cases m <;> simp [daysToEnd, hleap] <;> refine congrArg Except.ok ?_ <;> omega
  · have hseven : m ≠ 7 := fun hseven => hleap (leapYear_of_seven h hseven)
    interval_cases m <;> simp [daysToEnd, hleap] at hseven ⊢ <;>
      refine congrArg Except.ok ?_ <;> omega

theorem jewishToSdn_eq (h : jewishCalendar.Valid t) (hj : startYear t ≤ 887565) :
    jewishToSdn (t.year + 1) t.month t.day =
      .ok (jewishCalendar.number t + JEWISH_SDN_OFFSET) := by
  unfold startYear at hj
  split at hj
  · next hm => exact jewishToSdn_early h hm hj
  · next hm => exact jewishToSdn_late h (by omega) hj

theorem jewishToSdn_error (h : jewishCalendar.Valid t) (hj : 887565 < startYear t)
    (hmax : t.year ≤ 887605) : jewishToSdn (t.year + 1) t.month t.day = .error .overflow := by
  obtain ⟨j, m, d⟩ := t
  have hpos : 1 ≤ m := h.month_pos
  have hle : m ≤ 13 := h.month_le
  have hd : 1 ≤ d := h.day_pos
  have hd' : d ≤ 30 := le_trans h.day_le (jewishMonthLength_le j m)
  have hyear : j ≤ 887605 := hmax
  have hnext : intValue ((j : ℤ) + 1 + 1) = .ok ((j + 1 : ℕ) + 1) :=
    intValue_eq (by omega) (by rw [INT_MAX]; omega)
  unfold startYear at hj
  dsimp only at hj ⊢
  rw [jewishToSdn, if_neg (by omega)]
  split at hj
  · have hstart : ((m : ℤ) = 1 ∨ (m : ℤ) = 2) ∨ (m : ℤ) = 3 := by omega
    simp only [findStartOfYear_error hj]
    rcases hstart with hstart | hstart
    · rw [if_pos hstart]
      rfl
    · rw [if_neg (by omega), if_pos hstart]
      rfl
  · simp only [hnext, ok_bind, findStartOfYear_error hj]
    rw [if_neg (by omega), if_neg (by omega)]
    split <;> rfl

theorem jewishToSdn_iff (h : jewishCalendar.Valid t) (hmax : t.year ≤ 887605) :
    jewishToSdn (t.year + 1) t.month t.day = .ok (jewishCalendar.number t + JEWISH_SDN_OFFSET) ↔
      startYear t ≤ 887565 := by
  constructor
  · intro heq
    by_contra hlt
    rw [jewishToSdn_error h (by omega) hmax] at heq
    cases heq
  · exact jewishToSdn_eq h

theorem number_tevet :
    jewishCalendar.number ⟨887565, 4, 1⟩ = 324180367 := by
  rw [number_late _ (by decide) (by decide), show newYear (887565 + 1) = 324180662 by decide]
  simp [daysToEnd, show LeapYear 887565 by decide]

theorem tevet_valid : jewishCalendar.Valid ⟨887565, 4, 1⟩ :=
  ⟨show 1 ≤ 4 by decide, show 4 ≤ 13 by decide, le_rfl, show (1 : ℤ) ≤ 29 by decide⟩

theorem startYear_le_iff (h : jewishCalendar.Valid t) :
    startYear t ≤ 887565 ↔ jewishCalendar.number t < 324180367 := by
  rw [← number_tevet]
  unfold startYear
  constructor
  · intro hstart
    by_contra hle
    have hyear : 887565 ≤ t.year := tevet_valid.year_le h (by omega)
    split at hstart
    · next hm =>
      have hmonth : 4 ≤ t.month :=
        tevet_valid.month_le' h (show 887565 = t.year by omega) (by omega)
      omega
    · omega
  · intro hlt
    have hyear : t.year ≤ 887565 := h.year_le tevet_valid hlt.le
    split
    · exact hyear
    · next hm =>
      by_contra hstart
      have heq : t.year = 887565 := by omega
      have hmonth : t.month ≤ 4 := h.month_le' tevet_valid heq hlt.le
      have hday := h.day_pos
      obtain ⟨j, m, d⟩ := t
      dsimp only at *
      rw [heq, show m = 4 by omega, number_early, number_early] at hlt
      omega

/-! ## The two directions -/

variable {sdn : ℤ}

theorem sdnToJewish_date (hlow : JEWISH_SDN_OFFSET < sdn) (hhigh : sdn ≤ JEWISH_SDN_MAX) :
    ∃ t, sdnToJewish sdn = .ok (jewishDate t) ∧ jewishCalendar.Valid t ∧
      jewishCalendar.number t = sdn - JEWISH_SDN_OFFSET := by
  obtain ⟨-, -, hdate, t, hvalid, -, hnumber, rfl⟩ := sdnToJewish_spec hlow hhigh
  exact ⟨t, hdate, hvalid, hnumber⟩

theorem newYear_of_firstDay (hlow : JEWISH_SDN_OFFSET < sdn) (hhigh : sdn ≤ JEWISH_SDN_MAX)
    {year : ℤ} (h : sdnToJewish sdn = .ok ⟨year, 1, 1⟩) :
    ∃ j : ℕ, year = j + 1 ∧ sdn = newYear j + JEWISH_SDN_OFFSET := by
  obtain ⟨⟨j, m, d⟩, hdate, -, hnumber⟩ := sdnToJewish_date hlow hhigh
  have heq := Except.ok.inj (h.symm.trans hdate)
  rw [jewishDate, CalendarDate.mk.injEq] at heq
  obtain ⟨hyear, hmonth, hday⟩ := heq
  dsimp only at hyear hmonth hday
  obtain rfl : m = 1 := by omega
  rw [number_early, ← hday] at hnumber
  simp at hnumber
  exact ⟨j, hyear, by omega⟩

theorem sdnToJewish_early (h : sdn ≤ JEWISH_SDN_OFFSET) : sdnToJewish sdn = .ok noDate := by
  rw [sdnToJewish, if_pos (Or.inl h)]

theorem year_le (h : jewishCalendar.Valid t) (hmax : jewishCalendar.number t ≤ 324194849) :
    t.year ≤ 887605 := by
  have hfirst : jewishCalendar.number ⟨887605, 1, 1⟩ = 324194896 := by
    rw [number_early, show newYear 887605 = 324194896 by decide]
    rfl
  have hvalid : jewishCalendar.Valid ⟨887605, 1, 1⟩ :=
    ⟨le_rfl, show 1 ≤ 13 by decide, le_rfl, show (1 : ℤ) ≤ 30 by decide⟩
  exact h.year_le hvalid (by omega)

/-- What is promised of a day: its date exists, the date leads back to the day and is the one
before the next day's, years have one of the six lengths, and no year begins on a Sunday, a
Wednesday or a Friday. -/
structure JewishRight (sdn : ℤ) : Prop where
  date : ∃ date, sdnToJewish sdn = .ok date ∧ 0 < date.year ∧ 1 ≤ date.month ∧ date.month ≤ 13 ∧
    (date.month = 7 → LeapYear (date.year - 1).toNat) ∧ 1 ≤ date.day ∧ date.day ≤ 30 ∧
    jewishToSdn date.year date.month date.day = .ok sdn
  next : sdn + 1 ≤ JEWISH_SDN_MAX → ∃ t t', sdnToJewish sdn = .ok (jewishDate t) ∧
    sdnToJewish (sdn + 1) = .ok (jewishDate t') ∧ jewishCalendar.Next t t'
  yearLength : ∀ year after, after ≤ JEWISH_SDN_MAX → sdnToJewish sdn = .ok ⟨year, 1, 1⟩ →
    sdnToJewish after = .ok ⟨year + 1, 1, 1⟩ →
      after - sdn = 353 ∨ after - sdn = 354 ∨ after - sdn = 355 ∨
        after - sdn = 383 ∨ after - sdn = 384 ∨ after - sdn = 385
  weekday : ∀ year, sdnToJewish sdn = .ok ⟨year, 1, 1⟩ →
    (sdn + 1) % 7 ≠ SUNDAY ∧ (sdn + 1) % 7 ≠ WEDNESDAY ∧ (sdn + 1) % 7 ≠ FRIDAY

theorem sdnToJewish_next (hlow : JEWISH_SDN_OFFSET < sdn) (hhigh : sdn + 1 ≤ JEWISH_SDN_MAX) :
    ∃ t t', sdnToJewish sdn = .ok (jewishDate t) ∧ sdnToJewish (sdn + 1) = .ok (jewishDate t') ∧
      jewishCalendar.Next t t' := by
  obtain ⟨t, hdate, hvalid, hnumber⟩ := sdnToJewish_date hlow (by omega)
  have hlow' : JEWISH_SDN_OFFSET < sdn + 1 := by omega
  obtain ⟨t', hdate', hvalid', hnumber'⟩ := sdnToJewish_date hlow' hhigh
  exact ⟨t, t', hdate, hdate', MonthCalendar.next_of_number hvalid hvalid' (by omega)⟩

theorem sdnToJewish_yearLength (hlow : JEWISH_SDN_OFFSET < sdn) (hhigh : sdn ≤ JEWISH_SDN_MAX)
    {year after : ℤ} (hafter : after ≤ JEWISH_SDN_MAX) (hfirst : sdnToJewish sdn = .ok ⟨year, 1, 1⟩)
    (hnext : sdnToJewish after = .ok ⟨year + 1, 1, 1⟩) :
    after - sdn = 353 ∨ after - sdn = 354 ∨ after - sdn = 355 ∨
      after - sdn = 383 ∨ after - sdn = 384 ∨ after - sdn = 385 := by
  have hlow' : JEWISH_SDN_OFFSET < after := by
    by_contra hle
    rw [sdnToJewish_early (by omega)] at hnext
    have heq := congrArg CalendarDate.month (Except.ok.inj hnext)
    simp [noDate] at heq
  obtain ⟨j, hyear, hstart⟩ := newYear_of_firstDay hlow hhigh hfirst
  obtain ⟨j', hyear', hstart'⟩ := newYear_of_firstDay hlow' hafter hnext
  obtain rfl : j' = j + 1 := by omega
  have hbounds := yearDays_bounds j
  unfold yearDays at hbounds
  split at hbounds <;> omega

theorem sdnToJewish_weekday (hlow : JEWISH_SDN_OFFSET < sdn) (hhigh : sdn ≤ JEWISH_SDN_MAX)
    {year : ℤ} (hfirst : sdnToJewish sdn = .ok ⟨year, 1, 1⟩) :
    (sdn + 1) % 7 ≠ SUNDAY ∧ (sdn + 1) % 7 ≠ WEDNESDAY ∧ (sdn + 1) % 7 ≠ FRIDAY := by
  obtain ⟨j, -, hstart⟩ := newYear_of_firstDay hlow hhigh hfirst
  have hweekday := newYear_weekday j
  unfold JEWISH_SDN_OFFSET at hstart
  unfold SUNDAY WEDNESDAY FRIDAY at *
  omega

theorem jewishRoundTrip_iff (hlow : JEWISH_SDN_OFFSET < sdn) (hhigh : sdn ≤ JEWISH_SDN_MAX) :
    (∃ date, sdnToJewish sdn = .ok date ∧
      jewishToSdn date.year date.month date.day = .ok sdn) ↔ sdn ≤ 324528363 := by
  obtain ⟨t, hdate, hvalid, hnumber⟩ := sdnToJewish_date hlow hhigh
  have hmax : jewishCalendar.number t ≤ 324194849 := by
    unfold JEWISH_SDN_OFFSET JEWISH_SDN_MAX at *
    omega
  have hiff := (jewishToSdn_iff hvalid (year_le hvalid hmax)).trans (startYear_le_iff hvalid)
  have hback : jewishCalendar.number t + JEWISH_SDN_OFFSET = sdn := by omega
  rw [hback, hnumber] at hiff
  have hbound : sdn - JEWISH_SDN_OFFSET < 324180367 ↔ sdn ≤ 324528363 := by
    unfold JEWISH_SDN_OFFSET
    omega
  rw [← hbound, ← hiff, hdate]
  constructor
  · rintro ⟨date, heq, hsdn⟩
    obtain rfl := Except.ok.inj heq
    exact hsdn
  · intro hsdn
    exact ⟨_, rfl, hsdn⟩

/-- The conversion does what it promises for exactly the days whose date does not make `JewishToSdn`
compute the beginning of a year after 887566. -/
theorem jewishRight_iff (hlow : JEWISH_SDN_OFFSET < sdn) (hhigh : sdn ≤ JEWISH_SDN_MAX) :
    JewishRight sdn ↔ sdn ≤ 324528363 := by
  rw [← jewishRoundTrip_iff hlow hhigh]
  constructor
  · intro h
    obtain ⟨date, hdate, -, -, -, -, -, -, hback⟩ := h.date
    exact ⟨date, hdate, hback⟩
  · rintro ⟨date, hdate, hback⟩
    obtain ⟨t, hdate', hvalid, -⟩ := sdnToJewish_date hlow hhigh
    obtain rfl := Except.ok.inj (hdate.symm.trans hdate')
    refine ⟨⟨_, hdate, ?_, ?_, ?_, ?_, hvalid.day_pos, ?_, hback⟩, sdnToJewish_next hlow,
      fun _ _ => sdnToJewish_yearLength hlow hhigh, fun _ => sdnToJewish_weekday hlow hhigh⟩
    · exact Int.succ_ofNat_pos t.year
    · exact Int.ofNat_le.mpr hvalid.month_pos
    · exact Int.ofNat_le.mpr hvalid.month_le
    · intro hseven
      rw [show ((jewishDate t).year - 1).toNat = t.year by unfold jewishDate; dsimp only; omega]
      exact leapYear_of_seven hvalid (Int.ofNat_inj.mp hseven)
    · exact le_trans hvalid.day_le (jewishMonthLength_le _ _)

/-- The first day of the calendar. -/
theorem jewishRight_creation : JewishRight 347998 :=
  (jewishRight_iff (by decide) (by decide)).mpr (by decide)

/-- The first of Tevet 887566 does not lead back to its day. -/
theorem not_jewishRight :
    ¬ ∀ sdn, JEWISH_SDN_OFFSET < sdn → sdn ≤ JEWISH_SDN_MAX → JewishRight sdn := by
  intro h
  obtain ⟨date, hdate, -, -, -, -, -, -, hback⟩ := (h 324528364 (by decide) (by decide)).date
  have hle := (jewishRoundTrip_iff (by decide) (by decide)).mp ⟨date, hdate, hback⟩
  omega

end PhpRuntime.Date
