import PhpRuntime.Date.SerialDay

/-!
# The years of the Jewish calendar

The year begins on the day of a new moon, the molad, or up to two days later
(`ext/calendar/jewish.c`). The moladot are counted in halakim, 25920 of them in a day, and repeat
their place in the year after 19 years of 235 months. The four rules that delay the first day of
the year leave six lengths of a year.
-/

set_option autoImplicit false

namespace PhpRuntime.Date

open PhpRuntime.Lib
open PhpRuntime.Text (Undefined INT_MAX intValue intValue_eq intValue_error or_eq_add)

def HALAKIM_PER_HOUR : ℕ := 1080

def HALAKIM_PER_DAY : ℕ := 25920

def HALAKIM_PER_LUNAR_CYCLE : ℕ := 29 * HALAKIM_PER_DAY + 13753

def HALAKIM_PER_METONIC_CYCLE : ℕ := HALAKIM_PER_LUNAR_CYCLE * (12 * 19 + 7)

def JEWISH_SDN_OFFSET : ℤ := 347997

def JEWISH_SDN_MAX : ℤ := 324542846

def NEW_MOON_OF_CREATION : ℕ := 31524

def SUNDAY : ℕ := 0

def MONDAY : ℕ := 1

def TUESDAY : ℕ := 2

def WEDNESDAY : ℕ := 3

def FRIDAY : ℕ := 5

def NOON : ℕ := 18 * HALAKIM_PER_HOUR

def AM3_11_20 : ℕ := 9 * HALAKIM_PER_HOUR + 204

def AM9_32_43 : ℕ := 15 * HALAKIM_PER_HOUR + 589

def monthsPerYear : List ℕ :=
  [12, 12, 13, 12, 12, 13, 12, 13, 12, 12, 13, 12, 12, 13, 12, 12, 13, 12, 13]

def yearOffset : List ℕ :=
  [0, 12, 24, 37, 49, 61, 74, 86, 99, 111, 123, 136, 148, 160, 173, 185, 197, 210, 222]

/-- The day and the time of a new moon; the numbers of the source are never negative. -/
structure Molad where
  day : ℕ
  halakim : ℕ
  deriving DecidableEq, Repr

/-- `moladHalakim += n; moladDay += moladHalakim / HALAKIM_PER_DAY;
moladHalakim = moladHalakim % HALAKIM_PER_DAY` -/
def Molad.add (m : Molad) (n : ℕ) : Molad :=
  ⟨m.day + (m.halakim + n) / HALAKIM_PER_DAY, (m.halakim + n) % HALAKIM_PER_DAY⟩

/-- `Tishri1` -/
def tishri1 (metonicYear : ℕ) (molad : Molad) : ℕ :=
  let dow := molad.day % 7
  let leapYear := metonicYear = 2 ∨ metonicYear = 5 ∨ metonicYear = 7 ∨ metonicYear = 10 ∨
    metonicYear = 13 ∨ metonicYear = 16 ∨ metonicYear = 18
  let lastWasLeapYear := metonicYear = 3 ∨ metonicYear = 6 ∨ metonicYear = 8 ∨ metonicYear = 11 ∨
    metonicYear = 14 ∨ metonicYear = 17 ∨ metonicYear = 0
  -- rules 2, 3 and 4
  let delayed := NOON ≤ molad.halakim ∨
    (¬ leapYear ∧ dow = TUESDAY ∧ AM3_11_20 ≤ molad.halakim) ∨
    (lastWasLeapYear ∧ dow = MONDAY ∧ AM9_32_43 ≤ molad.halakim)
  let tishri1 := if delayed then molad.day + 1 else molad.day
  let dow := if delayed then if dow + 1 = 7 then 0 else dow + 1 else dow
  -- rule 1
  if dow = WEDNESDAY ∨ dow = FRIDAY ∨ dow = SUNDAY then tishri1 + 1 else tishri1

/-- `MoladOfMetonicCycle`. The two products are computed in `int`. -/
def moladOfMetonicCycle (metonicCycle : ℕ) : Except Undefined Molad := do
  let low ← intValue (metonicCycle * (HALAKIM_PER_METONIC_CYCLE &&& 0xFFFF : ℕ))
  let r1 := NEW_MOON_OF_CREATION + low.toNat
  let high ← intValue (metonicCycle * (HALAKIM_PER_METONIC_CYCLE >>> 16 &&& 0xFFFF : ℕ))
  let r2 := r1 >>> 16 + high.toNat
  let d2 := r2 / HALAKIM_PER_DAY
  let r2 := r2 - d2 * HALAKIM_PER_DAY
  let r1 := r2 <<< 16 ||| r1 &&& 0xFFFF
  let d1 := r1 / HALAKIM_PER_DAY
  return ⟨d2 <<< 16 ||| d1, r1 - d1 * HALAKIM_PER_DAY⟩

/-! ## The new moons -/

/-- The new moon after `n` months. -/
def moladAt (n : ℕ) : Molad :=
  ⟨(NEW_MOON_OF_CREATION + HALAKIM_PER_LUNAR_CYCLE * n) / HALAKIM_PER_DAY,
    (NEW_MOON_OF_CREATION + HALAKIM_PER_LUNAR_CYCLE * n) % HALAKIM_PER_DAY⟩

theorem moladAt_add (n k : ℕ) :
    (moladAt n).add (HALAKIM_PER_LUNAR_CYCLE * k) = moladAt (n + k) := by
  unfold moladAt Molad.add HALAKIM_PER_LUNAR_CYCLE HALAKIM_PER_DAY
  rw [Molad.mk.injEq]
  dsimp only
  omega

theorem moladOfMetonicCycle_eq {c : ℕ} (h : c ≤ 46713) :
    moladOfMetonicCycle c = .ok (moladAt (235 * c)) := by
  have hlow : (HALAKIM_PER_METONIC_CYCLE &&& 0xFFFF : ℕ) = 45971 := by decide
  have hhigh : (HALAKIM_PER_METONIC_CYCLE >>> 16 &&& 0xFFFF : ℕ) = 2744 := by decide
  have hlow' : intValue ((c : ℤ) * (45971 : ℕ)) = .ok ((c : ℤ) * (45971 : ℕ)) :=
    intValue_eq (by omega) (by rw [INT_MAX]; omega)
  have hhigh' : intValue ((c : ℤ) * (2744 : ℕ)) = .ok ((c : ℤ) * (2744 : ℕ)) :=
    intValue_eq (by omega) (by rw [INT_MAX]; omega)
  have hmask : ∀ r : ℕ, r &&& 0xFFFF = r % 65536 := fun r => Nat.and_two_pow_sub_one_eq_mod r 16
  have hshift : ∀ r : ℕ, r >>> 16 = r / 65536 := fun r => Nat.shiftRight_eq_div_pow r 16
  have hjoin : ∀ a b : ℕ, b < 65536 → a <<< 16 ||| b = a * 65536 + b := by
    intro a b hb
    rw [Nat.shiftLeft_eq]
    exact or_eq_add (k := 16) hb
  have hmod : ∀ r : ℕ, r % 65536 < 65536 := fun r => Nat.mod_lt r (by decide)
  rw [moladOfMetonicCycle, hlow, hhigh, hlow', ok_bind, hhigh', ok_bind]
  unfold NEW_MOON_OF_CREATION HALAKIM_PER_DAY
  simp only [hmask, hshift, hjoin _ _ (hmod _)]
  rw [hjoin _ _ (by omega)]
  unfold moladAt HALAKIM_PER_LUNAR_CYCLE NEW_MOON_OF_CREATION HALAKIM_PER_DAY
  refine congrArg Except.ok ?_
  rw [Molad.mk.injEq]
  omega

theorem moladOfMetonicCycle_error {c : ℕ} (h : 46713 < c) :
    moladOfMetonicCycle c = .error .overflow := by
  have hlow : (HALAKIM_PER_METONIC_CYCLE &&& 0xFFFF : ℕ) = 45971 := by decide
  rw [moladOfMetonicCycle, hlow, intValue_error]
  · rfl
  · rw [INT_MAX]
    omega

/-- The months before a year, the years counted from 0. -/
def monthsBefore (j : ℕ) : ℕ := 235 * (j / 19) + yearOffset.getD (j % 19) 0

def newMoon (j : ℕ) : Molad := moladAt (monthsBefore j)

/-- The first day of a year, counted from the day before the first new moon. -/
def newYear (j : ℕ) : ℕ := tishri1 (j % 19) (newMoon j)

def LeapYear (j : ℕ) : Prop := monthsPerYear.getD (j % 19) 0 = 13

instance (j : ℕ) : Decidable (LeapYear j) := by unfold LeapYear; infer_instance

theorem year_split (j : ℕ) : ∃ c y, y < 19 ∧ j = 19 * c + y ∧ j / 19 = c ∧ j % 19 = y :=
  ⟨j / 19, j % 19, by omega, by omega, rfl, rfl⟩

theorem monthsPerYear_eq (j : ℕ) :
    monthsPerYear.getD (j % 19) 0 = if LeapYear j then 13 else 12 := by
  obtain ⟨c, y, hy, -, -, hmod⟩ := year_split j
  simp only [LeapYear, hmod]
  interval_cases y <;> rfl

theorem monthsBefore_succ (j : ℕ) :
    monthsBefore (j + 1) = monthsBefore j + monthsPerYear.getD (j % 19) 0 := by
  obtain ⟨c, y, hy, rfl, hdiv, hmod⟩ := year_split j
  rw [monthsBefore, monthsBefore, hdiv, hmod]
  rcases Nat.lt_or_ge y 18 with h | h
  · rw [show (19 * c + y + 1) / 19 = c by omega, show (19 * c + y + 1) % 19 = y + 1 by omega]
    interval_cases y <;> simp [yearOffset, monthsPerYear]
  · obtain rfl : y = 18 := by omega
    rw [show (19 * c + 18 + 1) / 19 = c + 1 by omega, show (19 * c + 18 + 1) % 19 = 0 by omega]
    simp [yearOffset, monthsPerYear]
    omega

theorem not_leapYear_succ {j : ℕ} (h : LeapYear j) : ¬ LeapYear (j + 1) := by
  obtain ⟨c, y, hy, rfl, -, hmod⟩ := year_split j
  rw [LeapYear, hmod] at h
  rcases Nat.lt_or_ge y 18 with hlt | hge
  · rw [LeapYear, show (19 * c + y + 1) % 19 = y + 1 by omega]
    interval_cases y <;> first | exact absurd h (by decide) | decide
  · obtain rfl : y = 18 := by omega
    rw [LeapYear, show (19 * c + 18 + 1) % 19 = 0 by omega]
    decide

/-! ## The four rules -/

/-- The days by which the rules delay the first day of a year. -/
def delay (leap lastLeap : Prop) [Decidable leap] [Decidable lastLeap] (dow halakim : ℕ) : ℕ :=
  let delayed := 19440 ≤ halakim ∨ (¬ leap ∧ dow = 2 ∧ 9924 ≤ halakim) ∨
    (lastLeap ∧ dow = 1 ∧ 16789 ≤ halakim)
  if delayed then if dow = 2 ∨ dow = 4 ∨ dow = 6 then 2 else 1
  else if dow = 3 ∨ dow = 5 ∨ dow = 0 then 1 else 0

theorem newYear_eq (j : ℕ) :
    newYear j = (newMoon j).day +
      delay (LeapYear j) (LeapYear (j + 18)) ((newMoon j).day % 7) (newMoon j).halakim := by
  obtain ⟨c, y, hy, -, -, hmod⟩ := year_split j
  have hleap : LeapYear j ↔ y = 2 ∨ y = 5 ∨ y = 7 ∨ y = 10 ∨ y = 13 ∨ y = 16 ∨ y = 18 := by
    rw [LeapYear, hmod]
    interval_cases y <;> decide
  have hlast : LeapYear (j + 18) ↔
      y = 3 ∨ y = 6 ∨ y = 8 ∨ y = 11 ∨ y = 14 ∨ y = 17 ∨ y = 0 := by
    rw [LeapYear, show (j + 18) % 19 = (y + 18) % 19 by omega]
    interval_cases y <;> decide
  have hdow := Nat.mod_lt (newMoon j).day (show 0 < 7 by decide)
  rw [newYear, hmod, tishri1, delay]
  simp only [← hleap, ← hlast]
  unfold NOON AM3_11_20 AM9_32_43 HALAKIM_PER_HOUR SUNDAY MONDAY TUESDAY WEDNESDAY FRIDAY
  by_cases hdelayed : 19440 ≤ (newMoon j).halakim ∨
      (¬ LeapYear j ∧ (newMoon j).day % 7 = 2 ∧ 9924 ≤ (newMoon j).halakim) ∨
      (LeapYear (j + 18) ∧ (newMoon j).day % 7 = 1 ∧ 16789 ≤ (newMoon j).halakim)
  · have hnext : (if (newMoon j).day % 7 + 1 = 7 then 0 else (newMoon j).day % 7 + 1) =
        ((newMoon j).day + 1) % 7 := by
      split <;> omega
    simp only [hdelayed, Nat.reduceMul, Nat.reduceAdd, if_true, hnext]
    split_ifs <;> omega
  · simp only [hdelayed, Nat.reduceMul, Nat.reduceAdd, if_false]
    split_ifs <;> omega

theorem newYear_weekday (j : ℕ) :
    newYear j % 7 ≠ 0 ∧ newYear j % 7 ≠ 3 ∧ newYear j % 7 ≠ 5 := by
  rw [newYear_eq, delay]
  split_ifs <;> omega

theorem delay_le (leap lastLeap : Prop) [Decidable leap] [Decidable lastLeap] (dow halakim : ℕ) :
    delay leap lastLeap dow halakim ≤ 2 := by
  rw [delay]
  split_ifs <;> omega

/-- The delay as a function of the limits of the third and the fourth rule. -/
def delayOf (third fourth dow h : ℕ) : ℕ :=
  match dow with
  | 1 => if fourth ≤ h then 1 else 0
  | 2 => if third ≤ h then 2 else 0
  | 4 => if 19440 ≤ h then 2 else 0
  | 6 => if 19440 ≤ h then 2 else 0
  | _ => 1

def thirdLimit (leap : Prop) [Decidable leap] : ℕ := if leap then 19440 else 9924

def fourthLimit (lastLeap : Prop) [Decidable lastLeap] : ℕ := if lastLeap then 16789 else 19440

theorem delay_eq (leap lastLeap : Prop) [Decidable leap] [Decidable lastLeap] {dow : ℕ}
    (hdow : dow < 7) (h : ℕ) :
    delay leap lastLeap dow h = delayOf (thirdLimit leap) (fourthLimit lastLeap) dow h := by
  unfold delay thirdLimit fourthLimit
  by_cases hleap : leap <;> by_cases hlast : lastLeap <;> interval_cases dow <;>
    simp [delayOf, hleap, hlast] <;> split_ifs <;> omega

variable {third fourth dow h h' : ℕ}

theorem common_delay (hthird : third = 19440 ∨ third = 9924)
    (hfourth : fourth = 16789 ∨ fourth = 19440) (hdow : dow < 7) (hh : h' = h + 9516) :
    delayOf 9924 fourth dow h ≤ 1 + delayOf third 19440 ((dow + 4) % 7) h' ∧
      delayOf third 19440 ((dow + 4) % 7) h' ≤ delayOf 9924 fourth dow h + 1 := by
  interval_cases dow <;> simp only [delayOf, Nat.reduceAdd, Nat.reduceMod] <;>
    (try split_ifs) <;> omega

theorem common_delay_carry (hthird : third = 19440 ∨ third = 9924)
    (hfourth : fourth = 16789 ∨ fourth = 19440) (hdow : dow < 7) (hlt : h < 25920)
    (hh : h' + 25920 = h + 9516) :
    delayOf 9924 fourth dow h ≤ 2 + delayOf third 19440 ((dow + 5) % 7) h' ∧
      1 + delayOf third 19440 ((dow + 5) % 7) h' ≤ delayOf 9924 fourth dow h + 1 := by
  interval_cases dow <;> simp only [delayOf, Nat.reduceAdd, Nat.reduceMod] <;>
    (try split_ifs) <;> omega

theorem leap_delay (hthird : third = 19440 ∨ third = 9924) (hdow : dow < 7) (hlt' : h' < 25920)
    (hh : h' = h + 23269) :
    delayOf 19440 19440 dow h ≤ delayOf third 16789 ((dow + 5) % 7) h' ∧
      delayOf third 16789 ((dow + 5) % 7) h' ≤ delayOf 19440 19440 dow h + 2 := by
  interval_cases dow <;> simp only [delayOf, Nat.reduceAdd, Nat.reduceMod] <;>
    (try split_ifs) <;> omega

theorem leap_delay_carry (hthird : third = 19440 ∨ third = 9924) (hdow : dow < 7)
    (hlt : h < 25920) (hh : h' + 25920 = h + 23269) :
    delayOf 19440 19440 dow h ≤ 1 + delayOf third 16789 ((dow + 6) % 7) h' ∧
      1 + delayOf third 16789 ((dow + 6) % 7) h' ≤ delayOf 19440 19440 dow h + 2 := by
  interval_cases dow <;> simp only [delayOf, Nat.reduceAdd, Nat.reduceMod] <;>
    (try split_ifs) <;> omega

/-! ## The lengths of the years -/

theorem newMoon_halakim_lt (j : ℕ) : (newMoon j).halakim < 25920 :=
  Nat.mod_lt _ (by decide)

theorem newMoon_succ (j : ℕ) :
    newMoon (j + 1) =
      (newMoon j).add (HALAKIM_PER_LUNAR_CYCLE * monthsPerYear.getD (j % 19) 0) := by
  rw [newMoon, newMoon, monthsBefore_succ, moladAt_add]

theorem newMoon_succ_common {j : ℕ} (h : ¬ LeapYear j) :
    (newMoon (j + 1)).day = (newMoon j).day + 354 + ((newMoon j).halakim + 9516) / 25920 ∧
      (newMoon (j + 1)).halakim = ((newMoon j).halakim + 9516) % 25920 := by
  rw [newMoon_succ, monthsPerYear_eq, if_neg h]
  unfold Molad.add HALAKIM_PER_LUNAR_CYCLE HALAKIM_PER_DAY
  dsimp only
  omega

theorem newMoon_succ_leap {j : ℕ} (h : LeapYear j) :
    (newMoon (j + 1)).day = (newMoon j).day + 383 + ((newMoon j).halakim + 23269) / 25920 ∧
      (newMoon (j + 1)).halakim = ((newMoon j).halakim + 23269) % 25920 := by
  rw [newMoon_succ, monthsPerYear_eq, if_pos h]
  unfold Molad.add HALAKIM_PER_LUNAR_CYCLE HALAKIM_PER_DAY
  dsimp only
  omega

theorem next_molad {parts : ℕ} (hh : h < 25920) (hparts : parts < 25920) :
    ((h + parts) / 25920 = 0 ∧ (h + parts) % 25920 = h + parts) ∨
      ((h + parts) / 25920 = 1 ∧ (h + parts) % 25920 + 25920 = h + parts) := by
  omega

theorem thirdLimit_cases (leap : Prop) [Decidable leap] :
    thirdLimit leap = 19440 ∨ thirdLimit leap = 9924 := by
  unfold thirdLimit
  split
  · exact Or.inl rfl
  · exact Or.inr rfl

theorem fourthLimit_cases (lastLeap : Prop) [Decidable lastLeap] :
    fourthLimit lastLeap = 16789 ∨ fourthLimit lastLeap = 19440 := by
  unfold fourthLimit
  split
  · exact Or.inl rfl
  · exact Or.inr rfl

theorem newYear_eq_delayOf (j : ℕ) :
    newYear j = (newMoon j).day +
      delayOf (thirdLimit (LeapYear j)) (fourthLimit (LeapYear (j + 18))) ((newMoon j).day % 7)
        (newMoon j).halakim := by
  rw [newYear_eq, delay_eq _ _ (Nat.mod_lt _ (by decide))]

theorem newYear_succ_eq_delayOf (j : ℕ) :
    newYear (j + 1) = (newMoon (j + 1)).day +
      delayOf (thirdLimit (LeapYear (j + 1))) (fourthLimit (LeapYear j))
        ((newMoon (j + 1)).day % 7) (newMoon (j + 1)).halakim := by
  have hprev : LeapYear (j + 1 + 18) ↔ LeapYear j := by
    rw [LeapYear, LeapYear, show (j + 1 + 18) % 19 = j % 19 by omega]
  have hlimit : fourthLimit (LeapYear (j + 1 + 18)) = fourthLimit (LeapYear j) := by
    unfold fourthLimit
    simp only [hprev]
  rw [newYear_eq_delayOf, hlimit]

theorem newYear_succ_common {j : ℕ} (h : ¬ LeapYear j) :
    newYear j + 353 ≤ newYear (j + 1) ∧ newYear (j + 1) ≤ newYear j + 355 := by
  obtain ⟨hday, hhalakim⟩ := newMoon_succ_common h
  have hlt := newMoon_halakim_lt j
  have hdow := Nat.mod_lt (newMoon j).day (show 0 < 7 by decide)
  rw [newYear_succ_eq_delayOf, newYear_eq_delayOf,
    show thirdLimit (LeapYear j) = 9924 from if_neg h,
    show fourthLimit (LeapYear j) = 19440 from if_neg h]
  rcases next_molad hlt (show 9516 < 25920 by decide) with ⟨hcarry, hrem⟩ | ⟨hcarry, hrem⟩
  · have hbounds := common_delay (thirdLimit_cases (LeapYear (j + 1)))
      (fourthLimit_cases (LeapYear (j + 18))) hdow (hhalakim.trans hrem)
    have hnext : (newMoon (j + 1)).day % 7 = ((newMoon j).day % 7 + 4) % 7 := by omega
    rw [hnext]
    omega
  · rw [← hhalakim] at hrem
    have hbounds := common_delay_carry (thirdLimit_cases (LeapYear (j + 1)))
      (fourthLimit_cases (LeapYear (j + 18))) hdow hlt hrem
    have hnext : (newMoon (j + 1)).day % 7 = ((newMoon j).day % 7 + 5) % 7 := by omega
    rw [hnext]
    omega

theorem newYear_succ_leap {j : ℕ} (h : LeapYear j) :
    newYear j + 383 ≤ newYear (j + 1) ∧ newYear (j + 1) ≤ newYear j + 385 := by
  obtain ⟨hday, hhalakim⟩ := newMoon_succ_leap h
  have hlt := newMoon_halakim_lt j
  have hlt' := newMoon_halakim_lt (j + 1)
  have hdow := Nat.mod_lt (newMoon j).day (show 0 < 7 by decide)
  have hlast : ¬ LeapYear (j + 18) := by
    intro hlast
    have hnot := not_leapYear_succ hlast
    apply hnot
    rw [LeapYear, show (j + 18 + 1) % 19 = j % 19 by omega]
    exact h
  rw [newYear_succ_eq_delayOf, newYear_eq_delayOf,
    show thirdLimit (LeapYear j) = 19440 from if_pos h,
    show fourthLimit (LeapYear j) = 16789 from if_pos h,
    show fourthLimit (LeapYear (j + 18)) = 19440 from if_neg hlast]
  rcases next_molad hlt (show 23269 < 25920 by decide) with ⟨hcarry, hrem⟩ | ⟨hcarry, hrem⟩
  · have hbounds := leap_delay (thirdLimit_cases (LeapYear (j + 1))) hdow hlt' (hhalakim.trans hrem)
    have hnext : (newMoon (j + 1)).day % 7 = ((newMoon j).day % 7 + 5) % 7 := by omega
    rw [hnext]
    omega
  · rw [← hhalakim] at hrem
    have hbounds := leap_delay_carry (thirdLimit_cases (LeapYear (j + 1))) hdow hlt hrem
    have hnext : (newMoon (j + 1)).day % 7 = ((newMoon j).day % 7 + 6) % 7 := by omega
    rw [hnext]
    omega

end PhpRuntime.Date
