import PhpRuntime.Date.Weekday

/-!
# Weekdays that are added

`do_adjust_special_weekday` (`ext/date/lib/tm2unixtime.c`) adds a number of days from Monday to
Friday: whole weeks, the remainder, and two days for a weekend. It reads the weekday twice, on the
first day and after the whole weeks. Backwards it is the same in the mirror of the week.
-/

set_option autoImplicit false

namespace PhpRuntime.Date

open PhpRuntime.Lib.Calendar

/-- `do_adjust_special_weekday`: the new `time->d`, with `count` for `special.amount`. -/
def doAdjustSpecialWeekday (y m count d : ℤ) : ℤ :=
  let currentDow := timelibDayOfWeek y m d
  if count = 0 then
    -- skip over saturday and sunday
    let d := if currentDow = 6 then d + 2 else d
    if currentDow = 0 then d + 1 else d
  else if 0 < count then
    let d := if currentDow = 5 then d + 2 else d
    let d := if currentDow = 6 then d + 1 else d
    -- add increments of 5 weekdays as a week
    let d := d + count.tdiv 5 * 7
    let currentDow := timelibDayOfWeek y m d
    let d := d + count.tmod 5
    if 5 < count.tmod 5 + currentDow then d + 2 else d
  else
    let d := if currentDow = 1 then d - 2 else d
    let d := if currentDow = 0 then d - 1 else d
    let d := d + count.tdiv 5 * 7
    let currentDow := timelibDayOfWeek y m d
    let d := d + count.tmod 5
    if count.tmod 5 + currentDow < 1 then d - 2 else d

def skippedDays (dow : ℤ) : ℤ := if dow = 5 then 2 else if dow = 6 then 1 else 0

/-- The two readings `w` and `v` of the weekday lead over the weekends that a walk from the weekday
`t` with the remainder `r` meets. -/
def ReadingsFit (t w v r : ℤ) : Prop :=
  (1 ≤ t ∧ t ≤ 5 ∧ t + r ≤ 5 ∧ w ≠ 5 ∧ w ≠ 6 ∧ r + v ≤ 5) ∨
    (1 ≤ t ∧ t ≤ 5 ∧ 5 < t + r ∧ (w = 5 ∧ r + v ≤ 5 ∨ w ≠ 5 ∧ w ≠ 6 ∧ 5 < r + v)) ∨
    (t = 6 ∧ r ≠ 0 ∧ w = 6 ∧ r + v ≤ 5) ∨
    (t = 0 ∧ r ≠ 0 ∧ w ≠ 5 ∧ w ≠ 6 ∧ r + v ≤ 5)

instance (t w v r : ℤ) : Decidable (ReadingsFit t w v r) := by unfold ReadingsFit; infer_instance

theorem readingsFit_iff {t r : ℤ} (w v : ℤ) (ht : 0 ≤ t ∧ t < 7) (hr : 0 ≤ r ∧ r < 5) :
    (skippedDays w + if 5 < r + v then 2 else 0) = weekendDays t r ↔ ReadingsFit t w v r := by
  unfold skippedDays weekendDays ReadingsFit
  split_ifs <;> omega

def secondReading (y m count d : ℤ) : ℤ :=
  if 0 < count then
    timelibDayOfWeek y m (d + skippedDays (timelibDayOfWeek y m d) + count.tdiv 5 * 7)
  else timelibDayOfWeek y m (d - skippedDays (6 - timelibDayOfWeek y m d) + count.tdiv 5 * 7)

/-- The readings fit, in the direction of the walk. -/
def WeekdaysFit (y m count d : ℤ) : Prop :=
  if 0 < count then
    ReadingsFit (weekday (dayNumber y m.toNat d)) (timelibDayOfWeek y m d)
      (secondReading y m count d) (count.tmod 5)
  else
    ReadingsFit (6 - weekday (dayNumber y m.toNat d)) (6 - timelibDayOfWeek y m d)
      (6 - secondReading y m count d) (-count.tmod 5)

variable {y m count d : ℤ}

theorem doAdjustSpecialWeekday_of_pos (h : 0 < count) :
    doAdjustSpecialWeekday y m count d = d + 7 * (count / 5) + count % 5 +
      (skippedDays (timelibDayOfWeek y m d) +
        if 5 < count % 5 + secondReading y m count d then 2 else 0) := by
  have hmod : count.tmod 5 = count % 5 := by
    rw [Int.tmod_def, tdiv_of_nonneg h.le]
    omega
  have hskip : (if timelibDayOfWeek y m d = 6 then
      (if timelibDayOfWeek y m d = 5 then d + 2 else d) + 1
      else if timelibDayOfWeek y m d = 5 then d + 2 else d) =
        d + skippedDays (timelibDayOfWeek y m d) := by
    unfold skippedDays
    split_ifs <;> omega
  rw [doAdjustSpecialWeekday, secondReading, if_pos h, if_neg (by omega), if_pos h]
  dsimp only
  rw [hskip, hmod, tdiv_of_nonneg h.le]
  split <;> omega

theorem doAdjustSpecialWeekday_of_neg (h : count < 0) :
    doAdjustSpecialWeekday y m count d = d - 7 * (-count / 5) - -count % 5 -
      (skippedDays (6 - timelibDayOfWeek y m d) +
        if 5 < -count % 5 + (6 - secondReading y m count d) then 2 else 0) := by
  have hmod : count.tmod 5 = -(-count % 5) := by
    rw [Int.tmod_def, tdiv_of_neg _ _ h.le]
    omega
  have hskip : (if timelibDayOfWeek y m d = 0 then
      (if timelibDayOfWeek y m d = 1 then d - 2 else d) - 1
      else if timelibDayOfWeek y m d = 1 then d - 2 else d) =
        d - skippedDays (6 - timelibDayOfWeek y m d) := by
    unfold skippedDays
    split_ifs <;> omega
  rw [doAdjustSpecialWeekday, secondReading, if_neg h.ne, if_neg (not_lt.mpr h.le),
    if_neg (not_lt.mpr h.le)]
  dsimp only
  rw [hskip, hmod, tdiv_of_neg _ _ h.le]
  split <;> split <;> omega

end PhpRuntime.Date
