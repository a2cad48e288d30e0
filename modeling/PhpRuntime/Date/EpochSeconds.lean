import PhpRuntime.Date.Inverse

/-!
# The seconds of a date

`do_years`, `do_months`, `do_days` and `do_time` give the seconds of the proleptic Gregorian
calendar, except from March on in the negative years that `do_months` reads wrongly.
-/

set_option autoImplicit false

namespace PhpRuntime.Date

open PhpRuntime.Lib.Calendar

/-- The seconds from 1 January 1970 to a date and a time of day. -/
def civilSeconds (time : Time) : ℤ :=
  86400 * dayNumber time.y time.m.toNat time.d + (3600 * time.h + 60 * time.i + time.s)

/-- A negative year that is an ordinary year and, taken as an unsigned number, a leap year, or the
other way round: `2^64` is 16 more than a multiple of 400. -/
def MisreadYear (y : ℤ) : Prop :=
  y < 0 ∧ ((y % 100 = 0 ∧ y % 400 ≠ 0) ∨ ((y + 16) % 100 = 0 ∧ (y + 16) % 400 ≠ 0))

instance (y : ℤ) : Decidable (MisreadYear y) := by unfold MisreadYear; infer_instance

theorem misreadYear_iff {y : ℤ} (h : SllRange (y - 1970)) :
    leapDay (ull y) ≠ leapDay y ↔ MisreadYear y := by
  have hull : ull y = if y < 0 then y + 18446744073709551616 else y := by
    unfold ull SllRange at *
    split <;> omega
  unfold leapDay Leap MisreadYear
  rw [hull]
  split <;> omega

theorem civilSeconds_div {time : Time} (h : time.Civil) :
    dayNumber time.y time.m.toNat time.d = civilSeconds time / 86400 := by
  have hh := h.hour
  have hi := h.minute
  have hs := h.second
  unfold civilSeconds
  omega

/-- The seconds that are added up are those of the date and the time of day, exactly when the month
is before March or the year is not misread. -/
theorem epochSeconds_civil_iff (time : Time) (h : time.Civil)
    (hrange : SllRange (civilSeconds time)) :
    epochSeconds time = civilSeconds time ↔ ¬ (3 ≤ time.m ∧ MisreadYear time.y) := by
  have hyear := year_range hrange h.date (civilSeconds_div h)
  have hpos := h.month_pos
  have hm : time.m = (time.m.toNat : ℤ) := by omega
  have hmarch : 3 ≤ time.m.toNat ↔ 3 ≤ time.m := by omega
  rw [epochSeconds_eq_iff hrange, civilSeconds,
    epochSeconds_same_iff hyear hm h.date.month_pos h.date.month_le, misreadYear_iff hyear, hmarch]

def noonOfMarch (y : ℤ) : Time := { timelibTimeCtor with y := y, m := 3, d := 1, h := 12 }

theorem noonOfMarch_civil (y : ℤ) : (noonOfMarch y).Civil := by
  have hlength : (1 : ℤ) ≤ monthLength y 3 := by
    rw [monthLength, if_neg (by decide), if_neg (by decide)]
    decide
  have hdate : ValidDate y 3 1 := ⟨by decide, by decide, by decide, hlength⟩
  have hmonth : (1 : ℤ) ≤ 3 := by decide
  have hhour : (0 : ℤ) ≤ 12 ∧ (12 : ℤ) < 24 := by decide
  have hzero : (0 : ℤ) ≤ 0 ∧ (0 : ℤ) < 60 := by decide
  exact ⟨hmonth, hdate, hhour, hzero, hzero⟩

theorem epochSeconds_civil_march2000 :
    epochSeconds (noonOfMarch 2000) = civilSeconds (noonOfMarch 2000) ↔
      ¬ (3 ≤ (noonOfMarch 2000).m ∧ MisreadYear (noonOfMarch 2000).y) :=
  epochSeconds_civil_iff (noonOfMarch 2000) (noonOfMarch_civil 2000) (by decide)

/-- The year -100 is no leap year, but the unsigned number `2^64 - 100` is one. -/
theorem not_epochSeconds_civil :
    ¬ ∀ time : Time, time.Civil → SllRange (civilSeconds time) →
      epochSeconds time = civilSeconds time := by
  intro hall
  have heq := hall (noonOfMarch (-100)) (noonOfMarch_civil (-100)) (by decide)
  have hsame : Same (epochSeconds (noonOfMarch (-100)))
      (86400 * dayNumber (-100) 3 1 + (3600 * 12 + 60 * 0 + 0)) := Same.of_eq heq
  exact (@epochSeconds_same_iff (noonOfMarch (-100)) (by decide) 3 rfl (by decide) (by decide)).mp
    hsame ⟨le_refl 3, by decide⟩

end PhpRuntime.Date
