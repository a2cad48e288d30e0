import PhpRuntime.Lib.Calendar

/-!
# Weekdays and weeks

The weekday of a day number, the week of the year that holds a week's Thursday, and the walk that
counts only the days from Monday to Friday. The walk in whole weeks and a remainder is in closed
form; backwards it is the walk forwards in the mirror.
-/

set_option autoImplicit false

namespace PhpRuntime.Lib.Calendar

/-- The days since Sunday, 4 January 1970, modulo 7. -/
def weekday (n : ℤ) : ℤ := (n - 3) % 7

def isoWeekday (n : ℤ) : ℤ := if weekday n = 0 then 7 else weekday n

/-- The Thursday of the week, which begins on Monday. -/
def thursdayOf (n : ℤ) : ℤ := n + 4 - isoWeekday n

/-- The day `n` lies in the week `w` of the year `y`: the year that holds the Thursday. -/
structure IsoWeek (n y w : ℤ) : Prop where
  year_le : daysBeforeYear y ≤ thursdayOf n
  lt_next : thursdayOf n < daysBeforeYear (y + 1)
  week : w = (thursdayOf n - daysBeforeYear y) / 7 + 1

theorem weekday_bounds (n : ℤ) : 0 ≤ weekday n ∧ weekday n < 7 := by
  unfold weekday
  omega

theorem isoWeekday_spec (n : ℤ) :
    1 ≤ isoWeekday n ∧ isoWeekday n ≤ 7 ∧ (n - 3 - isoWeekday n) % 7 = 0 := by
  unfold isoWeekday weekday
  split <;> omega

theorem IsoWeek.year_eq {n y w y' w' : ℤ} (h : IsoWeek n y w) (h' : IsoWeek n y' w') : y = y' :=
  year_unique h.year_le h.lt_next h'.year_le h'.lt_next

theorem isoWeek_before {n y : ℤ} (hfirst : daysBeforeYear y ≤ n)
    (hj : 5 ≤ isoWeekday (daysBeforeYear y))
    (hn : n - daysBeforeYear y + isoWeekday (daysBeforeYear y) ≤ 7) :
    IsoWeek n (y - 1) (if isoWeekday (daysBeforeYear y) = 5 ∨
      (isoWeekday (daysBeforeYear y) = 6 ∧ leapDay (y - 1) = 1) then 53 else 52) := by
  have hprev := daysBeforeYear_succ (y - 1)
  rw [sub_add_cancel] at hprev
  have hleap := leapDay_eq_zero_or_one (y - 1)
  have hday := isoWeekday_spec n
  have hnewYear := isoWeekday_spec (daysBeforeYear y)
  unfold yearLength at hprev
  refine ⟨?_, ?_, ?_⟩
  · unfold thursdayOf
    omega
  · rw [sub_add_cancel]
    unfold thursdayOf
    omega
  · unfold thursdayOf
    split <;> omega

theorem isoWeek_after {n y : ℤ} (hlast : n < daysBeforeYear (y + 1))
    (hn : daysBeforeYear (y + 1) ≤ thursdayOf n) : IsoWeek n (y + 1) 1 := by
  have hnext := daysBeforeYear_succ (y + 1)
  have hlength := leapDay_eq_zero_or_one (y + 1)
  have hday := isoWeekday_spec n
  unfold yearLength at hnext
  refine ⟨hn, ?_, ?_⟩
  · unfold thursdayOf
    omega
  · unfold thursdayOf at *
    omega

theorem IsoWeek.year_near {n y y' w : ℤ} (h : IsoWeek n y' w) (hfirst : daysBeforeYear y ≤ n)
    (hlast : n < daysBeforeYear (y + 1)) : y - 1 ≤ y' ∧ y' ≤ y + 1 := by
  have hle := h.year_le
  have hlt := h.lt_next
  have hday := isoWeekday_spec n
  have hprev := daysBeforeYear_succ (y - 1)
  have hnext := daysBeforeYear_succ (y + 1)
  have hlength := leapDay_eq_zero_or_one (y - 1)
  have hlength' := leapDay_eq_zero_or_one (y + 1)
  rw [sub_add_cancel] at hprev
  unfold thursdayOf at hle hlt
  unfold yearLength at hprev hnext
  have hlow : y - 1 < y' + 1 := daysBeforeYear_lt_iff.mp (by omega)
  have hhigh : y' < y + 1 + 1 := daysBeforeYear_lt_iff.mp (by omega)
  omega

/-! ## Walks -/

def Workday (n : ℤ) : Prop := 1 ≤ weekday n ∧ weekday n ≤ 5

instance (n : ℤ) : Decidable (Workday n) := by unfold Workday; infer_instance

/-- Day by day in the direction `dir`, until `k` days from Monday to Friday have been counted. -/
inductive Walk (dir : ℤ) : ℕ → ℤ → ℤ → Prop
  | done (n : ℤ) : Walk dir 0 n n
  | count {k : ℕ} {n n' : ℤ} (hday : Workday (n + dir)) (hwalk : Walk dir k (n + dir) n') :
      Walk dir (k + 1) n n'
  | skip {k : ℕ} {n n' : ℤ} (hday : ¬ Workday (n + dir)) (hwalk : Walk dir (k + 1) (n + dir) n') :
      Walk dir (k + 1) n n'

variable {dir n n' n'' : ℤ} {k l : ℕ}

theorem Walk.unique (h : Walk dir k n n') : ∀ {n'' : ℤ}, Walk dir k n n'' → n' = n'' := by
  induction h with
  | done n =>
    intro n'' h'
    cases h'
    rfl
  | count hday _ ih =>
    intro n'' h'
    cases h' with
    | count _ hwalk => exact ih hwalk
    | skip hday' _ => exact absurd hday hday'
  | skip hday _ ih =>
    intro n'' h'
    cases h' with
    | count hday' _ => exact absurd hday' hday
    | skip _ hwalk => exact ih hwalk

theorem Walk.trans (h : Walk dir k n n') (h' : Walk dir l n' n'') : Walk dir (k + l) n n'' := by
  induction h with
  | done n =>
    rw [Nat.zero_add]
    exact h'
  | count hday _ ih =>
    rw [Nat.add_right_comm]
    exact .count hday (ih h')
  | skip hday _ ih =>
    rw [Nat.add_right_comm]
    refine .skip hday ?_
    rw [← Nat.add_right_comm]
    exact ih h'

theorem weekday_mirror (n : ℤ) : weekday (5 - n) = 6 - weekday n := by
  unfold weekday
  omega

theorem workday_mirror (n : ℤ) : Workday (5 - n) ↔ Workday n := by
  rw [Workday, weekday_mirror, Workday]
  omega

theorem Walk.mirror (h : Walk dir k n n') : Walk (-dir) k (5 - n) (5 - n') := by
  induction h with
  | done n => exact .done _
  | @count k n n' hday _ ih =>
    have hstep : 5 - n + -dir = 5 - (n + dir) := by omega
    rw [← workday_mirror, ← hstep] at hday
    rw [← hstep] at ih
    exact .count hday ih
  | @skip k n n' hday _ ih =>
    have hstep : 5 - n + -dir = 5 - (n + dir) := by omega
    rw [← workday_mirror, ← hstep] at hday
    rw [← hstep] at ih
    exact .skip hday ih

theorem walk_mirror_iff : Walk (-1) k n n' ↔ Walk 1 k (5 - n) (5 - n') := by
  constructor
  · intro h
    exact h.mirror
  · intro h
    have hback := h.mirror
    rw [sub_sub_cancel, sub_sub_cancel] at hback
    exact hback

theorem walk_one (h : weekday n ≤ 4) : Walk 1 1 n (n + 1) := by
  refine .count ?_ (.done _)
  unfold Workday weekday at *
  omega

theorem walk_friday (h : weekday n = 5) : Walk 1 1 n (n + 3) := by
  have hsaturday : ¬ Workday (n + 1) := by
    unfold Workday weekday at *
    omega
  have hsunday : ¬ Workday (n + 1 + 1) := by
    unfold Workday weekday at *
    omega
  have hmonday : Workday (n + 1 + 1 + 1) := by
    unfold Workday weekday at *
    omega
  have hthree : n + 3 = n + 1 + 1 + 1 := by omega
  rw [hthree]
  exact .skip hsaturday (.skip hsunday (.count hmonday (.done _)))

theorem walk_saturday (h : weekday n = 6) : Walk 1 1 n (n + 2) := by
  have hsunday : ¬ Workday (n + 1) := by
    unfold Workday weekday at *
    omega
  have hmonday : Workday (n + 1 + 1) := by
    unfold Workday weekday at *
    omega
  have htwo : n + 2 = n + 1 + 1 := by omega
  rw [htwo]
  exact .skip hsunday (.count hmonday (.done _))

/-- The day that is reached from a day between Monday and Friday: whole weeks, the remainder, and
the weekend if the remainder runs over it. -/
def afterWorkdays (n : ℤ) (k : ℕ) : ℤ :=
  n + 7 * (k / 5 : ℕ) + (k % 5 : ℕ) + if 5 < weekday n + (k % 5 : ℕ) then 2 else 0

theorem walk_afterWorkdays (h : Workday n) (k : ℕ) : Walk 1 k n (afterWorkdays n k) := by
  induction k with
  | zero =>
    have hstart : afterWorkdays n 0 = n := by
      unfold afterWorkdays Workday at *
      rw [if_neg (by omega)]
      omega
    rw [hstart]
    exact .done n
  | succ k ih =>
    have hday := weekday_bounds (afterWorkdays n k)
    rcases lt_or_ge (weekday (afterWorkdays n k)) 5 with hlow | hhigh
    · have hnext : afterWorkdays n (k + 1) = afterWorkdays n k + 1 := by
        unfold afterWorkdays Workday weekday at *
        split_ifs at * <;> omega
      rw [hnext]
      exact ih.trans (walk_one (by omega))
    · have hnext : afterWorkdays n (k + 1) = afterWorkdays n k + 3 := by
        unfold afterWorkdays Workday weekday at *
        split_ifs at * <;> omega
      have hfriday : weekday (afterWorkdays n k) = 5 := by
        unfold afterWorkdays Workday weekday at *
        split_ifs at * <;> omega
      rw [hnext]
      exact ih.trans (walk_friday hfriday)

/-- The weekend days that a walk meets beside those of its whole weeks; a walk of whole weeks from
a weekend day ends on the Friday before. -/
def weekendDays (t r : ℤ) : ℤ :=
  if t = 6 then if r = 0 then -1 else 1
  else if t = 0 then if r = 0 then -2 else 0
  else if 5 < t + r then 2 else 0

theorem walk_forward (n : ℤ) (hk : k ≠ 0) :
    Walk 1 k n (n + 7 * (k / 5 : ℕ) + (k % 5 : ℕ) + weekendDays (weekday n) (k % 5 : ℕ)) := by
  have hbounds := weekday_bounds n
  obtain ⟨j, rfl⟩ := Nat.exists_eq_succ_of_ne_zero hk
  by_cases hsaturday : weekday n = 6
  · have hmonday : Workday (n + 2) := by
      unfold Workday weekday at *
      omega
    have hend : afterWorkdays (n + 2) j =
        n + 7 * ((j + 1) / 5 : ℕ) + ((j + 1) % 5 : ℕ) +
          weekendDays (weekday n) ((j + 1) % 5 : ℕ) := by
      unfold afterWorkdays weekendDays weekday at *
      split_ifs <;> omega
    rw [Nat.succ_eq_add_one, ← hend, Nat.add_comm j 1]
    exact (walk_saturday hsaturday).trans (walk_afterWorkdays hmonday j)
  by_cases hsunday : weekday n = 0
  · have hmonday : Workday (n + 1) := by
      unfold Workday weekday at *
      omega
    have hend : afterWorkdays (n + 1) j =
        n + 7 * ((j + 1) / 5 : ℕ) + ((j + 1) % 5 : ℕ) +
          weekendDays (weekday n) ((j + 1) % 5 : ℕ) := by
      unfold afterWorkdays weekendDays weekday at *
      split_ifs <;> omega
    rw [Nat.succ_eq_add_one, ← hend, Nat.add_comm j 1]
    exact (walk_one (by omega)).trans (walk_afterWorkdays hmonday j)
  · have hend : afterWorkdays n (j + 1) =
        n + 7 * ((j + 1) / 5 : ℕ) + ((j + 1) % 5 : ℕ) +
          weekendDays (weekday n) ((j + 1) % 5 : ℕ) := by
      rw [afterWorkdays, weekendDays, if_neg hsaturday, if_neg hsunday]
    rw [Nat.succ_eq_add_one, ← hend]
    exact walk_afterWorkdays ⟨by omega, by omega⟩ _

theorem walk_forward_iff (hk : k ≠ 0) :
    Walk 1 k n n' ↔
      n' = n + 7 * (k / 5 : ℕ) + (k % 5 : ℕ) + weekendDays (weekday n) (k % 5 : ℕ) := by
  constructor
  · intro h
    exact h.unique (walk_forward n hk)
  · rintro rfl
    exact walk_forward n hk

end PhpRuntime.Lib.Calendar
