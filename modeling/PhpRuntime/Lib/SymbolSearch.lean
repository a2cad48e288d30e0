import Mathlib.Data.List.Basic
import Mathlib.Data.Nat.Notation

/-!
# The first and the last place of a symbol

Searches for a symbol in a range of a string, from the left and from the right, by what is in
front of the place and behind it.
-/

set_option autoImplicit false

namespace PhpRuntime.Lib

variable {α : Type} [DecidableEq α]

/-- The first place in `[i, j)` where the symbol stands. -/
def firstIn (s : List α) (c : α) (i j : ℕ) : Option ℕ :=
  (((s.take j).drop i).findIdx? (· = c)).map (i + ·)

/-- The last place in `[i, j)` where the symbol stands. -/
def lastIn (s : List α) (c : α) (i : ℕ) : ℕ → Option ℕ
  | 0 => none
  | j + 1 => if j < i then none else if s[j]? = some c then some j else lastIn s c i j

variable {s a b d : List α} {c : α} {i j p : ℕ}

theorem getElem?_range {q : ℕ} (h : i + q < j) : ((s.take j).drop i)[q]? = s[i + q]? := by
  rw [List.getElem?_drop, List.getElem?_take_of_lt h]

theorem length_range (hj : j ≤ s.length) : ((s.take j).drop i).length = j - i := by
  rw [List.length_drop, List.length_take, Nat.min_eq_left hj]

theorem firstIn_eq_some (hj : j ≤ s.length) (h : firstIn s c i j = some p) :
    i ≤ p ∧ p < j ∧ s[p]? = some c ∧ ∀ q, i ≤ q → q < p → s[q]? ≠ some c := by
  rw [firstIn, Option.map_eq_some_iff] at h
  obtain ⟨k, hk, rfl⟩ := h
  rw [List.findIdx?_eq_some_iff_getElem] at hk
  obtain ⟨hlt, hfound, hbefore⟩ := hk
  have hlt' := hlt
  rw [length_range hj] at hlt'
  refine ⟨by omega, by omega, ?_, fun q hq hqk heq => ?_⟩
  · rw [← getElem?_range (j := j) (by omega), List.getElem?_eq_getElem hlt,
      of_decide_eq_true hfound]
  · obtain ⟨r, rfl⟩ : ∃ r, q = i + r := ⟨q - i, by omega⟩
    have hr : r < k := by omega
    have hrlt : r < ((s.take j).drop i).length := by omega
    apply hbefore r hr
    rw [← getElem?_range (j := j) (by omega), List.getElem?_eq_getElem hrlt] at heq
    exact decide_eq_true (Option.some.inj heq)

theorem firstIn_eq_none (hj : j ≤ s.length) (h : firstIn s c i j = none) {q : ℕ} (hq : i ≤ q)
    (hqj : q < j) : s[q]? ≠ some c := by
  rw [firstIn, Option.map_eq_none_iff, List.findIdx?_eq_none_iff] at h
  obtain ⟨r, rfl⟩ : ∃ r, q = i + r := ⟨q - i, by omega⟩
  intro heq
  rw [← getElem?_range (j := j) hqj] at heq
  exact absurd (h c (List.mem_of_getElem? heq)) (by simp)

theorem firstIn_of_getElem? (hj : j ≤ s.length) (hip : i ≤ p) (hpj : p < j)
    (hfound : s[p]? = some c) (hbefore : ∀ q, i ≤ q → q < p → s[q]? ≠ some c) :
    firstIn s c i j = some p := by
  cases h : firstIn s c i j with
  | none => exact absurd hfound (firstIn_eq_none hj h hip hpj)
  | some q =>
    obtain ⟨hiq, -, hq, hbefore'⟩ := firstIn_eq_some hj h
    rcases Nat.lt_trichotomy p q with hlt | rfl | hlt
    · exact absurd hfound (hbefore' p hip hlt)
    · rfl
    · exact absurd hq (hbefore q hiq hlt)

theorem firstIn_of_forall (hj : j ≤ s.length)
    (h : ∀ q, i ≤ q → q < j → s[q]? ≠ some c) : firstIn s c i j = none := by
  cases hp : firstIn s c i j with
  | none => rfl
  | some p =>
    obtain ⟨hip, hpj, hfound, -⟩ := firstIn_eq_some hj hp
    exact absurd hfound (h p hip hpj)

theorem lastIn_eq_some (h : lastIn s c i j = some p) :
    i ≤ p ∧ p < j ∧ s[p]? = some c ∧ ∀ q, p < q → q < j → s[q]? ≠ some c := by
  induction j with
  | zero => cases h
  | succ j ih =>
    rw [lastIn] at h
    split at h
    · cases h
    next hij =>
    split at h
    · next hfound =>
      cases h
      exact ⟨by omega, Nat.lt_succ_self _, hfound, fun q hq hq' => by omega⟩
    · next hne =>
      obtain ⟨hip, hpj, hfound, hbehind⟩ := ih h
      refine ⟨hip, by omega, hfound, fun q hq hqj => ?_⟩
      rcases Nat.lt_succ_iff_lt_or_eq.mp hqj with hlt | rfl
      · exact hbehind q hq hlt
      · exact hne

theorem lastIn_eq_none (h : lastIn s c i j = none) {q : ℕ} (hq : i ≤ q) (hqj : q < j) :
    s[q]? ≠ some c := by
  induction j with
  | zero => omega
  | succ j ih =>
    rw [lastIn] at h
    split at h
    · omega
    next hij =>
    split at h
    · cases h
    · next hne =>
      rcases Nat.lt_succ_iff_lt_or_eq.mp hqj with hlt | rfl
      · exact ih h hlt
      · exact hne

theorem lastIn_of_getElem? (hip : i ≤ p) (hpj : p < j) (hfound : s[p]? = some c)
    (hbehind : ∀ q, p < q → q < j → s[q]? ≠ some c) : lastIn s c i j = some p := by
  cases h : lastIn s c i j with
  | none => exact absurd hfound (lastIn_eq_none h hip hpj)
  | some q =>
    obtain ⟨-, hqj, hq, hbehind'⟩ := lastIn_eq_some h
    rcases Nat.lt_trichotomy p q with hlt | rfl | hlt
    · exact absurd hq (hbehind q hlt hqj)
    · rfl
    · exact absurd hfound (hbehind' p hlt hpj)

theorem lastIn_of_forall (h : ∀ q, i ≤ q → q < j → s[q]? ≠ some c) : lastIn s c i j = none := by
  cases hp : lastIn s c i j with
  | none => rfl
  | some p =>
    obtain ⟨hip, hpj, hfound, -⟩ := lastIn_eq_some hp
    exact absurd hfound (h p hip hpj)

/-! ### In a string of parts -/

theorem getElem?_part (a d : List α) {b : List α} {q : ℕ} (hq : a.length ≤ q)
    (hq' : q < a.length + b.length) : (a ++ b ++ d)[q]? = b[q - a.length]? := by
  rw [List.append_assoc, List.getElem?_append_right hq, List.getElem?_append_left (by omega)]

theorem getElem?_part_ne (a d : List α) {b : List α} (h : c ∉ b) {q : ℕ} (hq : a.length ≤ q)
    (hq' : q < a.length + b.length) : (a ++ b ++ d)[q]? ≠ some c := by
  rw [getElem?_part a d hq hq']
  exact fun heq => h (List.mem_of_getElem? heq)

theorem getElem?_behind (a b d : List α) : (a ++ b ++ c :: d)[a.length + b.length]? = some c := by
  rw [← List.length_append, List.getElem?_append_right (Nat.le_refl _), Nat.sub_self]
  rfl

theorem firstIn_parts (a d : List α) {b : List α} (h : c ∉ b) (hj : a.length + b.length < j)
    (hj' : j ≤ (a ++ b ++ c :: d).length) :
    firstIn (a ++ b ++ c :: d) c a.length j = some (a.length + b.length) :=
  firstIn_of_getElem? hj' (Nat.le_add_right _ _) hj (getElem?_behind a b d)
    fun _ hq hq' => getElem?_part_ne a _ h hq hq'

theorem firstIn_part (a d : List α) {b : List α} (h : c ∉ b) :
    firstIn (a ++ b ++ d) c a.length (a.length + b.length) = none := by
  apply firstIn_of_forall
  · rw [List.length_append, List.length_append]
    exact Nat.le_add_right _ _
  · exact fun _ hq hq' => getElem?_part_ne a d h hq hq'

theorem lastIn_part (a d : List α) {b : List α} (h : c ∉ b) :
    lastIn (a ++ b ++ d) c a.length (a.length + b.length) = none :=
  lastIn_of_forall fun _ hq hq' => getElem?_part_ne a d h hq hq'

end PhpRuntime.Lib
