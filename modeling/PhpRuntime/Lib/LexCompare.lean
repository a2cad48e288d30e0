import Mathlib.Algebra.Order.Group.Int
import Mathlib.Data.List.Basic
import Mathlib.Order.Defs.LinearOrder

/-!
# Three-way comparisons

A comparison that gives the sign of comparing two keys is a total preorder. The keys are lists in
their lexicographic order.
-/

set_option autoImplicit false

namespace PhpRuntime.Lib

theorem neg_one_nonpos : (-1 : ℤ) ≤ 0 := by decide

section Lists

variable {α : Type} [LinearOrder α] {u v w : List α} {e : α}

/-- The sign of comparing two lists: the first difference counts, and a list is less than what it
is continued to. -/
def lexCompare : List α → List α → ℤ
  | [], [] => 0
  | [], _ :: _ => -1
  | _ :: _, [] => 1
  | x :: u, y :: w => if x < y then -1 else if y < x then 1 else lexCompare u w

alias lexCompare_cons_cons := lexCompare.eq_4

theorem lexCompare_cons_nil (x : α) (u : List α) : ¬ lexCompare (x :: u) [] ≤ 0 := by
  rw [lexCompare]
  decide

theorem lexCompare_cons_lt {x y : α} (h : x < y) (u w : List α) :
    lexCompare (x :: u) (y :: w) = -1 := by
  rw [lexCompare_cons_cons, if_pos h]

theorem lexCompare_cons_gt {x y : α} (h : y < x) (u w : List α) :
    lexCompare (x :: u) (y :: w) = 1 := by
  rw [lexCompare_cons_cons, if_neg (not_lt_of_gt h), if_pos h]

theorem lexCompare_cons_self (x : α) (u w : List α) :
    lexCompare (x :: u) (x :: w) = lexCompare u w := by
  rw [lexCompare_cons_cons, if_neg (lt_irrefl x), if_neg (lt_irrefl x)]

theorem lexCompare_swap (u w : List α) : lexCompare w u = -lexCompare u w := by
  induction u generalizing w with
  | nil => cases w <;> rfl
  | cons x u ih =>
    cases w with
    | nil => rfl
    | cons y w =>
      obtain h | rfl | h := lt_trichotomy x y
      · rw [lexCompare_cons_lt h, lexCompare_cons_gt h]
        rfl
      · rw [lexCompare_cons_self, lexCompare_cons_self, ih]
      · rw [lexCompare_cons_lt h, lexCompare_cons_gt h]

theorem lexCompare_trans (h : lexCompare u v ≤ 0) (h' : lexCompare v w ≤ 0) :
    lexCompare u w ≤ 0 := by
  induction u generalizing v w with
  | nil =>
    cases w with
    | nil => exact le_refl 0
    | cons z w => exact neg_one_nonpos
  | cons x u ih =>
    cases v with
    | nil => exact absurd h (lexCompare_cons_nil x u)
    | cons y v =>
      cases w with
      | nil => exact absurd h' (lexCompare_cons_nil y v)
      | cons z w =>
        obtain hxy | rfl | hxy := lt_trichotomy x y
        · obtain hyz | rfl | hyz := lt_trichotomy y z
          · rw [lexCompare_cons_lt (hxy.trans hyz)]
            exact neg_one_nonpos
          · rw [lexCompare_cons_lt hxy]
            exact neg_one_nonpos
          · rw [lexCompare_cons_gt hyz] at h'
            exact absurd h' (by decide)
        · obtain hyz | rfl | hyz := lt_trichotomy x z
          · rw [lexCompare_cons_lt hyz]
            exact neg_one_nonpos
          · rw [lexCompare_cons_self] at h h' ⊢
            exact ih h h'
          · rw [lexCompare_cons_gt hyz] at h'
            exact absurd h' (by decide)
        · rw [lexCompare_cons_gt hxy] at h
          exact absurd h (by decide)

theorem lexCompare_self (u : List α) : lexCompare u u = 0 := by
  induction u with
  | nil => rfl
  | cons x u ih => rw [lexCompare_cons_self, ih]

theorem lexCompare_values (u w : List α) :
    lexCompare u w = -1 ∨ lexCompare u w = 0 ∨ lexCompare u w = 1 := by
  induction u generalizing w with
  | nil => cases w <;> simp [lexCompare]
  | cons x u ih =>
    cases w with
    | nil => exact .inr (.inr rfl)
    | cons y w =>
      rw [lexCompare_cons_cons]
      split
      · exact .inl rfl
      · split
        · exact .inr (.inr rfl)
        · exact ih w

theorem sign_lexCompare (u w : List α) : (lexCompare u w).sign = lexCompare u w := by
  obtain h | h | h := lexCompare_values u w <;> rw [h] <;> rfl

theorem lexCompare_append (h : u.length = w.length) (s t : List α) :
    lexCompare (u ++ s) (w ++ t) =
      if lexCompare u w = 0 then lexCompare s t else lexCompare u w := by
  induction u generalizing w with
  | nil =>
    rw [List.eq_nil_of_length_eq_zero h.symm]
    rfl
  | cons x u ih =>
    cases w with
    | nil => cases h
    | cons y w =>
      rw [List.cons_append, List.cons_append]
      obtain hxy | rfl | hxy := lt_trichotomy x y
      · rw [lexCompare_cons_lt hxy, lexCompare_cons_lt hxy]
        rfl
      · rw [lexCompare_cons_self, lexCompare_cons_self, ih (Nat.succ.inj h)]
      · rw [lexCompare_cons_gt hxy, lexCompare_cons_gt hxy]
        rfl

theorem lexCompare_terminated (hu : ∀ x ∈ u, e < x) (hw : ∀ x ∈ w, e < x) (s t : List α) :
    lexCompare (u ++ e :: s) (w ++ e :: t) =
      if lexCompare u w = 0 then lexCompare s t else lexCompare u w := by
  induction u generalizing w with
  | nil =>
    cases w with
    | nil =>
      rw [List.nil_append, List.nil_append, lexCompare_cons_self]
      rfl
    | cons y w =>
      rw [List.nil_append, List.cons_append, lexCompare_cons_lt (hw y List.mem_cons_self)]
      rfl
  | cons x u ih =>
    cases w with
    | nil =>
      rw [List.nil_append, List.cons_append, lexCompare_cons_gt (hu x List.mem_cons_self)]
      rfl
    | cons y w =>
      rw [List.cons_append, List.cons_append]
      obtain hxy | rfl | hxy := lt_trichotomy x y
      · rw [lexCompare_cons_lt hxy, lexCompare_cons_lt hxy]
        rfl
      · rw [lexCompare_cons_self, lexCompare_cons_self,
          ih (fun y hy => hu y (List.mem_cons_of_mem _ hy))
            fun y hy => hw y (List.mem_cons_of_mem _ hy)]
      · rw [lexCompare_cons_gt hxy, lexCompare_cons_gt hxy]
        rfl

end Lists

/-! ### Total preorders -/

variable {α β ε : Type} [LinearOrder α]

/-- A comparison, which may fail, that is a total preorder on the values with a property. -/
structure PreorderOn (S : β → Prop) (compare : β → β → Except ε ℤ) : Prop where
  total : ∀ a b, S a → S b → ∃ r, compare a b = .ok r
  opposite : ∀ a b r s, S a → S b → compare a b = .ok r → compare b a = .ok s → s.sign = -r.sign
  trans : ∀ a b c r s t, S a → S b → S c → compare a b = .ok r → compare b c = .ok s →
    compare a c = .ok t → r ≤ 0 → s ≤ 0 → t ≤ 0

theorem preorderOn_of_key {S : β → Prop} {compare : β → β → Except ε ℤ} (key : β → List α)
    (h : ∀ a b, S a → S b → ∃ r, compare a b = .ok r ∧ r.sign = lexCompare (key a) (key b)) :
    PreorderOn S compare := by
  have hsign {a b : β} {r : ℤ} (ha : S a) (hb : S b) (hr : compare a b = .ok r) :
      r.sign = lexCompare (key a) (key b) := by
    obtain ⟨r', hr', hsign⟩ := h a b ha hb
    rw [hr, Except.ok.injEq] at hr'
    rw [hr', hsign]
  have hle {a b : β} {r : ℤ} (ha : S a) (hb : S b) (hr : compare a b = .ok r) :
      r ≤ 0 ↔ lexCompare (key a) (key b) ≤ 0 := by
    rw [← hsign ha hb hr, Int.sign_nonpos_iff]
  refine ⟨fun a b ha hb => ?_, fun a b r s ha hb hr hs => ?_, ?_⟩
  · obtain ⟨r, hr, -⟩ := h a b ha hb
    exact ⟨r, hr⟩
  · rw [hsign ha hb hr, hsign hb ha hs, lexCompare_swap]
  · intro a b c r s t ha hb hc hr hs ht hab hbc
    rw [hle ha hb hr] at hab
    rw [hle hb hc hs] at hbc
    rw [hle ha hc ht]
    exact lexCompare_trans hab hbc

end PhpRuntime.Lib
