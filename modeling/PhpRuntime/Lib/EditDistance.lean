import Mathlib.Order.Bounds.Basic
import Mathlib.Order.MinMax
import Mathlib.Tactic.Common

/-!
# Edit distance

A list is turned into another one by insertions, replacements and deletions at any places, in any
order, each kind with a price of its own. The least total price is given by the recursion over
the first elements.
-/

set_option autoImplicit false

namespace PhpRuntime.Lib

/-- The prices of the edits. -/
structure EditCosts where
  ins : ℕ
  rep : ℕ
  del : ℕ

variable {α : Type*} {c : EditCosts} {s t s' u v : List α} {a b x : α} {m n : ℕ}

/-- One edit, with its price. -/
inductive Edit (c : EditCosts) : List α → List α → ℕ → Prop
  | insert (u v : List α) (a : α) : Edit c (u ++ v) (u ++ a :: v) c.ins
  | replace (u v : List α) (a b : α) : Edit c (u ++ a :: v) (u ++ b :: v) c.rep
  | delete (u v : List α) (a : α) : Edit c (u ++ a :: v) (u ++ v) c.del

/-- Edits one after the other, with their total price. -/
inductive EditScript (c : EditCosts) : List α → List α → ℕ → Prop
  | done (s : List α) : EditScript c s s 0
  | step {s s' t : List α} {m n : ℕ} (h : Edit c s s' m) (h' : EditScript c s' t n) :
      EditScript c s t (m + n)

theorem reverse_append_cons (u v : List α) (a : α) :
    (u ++ a :: v).reverse = v.reverse ++ a :: u.reverse := by
  rw [List.reverse_append, List.reverse_cons, List.append_assoc, List.singleton_append]

theorem Edit.reverse (h : Edit c s t n) : Edit c s.reverse t.reverse n := by
  cases h with
  | insert u v a =>
    rw [List.reverse_append, reverse_append_cons]
    exact Edit.insert _ _ a
  | replace u v a b =>
    rw [reverse_append_cons, reverse_append_cons]
    exact Edit.replace _ _ a b
  | delete u v a =>
    rw [reverse_append_cons, List.reverse_append]
    exact Edit.delete _ _ a

theorem Edit.cons (x : α) (h : Edit c s t n) : Edit c (x :: s) (x :: t) n := by
  cases h with
  | insert u v a => exact Edit.insert (x :: u) v a
  | replace u v a b => exact Edit.replace (x :: u) v a b
  | delete u v a => exact Edit.delete (x :: u) v a

namespace EditScript

theorem reverse (h : EditScript c s t n) : EditScript c s.reverse t.reverse n := by
  induction h with
  | done s => exact done _
  | step h _ ih => exact step h.reverse ih

theorem cons (x : α) (h : EditScript c s t n) : EditScript c (x :: s) (x :: t) n := by
  induction h with
  | done s => exact done _
  | step h _ ih => exact step (h.cons x) ih

theorem append_step (h : EditScript c s t n) (h' : Edit c t s' m) : EditScript c s s' (n + m) := by
  induction h with
  | done s =>
    rw [Nat.zero_add]
    exact step h' (done _)
  | step h _ ih =>
    rw [Nat.add_assoc]
    exact step h (ih h')

theorem reverse_iff : EditScript c s.reverse t.reverse n ↔ EditScript c s t n := by
  refine ⟨fun h => ?_, reverse⟩
  have hrev := h.reverse
  rwa [List.reverse_reverse, List.reverse_reverse] at hrev

end EditScript

/-! ### The recursion -/

variable [DecidableEq α]

/-- The least total price, from the first elements on. -/
def editDistance (c : EditCosts) : List α → List α → ℕ
  | [], [] => 0
  | _ :: s, [] => editDistance c s [] + c.del
  | [], _ :: t => editDistance c [] t + c.ins
  | a :: s, b :: t =>
    min (editDistance c s t + if a = b then 0 else c.rep)
      (min (editDistance c s (b :: t) + c.del) (editDistance c (a :: s) t + c.ins))
termination_by s t => s.length + t.length

theorem editDistance_nil_nil : editDistance c ([] : List α) [] = 0 := by rw [editDistance]

theorem editDistance_cons_nil : editDistance c (a :: s) [] = editDistance c s [] + c.del := by
  rw [editDistance]

theorem editDistance_nil_cons : editDistance c [] (b :: t) = editDistance c [] t + c.ins := by
  rw [editDistance]

theorem editDistance_cons_cons : editDistance c (a :: s) (b :: t) =
    min (editDistance c s t + if a = b then 0 else c.rep)
      (min (editDistance c s (b :: t) + c.del) (editDistance c (a :: s) t + c.ins)) := by
  rw [editDistance]

theorem editDistance_nil_right (s : List α) : editDistance c s [] = s.length * c.del := by
  induction s with
  | nil => rw [editDistance_nil_nil, List.length_nil, Nat.zero_mul]
  | cons a s ih => rw [editDistance_cons_nil, ih, List.length_cons, Nat.succ_mul]

theorem editDistance_nil_left (t : List α) : editDistance c [] t = t.length * c.ins := by
  induction t with
  | nil => rw [editDistance_nil_nil, List.length_nil, Nat.zero_mul]
  | cons b t ih => rw [editDistance_nil_cons, ih, List.length_cons, Nat.succ_mul]

theorem editDistance_le_delete : editDistance c (a :: s) t ≤ editDistance c s t + c.del := by
  cases t with
  | nil => exact editDistance_cons_nil.le
  | cons b t =>
    rw [editDistance_cons_cons]
    exact (min_le_right _ _).trans (min_le_left _ _)

theorem editDistance_le_insert : editDistance c s (b :: t) ≤ editDistance c s t + c.ins := by
  cases s with
  | nil => exact editDistance_nil_cons.le
  | cons a s =>
    rw [editDistance_cons_cons]
    exact (min_le_right _ _).trans (min_le_right _ _)

theorem editDistance_le_replace :
    editDistance c (a :: s) (b :: t) ≤ editDistance c s t + c.rep := by
  rw [editDistance_cons_cons]
  refine (min_le_left _ _).trans (Nat.add_le_add_left ?_ _)
  split_ifs
  · exact Nat.zero_le _
  · exact le_rfl

theorem editDistance_self (s : List α) : editDistance c s s = 0 := by
  induction s with
  | nil => exact editDistance_nil_nil
  | cons a s ih =>
    rw [editDistance_cons_cons, if_pos rfl, ih]
    exact Nat.zero_min _

theorem editDistance_cons_le (h : ∀ t, editDistance c s t ≤ m + editDistance c s' t) (t : List α) :
    editDistance c (x :: s) t ≤ m + editDistance c (x :: s') t := by
  induction t with
  | nil =>
    have hnil := h []
    rw [editDistance_cons_nil, editDistance_cons_nil]
    omega
  | cons b t ih =>
    have hb := h (b :: t)
    have ht := h t
    rw [editDistance_cons_cons, editDistance_cons_cons]
    omega

/-- **An edit does not gain more than its price.** -/
theorem Edit.editDistance_le (h : Edit c s s' m) (t : List α) :
    editDistance c s t ≤ m + editDistance c s' t := by
  cases h with
  | insert u v a =>
    induction u generalizing t with
    | cons x u ih => exact editDistance_cons_le ih t
    | nil =>
      induction t with
      | nil =>
        rw [List.nil_append, List.nil_append, editDistance_cons_nil]
        omega
      | cons b t ih =>
        have hins := editDistance_le_insert (c := c) (s := v) (b := b) (t := t)
        rw [List.nil_append, List.nil_append] at ih ⊢
        rw [editDistance_cons_cons]
        omega
  | replace u v a b =>
    induction u generalizing t with
    | cons x u ih => exact editDistance_cons_le ih t
    | nil =>
      induction t with
      | nil =>
        rw [List.nil_append, List.nil_append, editDistance_cons_nil, editDistance_cons_nil]
        omega
      | cons d t ih =>
        have hrep := editDistance_le_replace (c := c) (a := a) (s := v) (b := d) (t := t)
        have hdel := editDistance_le_delete (c := c) (a := a) (s := v) (t := d :: t)
        have hins := editDistance_le_insert (c := c) (s := a :: v) (b := d) (t := t)
        rw [List.nil_append, List.nil_append] at ih ⊢
        rw [editDistance_cons_cons (a := b)]
        omega
  | delete u v a =>
    induction u generalizing t with
    | cons x u ih => exact editDistance_cons_le ih t
    | nil =>
      have hdel := editDistance_le_delete (c := c) (a := a) (s := v) (t := t)
      rw [List.nil_append, List.nil_append]
      omega

theorem EditScript.editDistance_le (h : EditScript c s t n) : editDistance c s t ≤ n := by
  induction h with
  | done s => exact (editDistance_self s).le
  | step h _ ih => exact (h.editDistance_le _).trans (Nat.add_le_add_left ih _)

theorem editScript_editDistance (s t : List α) : EditScript c s t (editDistance c s t) := by
  fun_induction editDistance c s t with
  | case1 => exact EditScript.done []
  | case2 a s ih =>
    rw [Nat.add_comm]
    exact EditScript.step (Edit.delete [] s a) ih
  | case3 b t ih => exact ih.append_step (Edit.insert [] t b)
  | case4 a s b t ihrep ihdel ihins =>
    rcases min_choice (editDistance c s t + if a = b then 0 else c.rep)
      (min (editDistance c s (b :: t) + c.del) (editDistance c (a :: s) t + c.ins)) with hmin | hmin
    · rw [hmin]
      split_ifs with hab
      · rw [hab]
        exact ihrep.cons b
      · exact (ihrep.cons a).append_step (Edit.replace [] t a b)
    · rw [hmin]
      rcases min_choice (editDistance c s (b :: t) + c.del)
        (editDistance c (a :: s) t + c.ins) with hmin | hmin
      · rw [hmin, Nat.add_comm]
        exact EditScript.step (Edit.delete [] s a) ihdel
      · rw [hmin]
        exact ihins.append_step (Edit.insert [] t b)

/-- **The recursion gives the least total price of a script.** -/
theorem editDistance_isLeast (s t : List α) :
    IsLeast {n | EditScript c s t n} (editDistance c s t) :=
  ⟨editScript_editDistance s t, fun _ h => EditScript.editDistance_le h⟩

theorem editDistance_reverse_isLeast (s t : List α) :
    IsLeast {n | EditScript c s t n} (editDistance c s.reverse t.reverse) := by
  have hset : {n | EditScript c s.reverse t.reverse n} = {n | EditScript c s t n} :=
    Set.ext fun n => EditScript.reverse_iff
  exact hset ▸ editDistance_isLeast s.reverse t.reverse

theorem editDistance_le_max {k : ℕ} (hins : c.ins ≤ k) (hrep : c.rep ≤ k) (hdel : c.del ≤ k)
    (s t : List α) : editDistance c s t ≤ max s.length t.length * k := by
  induction s generalizing t with
  | nil =>
    rw [editDistance_nil_left, List.length_nil, Nat.zero_max]
    exact Nat.mul_le_mul_left _ hins
  | cons a s ih =>
    cases t with
    | nil =>
      rw [editDistance_nil_right, List.length_nil, Nat.max_zero]
      exact Nat.mul_le_mul_left _ hdel
    | cons b t =>
      have hle := editDistance_le_replace (c := c) (a := a) (s := s) (b := b) (t := t)
      have hst := ih t
      rw [List.length_cons, List.length_cons, Nat.add_max_add_right, Nat.succ_mul]
      omega

end PhpRuntime.Lib
