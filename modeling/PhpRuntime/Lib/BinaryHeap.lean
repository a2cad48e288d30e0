import Mathlib.Data.Multiset.AddSub
import Mathlib.Data.Multiset.Range
import Mathlib.Logic.Function.Basic
import Mathlib.Order.Defs.Unbundled

/-!
# Binary heaps in an array

The node `i` of an array has the parent `(i - 1) / 2`. A sift moves a hole along a path of
the tree and fills it at the end: `UpHole` and `DownHole` say which pairs are in order
while the hole is open, each move keeps them, and filling the hole gives a heap. What the
array holds changes with a write as the written slot does, whatever the order is.
-/

set_option autoImplicit false

namespace PhpRuntime.Lib.BinaryHeap

variable {α : Type*}

/-! ## What the array holds -/

/-- The first `n` elements of an array, without their order. -/
def bag (e : ℕ → α) (n : ℕ) : Multiset α := (Multiset.range n).map e

theorem bag_zero (e : ℕ → α) : bag e 0 = 0 := rfl

theorem bag_succ (e : ℕ → α) (n : ℕ) : bag e (n + 1) = e n ::ₘ bag e n := by
  unfold bag
  rw [Multiset.range_succ, Multiset.map_cons]

theorem card_bag (e : ℕ → α) (n : ℕ) : (bag e n).card = n := by
  unfold bag
  rw [Multiset.card_map, Multiset.card_range]

theorem mem_bag {e : ℕ → α} {n : ℕ} {x : α} : x ∈ bag e n ↔ ∃ i < n, e i = x := by
  simp [bag]

theorem bag_congr {e e' : ℕ → α} {n : ℕ} (h : ∀ i < n, e i = e' i) : bag e n = bag e' n :=
  Multiset.map_congr rfl fun i hi => h i (Multiset.mem_range.mp hi)

theorem bag_update_of_le (e : ℕ → α) {n i : ℕ} (h : n ≤ i) (x : α) :
    bag (Function.update e i x) n = bag e n :=
  bag_congr fun j hj => Function.update_of_ne (by omega) x e

theorem bag_update (e : ℕ → α) {n i : ℕ} (h : i < n) (x : α) :
    e i ::ₘ bag (Function.update e i x) n = x ::ₘ bag e n := by
  induction n with
  | zero => omega
  | succ n ih =>
    rw [bag_succ, bag_succ]
    rcases Nat.lt_or_ge i n with hin | hin
    · rw [Function.update_of_ne (by omega) x e, Multiset.cons_swap, ih hin, Multiset.cons_swap]
    · have heq : i = n := by omega
      rw [heq, Function.update_self, bag_update_of_le e (le_refl n) x, Multiset.cons_swap]

theorem bag_move (e : ℕ → α) {n i j : ℕ} (hi : i < n) (hj : j < n) (hij : i ≠ j) (x : α) :
    bag (Function.update (Function.update e i (e j)) j x) n = bag (Function.update e i x) n := by
  have hfill := bag_update (Function.update e i (e j)) hj x
  have hmove := bag_update e hi (e j)
  have hone := bag_update e hi x
  rw [Function.update_of_ne (Ne.symm hij)] at hfill
  have hboth : e i ::ₘ e j ::ₘ bag (Function.update (Function.update e i (e j)) j x) n =
      e i ::ₘ e j ::ₘ bag (Function.update e i x) n := by
    rw [hfill, Multiset.cons_swap, hmove, Multiset.cons_swap (e i) (e j), hone,
      Multiset.cons_swap x]
  rwa [Multiset.cons_inj_right, Multiset.cons_inj_right] at hboth

/-! ## The order -/

def parent (i : ℕ) : ℕ := (i - 1) / 2

theorem parent_lt {i : ℕ} (h : 0 < i) : parent i < i := by
  unfold parent
  omega

variable (le : α → α → Prop)

def Ordered (e : ℕ → α) (n : ℕ) : Prop := ∀ i, 0 < i → i < n → le (e i) (e (parent i))

/-- The pairs of a node and its parent that do not touch the hole are in order. -/
def OrderedExcept (e : ℕ → α) (n hole : ℕ) : Prop :=
  ∀ i, 0 < i → i < n → i ≠ hole → parent i ≠ hole → le (e i) (e (parent i))

/-- The children of the hole are at most the parent of the hole. -/
def GrandOrdered (e : ℕ → α) (n hole : ℕ) : Prop :=
  0 < hole → ∀ i, 0 < i → i < n → parent i = hole → le (e i) (e (parent hole))

/-- The hole of a sift towards the root, for `x`: its children are at most `x`. -/
structure UpHole (e : ℕ → α) (n hole : ℕ) (x : α) : Prop where
  others : OrderedExcept le e n hole
  grand : GrandOrdered le e n hole
  below : ∀ i, 0 < i → i < n → parent i = hole → le (e i) x

/-- The hole of a sift towards the leaves, for `x`: `x` is at most its parent. -/
structure DownHole (e : ℕ → α) (n hole : ℕ) (x : α) : Prop where
  others : OrderedExcept le e n hole
  grand : GrandOrdered le e n hole
  above : 0 < hole → le x (e (parent hole))

variable {le} {e : ℕ → α} {n hole : ℕ} {x : α}

theorem Ordered.upHole (h : Ordered le e n) : UpHole le e (n + 1) n x where
  others := fun i hi hin hne hpar => h i hi (by omega)
  grand := fun hn i hi hin hpar => by unfold parent at hpar; omega
  below := fun i hi hin hpar => by unfold parent at hpar; omega

theorem Ordered.downHole (h : Ordered le e (n + 1)) : DownHole le e n 0 x where
  others := fun i hi hin hne hpar => h i hi (by omega)
  grand := fun h0 => by omega
  above := fun h0 => by omega

theorem OrderedExcept.fill (h : OrderedExcept le e n hole)
    (habove : 0 < hole → hole < n → le x (e (parent hole)))
    (hbelow : ∀ i, 0 < i → i < n → parent i = hole → le (e i) x) :
    Ordered le (Function.update e hole x) n := by
  intro i hi hin
  by_cases hih : i = hole
  · have hlt : parent hole ≠ hole := by
      have := parent_lt (hih ▸ hi)
      omega
    rw [hih, Function.update_self, Function.update_of_ne hlt]
    exact habove (hih ▸ hi) (hih ▸ hin)
  · rw [Function.update_of_ne hih]
    by_cases hpar : parent i = hole
    · rw [hpar, Function.update_self]
      exact hbelow i hi hin hpar
    · rw [Function.update_of_ne hpar]
      exact h i hi hin hih hpar

theorem UpHole.move [IsTrans α le] (h : UpHole le e n hole x) (hpos : 0 < hole) (hlt : hole < n)
    (hx : le (e (parent hole)) x) :
    UpHole le (Function.update e hole (e (parent hole))) n (parent hole) x := by
  have hpar := parent_lt hpos
  have hup : 0 < parent hole → le (e (parent hole)) (e (parent (parent hole))) := by
    intro hpp
    have := parent_lt hpp
    exact h.others (parent hole) hpp (by omega) (by omega) (by omega)
  constructor
  · intro i hi hin hne hpp
    by_cases hih : i = hole
    · exact absurd (congrArg parent hih) hpp
    · rw [Function.update_of_ne hih]
      by_cases hchild : parent i = hole
      · rw [hchild, Function.update_self]
        exact h.grand hpos i hi hin hchild
      · rw [Function.update_of_ne hchild]
        exact h.others i hi hin hih hchild
  · intro hpp i hi hin hchild
    have hne : parent (parent hole) ≠ hole := by
      have := parent_lt hpp
      omega
    rw [Function.update_of_ne hne]
    by_cases hih : i = hole
    · rw [hih, Function.update_self]
      exact hup hpp
    · rw [Function.update_of_ne hih]
      have hi' := h.others i hi hin hih (by omega)
      rw [hchild] at hi'
      exact IsTrans.trans _ _ _ hi' (hup hpp)
  · intro i hi hin hchild
    by_cases hih : i = hole
    · rw [hih, Function.update_self]
      exact hx
    · rw [Function.update_of_ne hih]
      have hi' := h.others i hi hin hih (by omega)
      rw [hchild] at hi'
      exact IsTrans.trans _ _ _ hi' hx

theorem DownHole.move (h : DownHole le e n hole x) {c : ℕ} (hc : 0 < c) (hcn : c < n)
    (hchild : parent c = hole) (hx : le x (e c))
    (hmax : ∀ i, 0 < i → i < n → parent i = hole → le (e i) (e c)) :
    DownHole le (Function.update e hole (e c)) n c x := by
  have hlt := parent_lt hc
  constructor
  · intro i hi hin hne hpar
    by_cases hih : i = hole
    · have hne' : parent i ≠ hole := by
        have := parent_lt hi
        omega
      rw [Function.update_of_ne hne', hih, Function.update_self]
      exact h.grand (hih ▸ hi) c hc hcn hchild
    · rw [Function.update_of_ne hih]
      by_cases hsib : parent i = hole
      · rw [hsib, Function.update_self]
        exact hmax i hi hin hsib
      · rw [Function.update_of_ne hsib]
        exact h.others i hi hin hih hsib
  · intro _ i hi hin hpar
    have hlt' := parent_lt hi
    rw [hchild, Function.update_self, Function.update_of_ne (by omega)]
    have hi' := h.others i hi hin (by omega) (by omega)
    rwa [hpar] at hi'
  · intro _
    rw [hchild, Function.update_self]
    exact hx

theorem Ordered.le_root [IsTrans α le] [Std.Refl le] (h : Ordered le e n) : ∀ i < n, le (e i) (e 0) := by
  intro i
  induction i using Nat.strongRecOn with
  | ind i ih =>
    intro hin
    rcases Nat.eq_zero_or_pos i with hzero | hpos
    · rw [hzero]
      exact Std.Refl.refl (e 0)
    · have hlt := parent_lt hpos
      exact IsTrans.trans _ _ _ (h i hpos hin) (ih (parent i) hlt (by omega))

end PhpRuntime.Lib.BinaryHeap
