import Mathlib.Data.List.Pairwise
import PhpRuntime.Spl.Heap

/-!
# The operations of an SPL heap

What each loop and each operation does to what the heap holds, with any comparator, and
that it keeps the order when the comparator compares by a total preorder.
-/

set_option autoImplicit false

namespace PhpRuntime.Spl

open PhpRuntime.Lib.BinaryHeap

variable {σ α υ : Type}

/-! ## The loops -/

theorem siftUp_bag (cmp : CmpFunc σ α υ) (elem : α) (userdata : υ) (e : ℕ → α) {i n : ℕ} (s : σ)
    (h : i < n) :
    let r := siftUp cmp elem userdata e i s
    bag (Function.update r.1 r.2.1 elem) n = bag (Function.update e i elem) n := by
  induction e, i, s using siftUp.induct cmp elem userdata with
  | case1 e i s hpos compared hless ih =>
    have hpar := parent_lt hpos
    unfold parent at hpar
    rw [siftUp, if_pos hpos]
    dsimp only
    rw [if_pos hless]
    exact (ih (by omega)).trans (bag_move e h (by omega) (by omega) elem)
  | case2 e i s hpos compared hless =>
    rw [siftUp, if_pos hpos]
    dsimp only
    rw [if_neg hless]
  | case3 e i s hzero =>
    rw [siftUp, if_neg hzero]

theorem siftDown_bag (cmp : CmpFunc σ α υ) (bottom : α) (userdata : υ) (e : ℕ → α) {i n : ℕ}
    (s : σ) (h : i < n) (hbottom : e n = bottom) :
    let r := siftDown cmp bottom n (n / 2) userdata e i s
    bag (Function.update r.1 r.2.1 bottom) n = bag (Function.update e i bottom) n := by
  induction e, i, s using siftDown.induct cmp bottom n (n / 2) userdata with
  | case1 e i s hlt child compared hless ih =>
    have hchild : child.1 = 2 * i + 1 ∨ child.1 = 2 * i + 2 :=
      chooseChild_fst cmp n userdata e i s
    rw [siftDown, if_pos hlt]
    dsimp only
    rw [if_pos hless]
    rcases Nat.lt_or_ge child.1 n with hin | hout
    · have hkeep : Function.update e i (e child.1) n = bottom := by
        rw [Function.update_of_ne (by omega)]
        exact hbottom
      exact (ih hin hkeep).trans (bag_move e h hin (by omega) bottom)
    · -- the last slot is the one that `bottom` was taken from
      have hlast : child.1 = n := by omega
      change bag (Function.update (siftDown cmp bottom n (n / 2) userdata
        (Function.update e i (e child.1)) child.1 compared.2).1 _ bottom) n = _
      rw [siftDown, if_neg (by omega)]
      dsimp only
      rw [hlast, bag_update_of_le _ (le_refl n), hbottom]
  | case2 e i s hlt child compared hless =>
    rw [siftDown, if_pos hlt]
    dsimp only
    rw [if_neg hless]
  | case3 e i s hge =>
    rw [siftDown, if_neg hge]

/-- The comparator compares by the relation, in whatever state it is called. -/
structure Compares (cmp : CmpFunc σ α υ) (le : α → α → Prop) : Prop where
  neg : ∀ a b userdata s, (cmp a b userdata s).1 < 0 ↔ ¬ le b a
  pos : ∀ a b userdata s, 0 < (cmp a b userdata s).1 ↔ ¬ le a b

section Ordered

variable {le : α → α → Prop} [IsTrans α le] [Std.Total le] {cmp : CmpFunc σ α υ}

omit [IsTrans α le] in
theorem le_of_not_le {a b : α} (h : ¬ le b a) : le a b :=
  (total_of le a b).resolve_right h

theorem siftUp_ordered (hcmp : Compares cmp le) {elem : α} (userdata : υ) (e : ℕ → α) {i n : ℕ}
    (s : σ) (h : i < n) (hole : UpHole le e n i elem) :
    let r := siftUp cmp elem userdata e i s
    Ordered le (Function.update r.1 r.2.1 elem) n := by
  induction e, i, s using siftUp.induct cmp elem userdata with
  | case1 e i s hpos compared hless ih =>
    have hpar := parent_lt hpos
    have hle : le (e (parent i)) elem := le_of_not_le ((hcmp.neg _ _ _ _).mp hless)
    rw [siftUp, if_pos hpos]
    dsimp only
    rw [if_pos hless]
    exact ih (hpar.trans h) (hole.move hpos h hle)
  | case2 e i s hpos compared hless =>
    have hle : le elem (e (parent i)) := by
      by_contra hnot
      exact hless ((hcmp.neg _ _ _ _).mpr hnot)
    rw [siftUp, if_pos hpos]
    dsimp only
    rw [if_neg hless]
    exact hole.others.fill (fun _ _ => hle) hole.below
  | case3 e i s hzero =>
    rw [siftUp, if_neg hzero]
    exact hole.others.fill (fun hpos _ => absurd hpos hzero) hole.below

omit [IsTrans α le] in
theorem chooseChild_max (hcmp : Compares cmp le) (userdata : υ) (s : σ) (e : ℕ → α) {i n : ℕ} (h : i < n / 2) :
    let c := (chooseChild cmp n userdata e i s).1
    ∀ j, j = 2 * i + 1 ∨ j = 2 * i + 2 → le (e j) (e c) := by
  have hrefl : ∀ a, le a a := fun a => (total_of le a a).elim id id
  unfold chooseChild
  dsimp only
  rw [if_pos (by omega)]
  dsimp only
  intro j hj
  split
  · rename_i hpos
    have hlt := le_of_not_le ((hcmp.pos _ _ _ _).mp hpos)
    rcases hj with rfl | rfl
    · rw [Nat.mul_comm i 2] at hlt ⊢
      exact hlt
    · rw [Nat.mul_comm i 2]
      exact hrefl _
  · rename_i hpos
    have hle : le (e (i * 2 + 1 + 1)) (e (i * 2 + 1)) := by
      by_contra hnot
      exact hpos ((hcmp.pos _ _ _ _).mpr hnot)
    rw [Nat.mul_comm i 2] at hle ⊢
    rcases hj with rfl | rfl
    · exact hrefl _
    · exact hle

theorem siftDown_ordered (hcmp : Compares cmp le) {bottom : α} (userdata : υ) (e : ℕ → α)
    {i n : ℕ} (s : σ) (hbottom : e n = bottom) (hole : DownHole le e n i bottom) (h : i < n) :
    let r := siftDown cmp bottom n (n / 2) userdata e i s
    Ordered le (Function.update r.1 r.2.1 bottom) n := by
  induction e, i, s using siftDown.induct cmp bottom n (n / 2) userdata with
  | case1 e i s hlt child compared hless ih =>
    have hchild : child.1 = 2 * i + 1 ∨ child.1 = 2 * i + 2 :=
      chooseChild_fst cmp n userdata e i s
    have hmax := chooseChild_max hcmp userdata s e hlt
    have hnot : ¬ le (e child.1) bottom := (hcmp.neg _ _ _ _).mp hless
    have hne : child.1 ≠ n := by
      intro heq
      rw [heq, hbottom] at hnot
      exact hnot ((total_of le bottom bottom).elim id id)
    have hkeep : Function.update e i (e child.1) n = bottom := by
      rw [Function.update_of_ne (by omega)]
      exact hbottom
    rw [siftDown, if_pos hlt]
    dsimp only
    rw [if_pos hless]
    refine ih hkeep (hole.move (by omega) (by omega) ?_ (le_of_not_le hnot) ?_) (by omega)
    · unfold parent
      omega
    · intro j hj hjn hpar
      apply hmax
      unfold parent at hpar
      omega
  | case2 e i s hlt child compared hless =>
    have hmax := chooseChild_max hcmp userdata s e hlt
    have hle : le (e child.1) bottom := by
      by_contra hnot
      exact hless ((hcmp.neg _ _ _ _).mpr hnot)
    rw [siftDown, if_pos hlt]
    dsimp only
    rw [if_neg hless]
    refine hole.others.fill (fun hpos _ => hole.above hpos) fun j hj hjn hpar => ?_
    refine IsTrans.trans _ _ _ (hmax j ?_) hle
    unfold parent at hpar
    omega
  | case3 e i s hge =>
    rw [siftDown, if_neg hge]
    refine hole.others.fill (fun hpos _ => hole.above hpos) fun j hj hjn hpar => ?_
    -- a node from the limit on has no child
    unfold parent at hpar
    omega

end Ordered

/-! ## The operations -/

namespace SplPtrHeap

variable (exception : σ → Bool) (heap : SplPtrHeap σ α υ) (elem : α) (userdata : υ) (s : σ)

@[simp] theorem reserve_elements : heap.reserve.elements = heap.elements := by
  unfold reserve
  split <;> rfl

@[simp] theorem reserve_count : heap.reserve.count = heap.count := by
  unfold reserve
  split <;> rfl

@[simp] theorem reserve_cmp : heap.reserve.cmp = heap.cmp := by
  unfold reserve
  split <;> rfl

theorem insert_cmp : (heap.insert exception elem userdata s).1.cmp = heap.cmp := heap.reserve_cmp

theorem insert_contents :
    (heap.insert exception elem userdata s).1.contents = elem ::ₘ heap.contents := by
  have hbag := siftUp_bag heap.reserve.cmp elem userdata heap.reserve.elements
    (heap.reserve.ctor elem s) (Nat.lt_succ_self heap.reserve.count)
  refine hbag.trans ?_
  rw [bag_succ, Function.update_self, bag_update_of_le _ (le_refl _), reserve_elements,
    reserve_count]
  rfl

theorem deleteTop_cmp : (heap.deleteTop exception userdata s).2.1.cmp = heap.cmp := by
  unfold deleteTop
  dsimp only
  split <;> rfl

theorem deleteTop_fst : (heap.deleteTop exception userdata s).1 = heap.top := by
  unfold deleteTop top
  dsimp only
  split <;> rfl

theorem deleteTop_count : (heap.deleteTop exception userdata s).2.1.count = heap.count - 1 := by
  unfold deleteTop
  dsimp only
  split
  · rename_i hzero
    simp [hzero]
  · rfl

theorem deleteTop_of_empty (h : heap.count = 0) :
    heap.deleteTop exception userdata s = (none, heap, s) := by
  unfold deleteTop
  rw [if_pos h]

theorem deleteTop_contents (h : heap.count ≠ 0) :
    heap.contents = heap.elements 0 ::ₘ (heap.deleteTop exception userdata s).2.1.contents := by
  obtain ⟨n, hn⟩ := Nat.exists_eq_succ_of_ne_zero h
  have hcount : heap.count - 1 = n := by omega
  unfold deleteTop contents
  rw [if_neg h]
  dsimp only
  rw [hcount, hn]
  rcases Nat.eq_zero_or_pos n with hzero | hpos
  · rw [hzero, bag_zero, bag_succ, bag_zero]
  · have hsift := siftDown_bag heap.cmp (heap.elements n) userdata heap.elements s hpos rfl
    dsimp only at hsift
    rw [hsift, bag_update heap.elements hpos, bag_succ]

section Ordered

variable {heap} {le : α → α → Prop} [IsTrans α le] [Std.Total le]

theorem insert_ordered (hcmp : Compares heap.cmp le) (h : Ordered le heap.elements heap.count) :
    Ordered le (heap.insert exception elem userdata s).1.elements
      (heap.insert exception elem userdata s).1.count := by
  rw [← heap.reserve_cmp] at hcmp
  rw [← heap.reserve_elements, ← heap.reserve_count] at h
  exact siftUp_ordered hcmp userdata heap.reserve.elements (heap.reserve.ctor elem s)
    (Nat.lt_succ_self heap.reserve.count) h.upHole

theorem deleteTop_ordered (hcmp : Compares heap.cmp le)
    (h : Ordered le heap.elements heap.count) :
    Ordered le (heap.deleteTop exception userdata s).2.1.elements
      (heap.deleteTop exception userdata s).2.1.count := by
  by_cases hzero : heap.count = 0
  · rw [heap.deleteTop_of_empty exception userdata s hzero]
    exact h
  · obtain ⟨n, hn⟩ := Nat.exists_eq_succ_of_ne_zero hzero
    have hcount : heap.count - 1 = n := by omega
    unfold deleteTop
    rw [if_neg hzero]
    dsimp only
    rw [hcount]
    rcases Nat.eq_zero_or_pos n with hn0 | hpos
    · rw [hn0]
      intro i hi hin
      omega
    · rw [hn] at h
      exact siftDown_ordered hcmp userdata heap.elements s rfl h.downHole hpos

theorem top_max (h : Ordered le heap.elements heap.count) {x : α} (hx : heap.top = some x) :
    x ∈ heap.contents ∧ ∀ y ∈ heap.contents, le y x := by
  unfold top at hx
  split at hx
  · cases hx
  · rename_i hne
    have hroot : heap.elements 0 = x := Option.some.inj hx
    have : Std.Refl le := ⟨fun a => (total_of le a a).elim id id⟩
    constructor
    · exact mem_bag.mpr ⟨0, Nat.pos_of_ne_zero hne, hroot⟩
    · intro y hy
      obtain ⟨i, hi, rfl⟩ := mem_bag.mp hy
      rw [← hroot]
      exact h.le_root i hi

end Ordered

theorem top_of_nonempty (h : heap.count ≠ 0) : heap.top = some (heap.elements 0) := if_neg h

theorem contents_of_empty (h : heap.count = 0) : heap.contents = 0 := by
  unfold contents
  rw [h, bag_zero]

theorem drain_of_empty (n : ℕ) (h : heap.count = 0) :
    heap.drain exception userdata n s = [] := by
  cases n with
  | zero => rfl
  | succ n =>
    unfold drain
    rw [heap.deleteTop_of_empty exception userdata s h]

theorem drain_of_nonempty (n : ℕ) (h : heap.count ≠ 0) :
    heap.drain exception userdata (n + 1) s =
      heap.elements 0 :: (heap.deleteTop exception userdata s).2.1.drain exception userdata n
        (heap.deleteTop exception userdata s).2.2 := by
  have htop := heap.deleteTop_fst exception userdata s
  rw [heap.top_of_nonempty h] at htop
  rw [drain, htop]

theorem drain_contents (n : ℕ) (h : heap.count ≤ n) :
    (↑(heap.drain exception userdata n s) : Multiset α) = heap.contents := by
  induction n generalizing heap s with
  | zero =>
    have hzero : heap.count = 0 := by omega
    rw [heap.drain_of_empty exception userdata s 0 hzero, heap.contents_of_empty hzero]
    rfl
  | succ n ih =>
    by_cases hzero : heap.count = 0
    · rw [heap.drain_of_empty exception userdata s (n + 1) hzero, heap.contents_of_empty hzero]
      rfl
    · have hcount := heap.deleteTop_count exception userdata s
      rw [heap.drain_of_nonempty exception userdata s n hzero, ← Multiset.cons_coe,
        ih _ _ (by omega), ← heap.deleteTop_contents exception userdata s hzero]

theorem drain_pairwise {le : α → α → Prop} [IsTrans α le] [Std.Total le] (n : ℕ)
    (hn : heap.count ≤ n) (hcmp : Compares heap.cmp le)
    (h : Ordered le heap.elements heap.count) :
    (heap.drain exception userdata n s).Pairwise fun x y => le y x := by
  induction n generalizing heap s with
  | zero => exact List.Pairwise.nil
  | succ n ih =>
    by_cases hzero : heap.count = 0
    · rw [heap.drain_of_empty exception userdata s (n + 1) hzero]
      exact List.Pairwise.nil
    · rw [heap.drain_of_nonempty exception userdata s n hzero]
      have hcount := heap.deleteTop_count exception userdata s
      have hnext := deleteTop_ordered exception userdata s hcmp h
      have hcmp' := hcmp
      rw [← heap.deleteTop_cmp exception userdata s] at hcmp'
      refine List.Pairwise.cons (fun y hy => ?_) (ih _ _ (by omega) hcmp' hnext)
      apply (top_max h (heap.top_of_nonempty hzero)).2
      rw [heap.deleteTop_contents exception userdata s hzero,
        ← drain_contents exception _ userdata _ n (by omega)]
      exact Multiset.mem_cons_of_mem hy

end SplPtrHeap

end PhpRuntime.Spl
