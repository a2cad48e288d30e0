import PhpRuntime.Lib.BinaryHeap

/-!
# Heapsort in an array

The order is given by a test for "greater". The sift goes towards the leaves by swaps, so that
the element in question is always in its place, and the heap is built from its last inner node
to the root.
-/

set_option autoImplicit false

namespace PhpRuntime.Lib.HeapSort

open PhpRuntime.Lib.BinaryHeap

variable {α : Type*}

def elems (d : α) (l : List α) (i : ℕ) : α := l.getD i d

def swap (e : ℕ → α) (i j : ℕ) : ℕ → α := Function.update (Function.update e i (e j)) j (e i)

def swapAt (d : α) (l : List α) (i j : ℕ) : List α := (l.set i (elems d l j)).set j (elems d l i)

def largest (gt : α → α → Bool) (n : ℕ) (e : ℕ → α) (i : ℕ) : ℕ :=
  let larger := if 2 * i + 1 < n ∧ gt (e (2 * i + 1)) (e i) = true then 2 * i + 1 else i
  if 2 * i + 2 < n ∧ gt (e (2 * i + 2)) (e larger) = true then 2 * i + 2 else larger

/-- The sift from the node `i`. A sift goes down, so `n` turns are enough. -/
def fixHeap (gt : α → α → Bool) (d : α) (n : ℕ) : ℕ → List α → ℕ → List α
  | 0, l, _ => l
  | f + 1, l, i =>
    if largest gt n (elems d l) i = i then l
    else fixHeap gt d n f (swapAt d l i (largest gt n (elems d l) i))
      (largest gt n (elems d l) i)

/-- The sifts from the nodes below `k`, the last first. -/
def buildHeap (gt : α → α → Bool) (d : α) (n : ℕ) : ℕ → List α → List α
  | 0, l => l
  | k + 1, l => buildHeap gt d n k (fixHeap gt d n n l k)

/-- The maximum of the heap of the first `k + 1` elements goes behind the others. -/
def sortLoop (gt : α → α → Bool) (d : α) : ℕ → List α → List α
  | 0, l => l
  | k + 1, l => if k = 0 then l else sortLoop gt d k (fixHeap gt d k k (swapAt d l 0 k) 0)

def heapsort (gt : α → α → Bool) (d : α) (l : List α) : List α :=
  sortLoop gt d l.length (buildHeap gt d l.length (l.length / 2) l)

/-! ### What is in the array -/

variable {gt : α → α → Bool} {e : ℕ → α} {d : α} {l : List α} {n f i j k r : ℕ}

theorem bag_swap (hi : i < n) (hj : j < n) : bag (swap e i j) n = bag e n := by
  by_cases hij : i = j
  · rw [swap, hij, Function.update_eq_self, Function.update_eq_self]
  · rw [swap, bag_move e hi hj hij, Function.update_eq_self]

theorem swap_of_ne {m : ℕ} (hi : m ≠ i) (hj : m ≠ j) : swap e i j m = e m := by
  rw [swap, Function.update_of_ne hj, Function.update_of_ne hi]

theorem swap_right : swap e i j j = e i := Function.update_self _ _ _

theorem swap_left (hij : i ≠ j) : swap e i j i = e j := by
  rw [swap, Function.update_of_ne hij, Function.update_self]

theorem length_swapAt (d : α) (l : List α) (i j : ℕ) : (swapAt d l i j).length = l.length := by
  rw [swapAt, List.length_set, List.length_set]

theorem elems_set {x : α} (hi : i < l.length) :
    elems d (l.set i x) = Function.update (elems d l) i x := by
  funext m
  by_cases him : m = i
  · rw [him, Function.update_self, elems, List.getD_eq_getElem?_getD, List.getElem?_set_self hi]
    rfl
  · rw [Function.update_of_ne him, elems, elems, List.getD_eq_getElem?_getD,
      List.getElem?_set_ne (Ne.symm him), ← List.getD_eq_getElem?_getD]

theorem elems_swapAt (hi : i < l.length) (hj : j < l.length) :
    elems d (swapAt d l i j) = swap (elems d l) i j := by
  rw [swapAt, elems_set (by rw [List.length_set]; exact hj), elems_set hi, swap]

/-! ### The sift -/

/-- The order of the test. -/
structure IsOrder (gt : α → α → Bool) : Prop where
  trans : ∀ a b c, gt a b = false → gt b c = false → gt a c = false
  asymm : ∀ a b, gt a b = true → gt b a = false

/-- What the largest of a node and its children is. -/
structure Largest (gt : α → α → Bool) (n : ℕ) (e : ℕ → α) (i m : ℕ) : Prop where
  place : m = i ∨ 0 < m ∧ m < n ∧ parent m = i
  above : m ≠ i → gt (e m) (e i) = true
  max : ∀ c, 0 < c → c < n → parent c = i → gt (e c) (e m) = false

theorem IsOrder.irrefl (h : IsOrder gt) (a : α) : gt a a = false := by
  cases hgt : gt a a with
  | false => rfl
  | true => exact (h.asymm a a hgt).symm.trans hgt |>.symm

theorem children {c : ℕ} (hc : 0 < c) (h : parent c = i) : c = 2 * i + 1 ∨ c = 2 * i + 2 := by
  unfold parent at h
  omega

theorem largest_spec (h : IsOrder gt) (n : ℕ) (e : ℕ → α) (i : ℕ) :
    Largest gt n e i (largest gt n e i) := by
  have hleft : parent (2 * i + 1) = i := by
    unfold parent
    omega
  have hright : parent (2 * i + 2) = i := by
    unfold parent
    omega
  unfold largest
  by_cases hl : 2 * i + 1 < n ∧ gt (e (2 * i + 1)) (e i) = true
  · rw [if_pos hl]
    dsimp only
    by_cases hr : 2 * i + 2 < n ∧ gt (e (2 * i + 2)) (e (2 * i + 1)) = true
    · rw [if_pos hr]
      refine ⟨Or.inr ⟨Nat.succ_pos _, hr.1, hright⟩, fun _ => ?_, fun c hc hcn hci => ?_⟩
      · by_contra hnot
        have hle := h.trans _ _ _ (h.asymm _ _ hr.2) (Bool.eq_false_of_not_eq_true hnot)
        exact Bool.false_ne_true (hle.symm.trans hl.2)
      · rcases children hc hci with rfl | rfl
        · exact h.asymm _ _ hr.2
        · exact h.irrefl _
    · rw [if_neg hr]
      refine ⟨Or.inr ⟨Nat.succ_pos _, hl.1, hleft⟩, fun _ => hl.2, fun c hc hcn hci => ?_⟩
      rcases children hc hci with rfl | rfl
      · exact h.irrefl _
      · exact Bool.eq_false_of_not_eq_true fun hgt => hr ⟨hcn, hgt⟩
  · rw [if_neg hl]
    dsimp only
    by_cases hr : 2 * i + 2 < n ∧ gt (e (2 * i + 2)) (e i) = true
    · rw [if_pos hr]
      refine ⟨Or.inr ⟨Nat.succ_pos _, hr.1, hright⟩, fun _ => hr.2, fun c hc hcn hci => ?_⟩
      rcases children hc hci with rfl | rfl
      · exact h.trans _ _ _ (Bool.eq_false_of_not_eq_true fun hgt => hl ⟨hcn, hgt⟩)
          (h.asymm _ _ hr.2)
      · exact h.irrefl _
    · rw [if_neg hr]
      refine ⟨Or.inl rfl, fun hne => absurd rfl hne, fun c hc hcn hci => ?_⟩
      rcases children hc hci with rfl | rfl
      · exact Bool.eq_false_of_not_eq_true fun hgt => hl ⟨hcn, hgt⟩
      · exact Bool.eq_false_of_not_eq_true fun hgt => hr ⟨hcn, hgt⟩

/-- The pairs of a node and its parent in the subtrees from `r` on are in order. -/
def OrderedFrom (gt : α → α → Bool) (e : ℕ → α) (n r : ℕ) : Prop :=
  ∀ c, 0 < c → c < n → r ≤ parent c → gt (e c) (e (parent c)) = false

/-- The sift from `r` has come to `i`: the pairs of which `i` is not the parent are in order,
and the children of `i` are at most its parent. -/
structure Sifting (gt : α → α → Bool) (e : ℕ → α) (n r i : ℕ) : Prop where
  others : ∀ c, 0 < c → c < n → r ≤ parent c → parent c ≠ i → gt (e c) (e (parent c)) = false
  grand : r < i → r ≤ parent i → ∀ c, 0 < c → c < n → parent c = i →
    gt (e c) (e (parent i)) = false

theorem OrderedFrom.sifting (h : OrderedFrom gt e n (r + 1)) : Sifting gt e n r r :=
  ⟨fun c hc hcn hr hne => h c hc hcn (by omega), fun hlt => absurd hlt (lt_irrefl r)⟩

theorem Sifting.swap (hgt : IsOrder gt) (h : Sifting gt e n r i) {m : ℕ}
    (hm : Largest gt n e i m) (hne : m ≠ i) : Sifting gt (swap e i m) n r m := by
  obtain ⟨hpos, hmn, hpar⟩ := hm.place.resolve_left hne
  have hlt := parent_lt hpos
  constructor
  · intro c hc hcn hr hcm
    have hcpar := parent_lt hc
    by_cases hci : c = i
    · -- what has come to `i` was a child of it
      have hpi : parent i ≠ i := by
        rw [← hci]
        omega
      rw [hci, swap_left (Ne.symm hne), swap_of_ne hpi (by rw [← hci]; exact hcm)]
      rw [hci] at hr hc
      exact h.grand (lt_of_le_of_lt hr (parent_lt hc)) hr m hpos hmn hpar
    by_cases hsib : parent c = i
    · rw [hsib, swap_left (Ne.symm hne)]
      by_cases hcm' : c = m
      · rw [hcm', swap_right]
        exact hgt.asymm _ _ (hm.above hne)
      · rw [swap_of_ne hci hcm']
        exact hm.max c hc hcn hsib
    · have hcm' : c ≠ m := fun heq => hsib (heq ▸ hpar)
      rw [swap_of_ne hci hcm', swap_of_ne hsib hcm]
      exact h.others c hc hcn hr hsib
  · intro _ _ c hc hcn hcm
    have hcpar := parent_lt hc
    rw [hpar, swap_left (Ne.symm hne), swap_of_ne (by omega) (by omega)]
    have hold := h.others c hc hcn (by omega) (by omega)
    rwa [hcm] at hold

theorem length_fixHeap (gt : α → α → Bool) (d : α) (n f : ℕ) (l : List α) (i : ℕ) :
    (fixHeap gt d n f l i).length = l.length := by
  induction f generalizing l i with
  | zero => rfl
  | succ f ih =>
    rw [fixHeap]
    split_ifs
    · rfl
    · rw [ih, length_swapAt]

/-- **The sift** makes a heap of its subtree. -/
theorem orderedFrom_fixHeap (hgt : IsOrder gt) (hn : n ≤ l.length) (hf : n ≤ i + f) (hri : r ≤ i)
    (h : Sifting gt (elems d l) n r i) :
    OrderedFrom gt (elems d (fixHeap gt d n f l i)) n r := by
  have hstop (e : ℕ → α) (i : ℕ) (h : Sifting gt e n r i)
      (hi : ∀ c, 0 < c → c < n → parent c = i → gt (e c) (e i) = false) :
      OrderedFrom gt e n r := by
    intro c hc hcn hr
    by_cases hci : parent c = i
    · rw [hci]
      exact hi c hc hcn hci
    · exact h.others c hc hcn hr hci
  induction f generalizing l i with
  | zero =>
    refine hstop _ i h fun c hc hcn hci => ?_
    have hlt := parent_lt hc
    omega
  | succ f ih =>
    have hm := largest_spec hgt n (elems d l) i
    rw [fixHeap]
    by_cases hne : largest gt n (elems d l) i = i
    · rw [if_pos hne]
      refine hstop _ i h fun c hc hcn hci => ?_
      have hmax := hm.max c hc hcn hci
      rwa [hne] at hmax
    · obtain ⟨hpos, hmn, hpar⟩ := hm.place.resolve_left hne
      have hlt := parent_lt hpos
      have hswap := h.swap hgt hm hne
      rw [← elems_swapAt (by omega) (by omega)] at hswap
      rw [if_neg hne]
      exact ih (by rwa [length_swapAt]) (by omega) (by omega) hswap

theorem bag_fixHeap (hgt : IsOrder gt) (hn : n ≤ l.length) (hi : i < n) (hk : n ≤ k) (f : ℕ) :
    bag (elems d (fixHeap gt d n f l i)) k = bag (elems d l) k := by
  induction f generalizing l i with
  | zero => rfl
  | succ f ih =>
    have hm := largest_spec hgt n (elems d l) i
    rw [fixHeap]
    by_cases hne : largest gt n (elems d l) i = i
    · rw [if_pos hne]
    · obtain ⟨-, hmn, -⟩ := hm.place.resolve_left hne
      rw [if_neg hne, ih (by rwa [length_swapAt]) hmn, elems_swapAt (by omega) (by omega),
        bag_swap (by omega) (by omega)]

theorem fixHeap_of_le (hgt : IsOrder gt) (hn : n ≤ l.length) (hi : i < n) (hj : n ≤ j) (f : ℕ) :
    elems d (fixHeap gt d n f l i) j = elems d l j := by
  induction f generalizing l i with
  | zero => rfl
  | succ f ih =>
    have hm := largest_spec hgt n (elems d l) i
    rw [fixHeap]
    by_cases hne : largest gt n (elems d l) i = i
    · rw [if_pos hne]
    · obtain ⟨-, hmn, -⟩ := hm.place.resolve_left hne
      rw [if_neg hne, ih (by rwa [length_swapAt]) hmn, elems_swapAt (by omega) (by omega),
        swap_of_ne (by omega) (by omega)]

/-! ### The sort -/

theorem length_buildHeap (gt : α → α → Bool) (d : α) (n k : ℕ) (l : List α) :
    (buildHeap gt d n k l).length = l.length := by
  induction k generalizing l with
  | zero => rfl
  | succ k ih => rw [buildHeap, ih, length_fixHeap]

theorem buildHeap_spec (hgt : IsOrder gt) (hn : n ≤ l.length) (hk : k ≤ n)
    (h : OrderedFrom gt (elems d l) n k) :
    OrderedFrom gt (elems d (buildHeap gt d n k l)) n 0 ∧
      bag (elems d (buildHeap gt d n k l)) n = bag (elems d l) n := by
  induction k generalizing l with
  | zero => exact ⟨h, rfl⟩
  | succ k ih =>
    have hsift := orderedFrom_fixHeap (f := n) hgt hn (by omega) le_rfl h.sifting
    obtain ⟨hordered, hbag⟩ := ih (by rwa [length_fixHeap]) (Nat.le_of_succ_le hk) hsift
    rw [buildHeap]
    exact ⟨hordered, hbag.trans (bag_fixHeap hgt hn hk le_rfl n)⟩

/-- The first `k` elements are a heap, and the others are in order and not less than these. -/
structure Sorting (gt : α → α → Bool) (e : ℕ → α) (n k : ℕ) : Prop where
  heap : OrderedFrom gt e k 0
  sorted : ∀ i j, k ≤ i → i < j → j < n → gt (e i) (e j) = false
  above : ∀ i j, i < k → k ≤ j → j < n → gt (e i) (e j) = false

theorem OrderedFrom.le_root (hgt : IsOrder gt) (h : OrderedFrom gt e n 0) (hi : i < n) :
    gt (e i) (e 0) = false := by
  induction i using Nat.strong_induction_on with
  | h i ih =>
    rcases Nat.eq_zero_or_pos i with rfl | hpos
    · exact hgt.irrefl _
    · have hlt := parent_lt hpos
      exact hgt.trans _ _ _ (h i hpos hi (Nat.zero_le _)) (ih _ hlt (by omega))

theorem Sorting.step (hgt : IsOrder gt) (hl : k < l.length)
    (h : Sorting gt (elems d l) n (k + 1)) (hk : 0 < k) :
    Sorting gt (elems d (fixHeap gt d k k (swapAt d l 0 k) 0)) n k := by
  have hlen : k ≤ (swapAt d l 0 k).length := by
    rw [length_swapAt]
    omega
  have hswap : elems d (swapAt d l 0 k) = swap (elems d l) 0 k :=
    elems_swapAt (by omega) hl
  have hsift : Sifting gt (elems d (swapAt d l 0 k)) k 0 0 := by
    rw [hswap]
    refine ⟨fun c hc hck _ hpar => ?_, fun hlt => absurd hlt (lt_irrefl 0)⟩
    have hlt := parent_lt hc
    rw [swap_of_ne (by omega) (by omega), swap_of_ne hpar (by omega)]
    exact h.heap c hc (by omega) (Nat.zero_le _)
  -- what is in the heap now was in it before
  have hfrom (i : ℕ) (hi : i < k) :
      ∃ j < k + 1, elems d (fixHeap gt d k k (swapAt d l 0 k) 0) i = elems d l j := by
    have hmem : elems d (fixHeap gt d k k (swapAt d l 0 k) 0) i ∈ bag (swap (elems d l) 0 k) k := by
      rw [← hswap, ← bag_fixHeap hgt hlen hk le_rfl k]
      exact mem_bag.mpr ⟨i, hi, rfl⟩
    obtain ⟨j, hj, heq⟩ := mem_bag.mp hmem
    rw [← heq]
    by_cases h0 : j = 0
    · exact ⟨k, Nat.lt_succ_self k, by rw [h0, swap_left (by omega)]⟩
    · exact ⟨j, by omega, by rw [swap_of_ne h0 (by omega)]⟩
  have hkeep (j : ℕ) (hj : k < j) :
      elems d (fixHeap gt d k k (swapAt d l 0 k) 0) j = elems d l j := by
    rw [fixHeap_of_le hgt hlen hk (by omega), hswap, swap_of_ne (by omega) (by omega)]
  have hmax : elems d (fixHeap gt d k k (swapAt d l 0 k) 0) k = elems d l 0 := by
    rw [fixHeap_of_le hgt hlen hk le_rfl, hswap, swap_right]
  refine ⟨orderedFrom_fixHeap hgt hlen (by omega) le_rfl hsift, ?_, ?_⟩
  · intro i j hi hij hjn
    rw [hkeep j (by omega)]
    rcases Nat.lt_or_eq_of_le hi with hlt | rfl
    · rw [hkeep i hlt]
      exact h.sorted i j hlt hij hjn
    · rw [hmax]
      exact h.above 0 j (by omega) (by omega) hjn
  · intro i j hi hj hjn
    obtain ⟨i', hi', heq⟩ := hfrom i hi
    rw [heq]
    rcases Nat.lt_or_eq_of_le hj with hlt | rfl
    · rw [hkeep j hlt]
      exact h.above i' j hi' hlt hjn
    · rw [hmax]
      exact h.heap.le_root hgt hi'

theorem sortLoop_spec (hgt : IsOrder gt) (hl : n ≤ l.length) (hk : k ≤ n)
    (h : Sorting gt (elems d l) n k) :
    (∀ i j, i < j → j < n →
        gt (elems d (sortLoop gt d k l) i) (elems d (sortLoop gt d k l) j) = false) ∧
      bag (elems d (sortLoop gt d k l)) n = bag (elems d l) n ∧
      (sortLoop gt d k l).length = l.length := by
  induction k generalizing l with
  | zero => exact ⟨fun i j hij hj => h.sorted i j (Nat.zero_le _) hij hj, rfl, rfl⟩
  | succ k ih =>
    rw [sortLoop]
    by_cases h0 : k = 0
    · rw [if_pos h0]
      refine ⟨fun i j hij hj => ?_, rfl, rfl⟩
      rcases Nat.eq_zero_or_pos i with hi | hi
      · exact h.above i j (by omega) (by omega) hj
      · exact h.sorted i j (by omega) hij hj
    · have hpos : 0 < k := Nat.pos_of_ne_zero h0
      have hlen := length_fixHeap gt d k k (swapAt d l 0 k) 0
      rw [length_swapAt] at hlen
      obtain ⟨hsorted, hsame, hlength⟩ := ih (by rwa [hlen]) (Nat.le_of_succ_le hk)
        (h.step hgt (by omega) hpos)
      rw [if_neg h0]
      refine ⟨hsorted, hsame.trans ?_, hlength.trans hlen⟩
      rw [bag_fixHeap hgt (by rw [length_swapAt]; omega) hpos (Nat.le_of_succ_le hk),
        elems_swapAt (by omega) (by omega), bag_swap (by omega) (by omega)]

theorem coe_eq_bag (d : α) (l : List α) : (l : Multiset α) = bag (elems d l) l.length := by
  have hmap : (List.range l.length).map (elems d l) = l := by
    apply List.ext_getElem
    · rw [List.length_map, List.length_range]
    · intro i h1 h2
      rw [List.getElem_map, List.getElem_range, elems, List.getD_eq_getElem?_getD,
        List.getElem?_eq_getElem h2]
      rfl
  conv => lhs; rw [← hmap]
  rfl

/-- **Heapsort sorts.** -/
theorem heapsort_spec (hgt : IsOrder gt) (d : α) (l : List α) :
    (∀ i j, i < j → j < l.length →
        gt (elems d (heapsort gt d l) i) (elems d (heapsort gt d l) j) = false) ∧
      (heapsort gt d l).Perm l := by
  have hstart : OrderedFrom gt (elems d l) l.length (l.length / 2) := by
    intro c hc hcn hpar
    unfold parent at hpar
    omega
  have hlen := length_buildHeap gt d l.length (l.length / 2) l
  obtain ⟨hheap, hbag⟩ := buildHeap_spec hgt le_rfl (Nat.div_le_self l.length 2) hstart
  obtain ⟨hsorted, hsame, hlength⟩ := sortLoop_spec hgt (le_of_eq hlen.symm) le_rfl
    (⟨hheap, fun i j hi hij hj => by omega, fun i j hi hj hjn => by omega⟩ :
      Sorting gt (elems d (buildHeap gt d l.length (l.length / 2) l)) l.length l.length)
  refine ⟨hsorted, Multiset.coe_eq_coe.mp ?_⟩
  rw [coe_eq_bag d, coe_eq_bag d l]
  have hsize : (heapsort gt d l).length = l.length := hlength.trans hlen
  rw [hsize]
  exact hsame.trans hbag

end PhpRuntime.Lib.HeapSort
