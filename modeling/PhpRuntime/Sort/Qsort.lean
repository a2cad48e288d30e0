import Mathlib.Data.Int.Order.Lemmas
import Mathlib.Tactic.Linarith
import Mathlib.Tactic.Ring
import PhpRuntime.Lib.Segment

/-!
# Quicksort with a stack

`zend_qsort` (`Zend/zend_qsort.c`) in an array of `nmemb` elements of `siz` bytes. A pointer is its
distance from `base` in bytes. The function for comparisons may answer differently each time, so it
has a state. Without an element at a pointer that is followed, or without space on the stack, the
sort has no result.
-/

set_option autoImplicit false

namespace PhpRuntime.Sort

open PhpRuntime.Lib

/-! ## The exchange of two elements -/

/-- The bytes, by their distance from `base`. -/
abbrev Mem := ℤ → UInt8

/-- `n` bytes at `p` are overwritten. -/
def Mem.store (mem : Mem) (p : ℤ) (n : ℕ) (bytes : ℤ → UInt8) : Mem := fun q =>
  if p ≤ q ∧ q < p + n then bytes (q - p) else mem q

/-- The exchange of two values of `n` bytes, through a temporary. -/
def exchange (n : ℕ) (mem : Mem) (a b : ℤ) : Mem :=
  let t := fun k => mem (a + k)
  let mem := mem.store a n fun k => mem (b + k)
  mem.store b n t

/-- `sizeof(int)` -/
def sizeofInt : ℕ := 4

/-- The loop of `_zend_qsort_swap` over the values of type `int`. -/
def swapInts (siz i : ℕ) (a b : ℤ) (mem : Mem) : ℕ × ℤ × ℤ × Mem :=
  if i ≤ siz then
    swapInts siz (i + sizeofInt) (a + sizeofInt) (b + sizeofInt) (exchange sizeofInt mem a b)
  else (i, a, b, mem)
termination_by siz + 1 - i
decreasing_by
  rw [sizeofInt]
  omega

def swapChars (siz i : ℕ) (a b : ℤ) (mem : Mem) : Mem :=
  if i ≤ siz then swapChars siz (i + 1) (a + 1) (b + 1) (exchange 1 mem a b) else mem
termination_by siz + 1 - i

/-- `_zend_qsort_swap` -/
def zendQsortSwap (mem : Mem) (a b : ℤ) (siz : ℕ) : Mem :=
  let (i, a, b, mem) := swapInts siz sizeofInt a b mem
  swapChars siz (i - sizeofInt + 1) a b mem

/-! ## The sort -/

variable {σ : Type*}

/-- The bytes of the array, and the state of the function for comparisons. -/
structure Sorting (σ : Type*) where
  mem : Mem
  state : σ

def element (siz : ℕ) (mem : Mem) (p : ℤ) : List UInt8 :=
  (List.range siz).map fun k : ℕ => mem (p + k)

/-- `QSORT_STACK_SIZE`, `sizeof(size_t) * CHAR_BIT` -/
def qsortStackSize : ℕ := 8 * 8

variable (compare : σ → List UInt8 → List UInt8 → ℤ × σ) (nmemb siz : ℕ)

def InArray (p : ℤ) : Prop := 0 ≤ p ∧ p + siz ≤ nmemb * siz

instance (p : ℤ) : Decidable (InArray nmemb siz p) := by
  unfold InArray
  infer_instance

/-- `compare(p, q)` -/
def compareAt (p q : ℤ) (s : Sorting σ) : Option (ℤ × Sorting σ) :=
  if InArray nmemb siz p ∧ InArray nmemb siz q then
    let (result, state) := compare s.state (element siz s.mem p) (element siz s.mem q)
    some (result, { s with state := state })
  else none

def swapAt (p q : ℤ) (s : Sorting σ) : Option (Sorting σ) :=
  if InArray nmemb siz p ∧ InArray nmemb siz q then
    some { s with mem := zendQsortSwap s.mem p q siz }
  else none

/-- `for (; seg1 < seg2 && compare(begin, seg1) > 0; seg1 += siz);` -/
def scanUp (begin seg2 : ℤ) : ℕ → ℤ → Sorting σ → Option (ℤ × Sorting σ)
  | 0, _, _ => none
  | fuel + 1, seg1, s =>
    if seg1 < seg2 then
      match compareAt compare nmemb siz begin seg1 s with
      | none => none
      | some (result, s) =>
        if 0 < result then scanUp begin seg2 fuel (seg1 + siz) s else some (seg1, s)
    else some (seg1, s)

/-- `for (; seg2 >= seg1 && compare(seg2, begin) > 0; seg2 -= siz);` -/
def scanDown (begin seg1 : ℤ) : ℕ → ℤ → Sorting σ → Option (ℤ × Sorting σ)
  | 0, _, _ => none
  | fuel + 1, seg2, s =>
    if seg1 ≤ seg2 then
      match compareAt compare nmemb siz seg2 begin s with
      | none => none
      | some (result, s) =>
        if 0 < result then scanDown begin seg1 fuel (seg2 - siz) s else some (seg2, s)
    else some (seg2, s)

/-- `while (1)`: the value of `seg2` at its end. -/
def segments (begin : ℤ) : ℕ → ℤ → ℤ → Sorting σ → Option (ℤ × Sorting σ)
  | 0, _, _, _ => none
  | fuel + 1, seg1, seg2, s =>
    match scanUp compare nmemb siz begin seg2 (fuel + 1) seg1 s with
    | none => none
    | some (seg1, s) =>
      match scanDown compare nmemb siz begin seg1 (fuel + 1) seg2 s with
      | none => none
      | some (seg2, s) =>
        if seg2 ≤ seg1 then some (seg2, s)
        else
          match swapAt nmemb siz seg1 seg2 s with
          | none => none
          | some s => segments begin fuel (seg1 + siz) (seg2 - siz) s

/-- One turn of `while (begin < end)`, up to the place of the pivot. The offset is a `uint`. -/
def divide (begin last : ℤ) (s : Sorting σ) : Option (ℤ × Sorting σ) :=
  let offset := (last - begin) / 2 % 2 ^ 32
  match swapAt nmemb siz begin (begin + (offset - offset % siz)) s with
  | none => none
  | some s =>
    match segments compare nmemb siz begin ((last - begin).toNat + 1) (begin + siz) last s with
    | none => none
    | some (seg2, s) =>
      match swapAt nmemb siz begin seg2 s with
      | none => none
      | some s => some (seg2, s)

/-- A part with at least two elements is kept for later. `loop` is the length of the stack. -/
def push (begin last : ℤ) (stack : List (ℤ × ℤ)) : Option (List (ℤ × ℤ)) :=
  if begin < last then
    if stack.length < qsortStackSize then some ((begin, last) :: stack) else none
  else some stack

def sortLoop : ℕ → List (ℤ × ℤ) → ℤ → ℤ → Sorting σ → Option (Sorting σ)
  | 0, _, _, _, _ => none
  | fuel + 1, stack, begin, last, s =>
    if begin < last then
      match divide compare nmemb siz begin last s with
      | none => none
      | some (seg2, s) =>
        if seg2 - begin ≤ last - seg2 then
          match push (seg2 + siz) last stack with
          | none => none
          | some stack => sortLoop fuel stack begin (seg2 - siz) s
        else
          match push begin (seg2 - siz) stack with
          | none => none
          | some stack => sortLoop fuel stack (seg2 + siz) last s
    else
      match stack with
      | [] => some s
      | (begin, last) :: stack => sortLoop fuel stack begin last s

/-- `zend_qsort` -/
def zendQsort (fuel : ℕ) (s : Sorting σ) : Option (Sorting σ) :=
  sortLoop compare nmemb siz fuel [] 0 ((nmemb - 1) * siz) s

def elements (mem : Mem) : List (List UInt8) :=
  (List.range nmemb).map fun i : ℕ => element siz mem (i * siz)

/-! ## What an exchange does -/

section Exchange

variable {mem : Mem} {a b : ℤ}

/-- The `n` bytes at `a` and at `b` are the same or apart. -/
def Apart (n : ℕ) (a b : ℤ) : Prop := a = b ∨ a + n ≤ b ∨ b + n ≤ a

theorem exchange_apply {n : ℕ} (h : Apart n a b) (q : ℤ) :
    exchange n mem a b q =
      if a ≤ q ∧ q < a + n then mem (b + (q - a))
      else if b ≤ q ∧ q < b + n then mem (a + (q - b)) else mem q := by
  unfold exchange Mem.store
  dsimp only
  by_cases hb : b ≤ q ∧ q < b + n
  · rw [if_pos hb]
    split
    · next ha =>
      obtain rfl | hab | hab := h
      · rfl
      · omega
      · omega
    · rfl
  · rw [if_neg hb, if_neg hb]

theorem exchange_add {m n : ℕ} (h : Apart (m + n) a b) :
    exchange n (exchange m mem a b) (a + m) (b + m) = exchange (m + n) mem a b := by
  have hm : Apart m a b := by
    unfold Apart at h ⊢
    push_cast at h
    omega
  have hn : Apart n (a + m) (b + m) := by
    unfold Apart at h ⊢
    push_cast at h
    omega
  unfold Apart at h
  push_cast at h
  funext q
  simp only [exchange_apply h, exchange_apply hm, exchange_apply hn, Nat.cast_add]
  split_ifs <;> first | rfl | omega | (congr 1; omega)

theorem exchange_zero : exchange 0 mem a b = mem := by
  funext q
  rw [exchange_apply (by unfold Apart; omega)]
  rw [if_neg (by omega), if_neg (by omega)]

theorem swapChars_eq (siz i : ℕ) (h : Apart (siz + 1 - i) a b) :
    swapChars siz i a b mem = exchange (siz + 1 - i) mem a b := by
  induction hr : siz + 1 - i generalizing i a b mem with
  | zero =>
    rw [swapChars, if_neg (by omega), exchange_zero]
  | succ r ih =>
    rw [hr] at h
    have hnext : Apart (siz + 1 - (i + 1)) (a + 1) (b + 1) := by
      unfold Apart at h ⊢
      omega
    rw [swapChars, if_pos (by omega), ih (i + 1) hnext (by omega)]
    rw [Nat.add_comm r 1] at h ⊢
    exact exchange_add h

variable (mem) in
theorem swapInts_eq (siz i : ℕ) (h : Apart (siz + sizeofInt - i) a b) :
    ∃ m : ℕ, swapInts siz i a b mem = (i + m, a + m, b + m, exchange m mem a b) ∧ siz < i + m ∧
      (i ≤ siz + sizeofInt → i + m ≤ siz + sizeofInt) := by
  induction hr : siz + sizeofInt - i using Nat.strong_induction_on generalizing i a b mem with
  | h r ih =>
    rw [hr] at h
    rw [swapInts]
    by_cases hi : i ≤ siz
    · rw [sizeofInt] at hr
      have hnext : Apart (siz + sizeofInt - (i + sizeofInt)) (a + sizeofInt) (b + sizeofInt) := by
        rw [sizeofInt]
        unfold Apart at h ⊢
        push_cast at h ⊢
        omega
      have hrest := @ih (siz + sizeofInt - (i + sizeofInt)) (by rw [sizeofInt]; omega)
        (exchange sizeofInt mem a b) _ _ _ hnext rfl
      obtain ⟨m, heq, hm, hle⟩ := hrest
      have hadd : exchange m (exchange sizeofInt mem a b) (a + sizeofInt) (b + sizeofInt) =
          exchange (sizeofInt + m) mem a b := by
        refine exchange_add ?_
        have hle := hle (by rw [sizeofInt]; omega)
        rw [sizeofInt] at hle ⊢
        unfold Apart at h ⊢
        push_cast at h ⊢
        omega
      refine ⟨sizeofInt + m, ?_, by omega, fun _ => ?_⟩
      · rw [if_pos hi, heq, hadd]
        push_cast
        simp only [Nat.add_assoc, Int.add_assoc]
      · have hle := hle (by rw [sizeofInt]; omega)
        omega
    · refine ⟨0, ?_, by omega, fun h => h⟩
      rw [if_neg hi, exchange_zero]
      simp

/-- `_zend_qsort_swap` exchanges elements of any size. -/
theorem zendQsortSwap_eq (siz : ℕ) (h : Apart siz a b) :
    zendQsortSwap mem a b siz = exchange siz mem a b := by
  have hints : Apart (siz + sizeofInt - sizeofInt) a b := by rwa [Nat.add_sub_cancel]
  obtain ⟨m, heq, hm, hle⟩ := swapInts_eq mem siz sizeofInt hints
  have hle := hle (Nat.le_add_left _ _)
  unfold zendQsortSwap
  rw [heq]
  dsimp only
  have hrest : siz + 1 - (sizeofInt + m - sizeofInt + 1) = siz - m := by omega
  have hm' : m ≤ siz := by omega
  rw [swapChars_eq, hrest, exchange_add, Nat.add_sub_cancel' hm']
  · rwa [Nat.add_sub_cancel' hm']
  · rw [hrest]
    unfold Apart at h ⊢
    omega

end Exchange

/-! ## The elements -/

section Elements

variable {nmemb siz} {mem : Mem} {i j : ℤ}

variable (siz) in
theorem apart_blocks (hij : i ≠ j) : Apart siz (i * siz) (j * siz) := by
  rcases lt_or_gt_of_ne hij with hlt | hlt
  · have hle := mul_le_mul_of_nonneg_right (show i + 1 ≤ j by omega) (Int.natCast_nonneg siz)
    rw [add_mul, one_mul] at hle
    exact Or.inr (Or.inl hle)
  · have hle := mul_le_mul_of_nonneg_right (show j + 1 ≤ i by omega) (Int.natCast_nonneg siz)
    rw [add_mul, one_mul] at hle
    exact Or.inr (Or.inr hle)

theorem apart_elements (i j : ℤ) : Apart siz (i * siz) (j * siz) := by
  by_cases hij : i = j
  · rw [hij]
    exact Or.inl rfl
  · exact apart_blocks siz hij

theorem not_in_block {k t : ℤ} (hik : i ≠ k) (ht : 0 ≤ t) (ht' : t < siz) :
    ¬ (i * siz ≤ k * siz + t ∧ k * siz + t < i * siz + siz) := by
  obtain heq | hle | hle := apart_blocks siz hik
  · have hzero := mul_right_cancel₀ (show (siz : ℤ) ≠ 0 by omega) heq
    exact absurd hzero hik
  · omega
  · omega

theorem element_swap (k : ℤ) :
    element siz (zendQsortSwap mem (i * siz) (j * siz) siz) (k * siz) =
      element siz mem (Equiv.swap i j k * siz) := by
  rw [zendQsortSwap_eq siz (apart_elements i j)]
  refine List.map_congr_left fun t ht => ?_
  rw [List.mem_range] at ht
  rw [exchange_apply (apart_elements i j)]
  by_cases hki : k = i
  · rw [if_pos (by rw [hki]; omega), hki, Equiv.swap_apply_left]
    congr 1
    omega
  rw [if_neg (not_in_block (Ne.symm hki) (by omega) (by omega))]
  by_cases hkj : k = j
  · rw [if_pos (by rw [hkj]; omega), hkj, Equiv.swap_apply_right]
    congr 1
    omega
  · rw [if_neg (not_in_block (Ne.symm hkj) (by omega) (by omega)),
      Equiv.swap_apply_of_ne_of_ne hki hkj]

variable (siz) in
theorem inArray_mul (hi : 0 ≤ i) (hi' : i < nmemb) : InArray nmemb siz (i * siz) := by
  have hle := mul_le_mul_of_nonneg_right (show i + 1 ≤ nmemb by omega) (Int.natCast_nonneg siz)
  rw [add_mul, one_mul] at hle
  exact ⟨mul_nonneg hi (Int.natCast_nonneg siz), hle⟩

/-- The element `i` in a state of the sort. -/
def Sorting.elem (siz : ℕ) (s : Sorting σ) (i : ℤ) : List UInt8 := element siz s.mem (i * siz)

variable (nmemb siz) in
/-- What was done between two states: elements from `lo` to `hi` were permuted. -/
structure Moved (lo hi : ℤ) (s s' : Sorting σ) : Prop where
  frame : ∀ p, ¬ (0 ≤ p ∧ p < nmemb * siz) → s'.mem p = s.mem p
  permuted : PermutedOn lo hi (s.elem siz) (s'.elem siz)

variable {lo hi lo' hi' : ℤ} {s s' s'' : Sorting σ}

theorem Moved.refl (lo hi : ℤ) (s : Sorting σ) (state : σ) :
    Moved nmemb siz lo hi s { s with state := state } :=
  ⟨fun _ _ => rfl, .refl lo hi _⟩

theorem Moved.trans (h : Moved nmemb siz lo hi s s') (h' : Moved nmemb siz lo hi s' s'') :
    Moved nmemb siz lo hi s s'' :=
  ⟨fun p hp => (h'.frame p hp).trans (h.frame p hp), h.permuted.trans h'.permuted⟩

theorem Moved.mono (h : Moved nmemb siz lo hi s s') (hlo : lo' ≤ lo) (hhi : hi ≤ hi') :
    Moved nmemb siz lo' hi' s s' :=
  ⟨h.frame, h.permuted.mono hlo hhi⟩

variable (siz) in
theorem swapAt_spec (hi : 0 ≤ i) (hi' : i < nmemb) (hj : 0 ≤ j) (hj' : j < nmemb)
    (s : Sorting σ) : ∃ s', swapAt nmemb siz (i * siz) (j * siz) s = some s' ∧
      (∀ k, s'.elem siz k = s.elem siz (Equiv.swap i j k)) ∧
      ∀ lo hi, lo ≤ i → i ≤ hi → lo ≤ j → j ≤ hi → Moved nmemb siz lo hi s s' := by
  have hini := inArray_mul siz hi hi'
  have hinj := inArray_mul siz hj hj'
  refine ⟨{ s with mem := zendQsortSwap s.mem (i * siz) (j * siz) siz }, if_pos ⟨hini, hinj⟩,
    element_swap, fun lo hi hli hih hlj hjh => ⟨fun p hp => ?_, ?_⟩⟩
  · dsimp only
    unfold InArray at hini hinj
    rw [zendQsortSwap_eq siz (apart_elements i j), exchange_apply (apart_elements i j),
      if_neg (by omega), if_neg (by omega)]
  · exact permutedOn_swap hli hih hlj hjh element_swap

theorem compareAt_eq (hi : 0 ≤ i) (hi' : i < nmemb) (hj : 0 ≤ j) (hj' : j < nmemb)
    (s : Sorting σ) : compareAt compare nmemb siz (i * siz) (j * siz) s =
      some ((compare s.state (s.elem siz i) (s.elem siz j)).1,
        { s with state := (compare s.state (s.elem siz i) (s.elem siz j)).2 }) :=
  if_pos ⟨inArray_mul siz hi hi', inArray_mul siz hj hj'⟩

end Elements

/-! ## A segment is divided -/

section Divide

variable {nmemb siz}

/-- The function has once answered that `x` is not above `y`. -/
def Said (x y : List UInt8) : Prop :=
  ∃ state, (compare state x y).1 ≤ 0 ∨ 0 < (compare state y x).1

theorem mul_siz_lt (hsiz : 0 < siz) {i j : ℤ} : i * (siz : ℤ) < j * siz ↔ i < j :=
  mul_lt_mul_iff_left₀ (by omega)

theorem mul_siz_le (hsiz : 0 < siz) {i j : ℤ} : i * (siz : ℤ) ≤ j * siz ↔ i ≤ j :=
  mul_le_mul_iff_left₀ (by omega)

variable {b i j : ℤ}

theorem scanUp_spec (hsiz : 0 < siz) (hb : 0 ≤ b) (hbi : b < i) (hj : j < nmemb) (fuel : ℕ)
    (hfuel : j - i < fuel) (hpos : 0 < fuel) (s : Sorting σ) :
    ∃ (i' : ℤ) (state : σ), scanUp compare nmemb siz (b * siz) (j * siz) fuel (i * siz) s =
        some (i' * siz, { s with state := state }) ∧ i ≤ i' ∧ (i ≤ j → i' ≤ j) ∧
      (j < i → i' = i) ∧
      (∀ k, i ≤ k → k < i' → Said compare (s.elem siz k) (s.elem siz b)) ∧
      (i' < j → Said compare (s.elem siz b) (s.elem siz i')) := by
  induction fuel generalizing i s with
  | zero => omega
  | succ fuel ih =>
    rw [scanUp]
    by_cases hij : i < j
    · rw [if_pos ((mul_siz_lt hsiz).mpr hij),
        compareAt_eq compare hb (by omega) (by omega) (by omega)]
      dsimp only
      by_cases habove : 0 < (compare s.state (s.elem siz b) (s.elem siz i)).1
      · rw [if_pos habove, show i * (siz : ℤ) + siz = (i + 1) * siz by rw [add_mul, one_mul]]
        obtain ⟨i', state, heq, hle, hlej, -, hsaid, hstop⟩ := ih (i := i + 1) (by omega) (by omega)
          (by omega) { s with state := (compare s.state (s.elem siz b) (s.elem siz i)).2 }
        refine ⟨i', state, heq, by omega, fun _ => hlej (by omega), by omega, ?_, hstop⟩
        intro k hk hk'
        by_cases hki : k = i
        · rw [hki]
          exact ⟨s.state, Or.inr habove⟩
        · exact hsaid k (by omega) hk'
      · rw [if_neg habove]
        exact ⟨i, _, rfl, le_rfl, fun h => h, fun _ => rfl, fun k hk hk' => by omega,
          fun _ => ⟨s.state, Or.inl (by omega)⟩⟩
    · rw [if_neg (mt (mul_siz_lt hsiz).mp hij)]
      exact ⟨i, s.state, rfl, le_rfl, fun h => h, fun _ => rfl, fun k hk hk' => by omega,
        fun h => absurd h hij⟩

theorem scanDown_spec (hsiz : 0 < siz) (hb : 0 ≤ b) (hbi : b < i) (hj : j < nmemb) (fuel : ℕ)
    (hfuel : j - i + 1 < fuel) (hij : i ≤ j + 1) (s : Sorting σ) :
    ∃ (j' : ℤ) (state : σ), scanDown compare nmemb siz (b * siz) (i * siz) fuel (j * siz) s =
        some (j' * siz, { s with state := state }) ∧ j' ≤ j ∧ i ≤ j' + 1 ∧
      (∀ k, j' < k → k ≤ j → Said compare (s.elem siz b) (s.elem siz k)) ∧
      (i ≤ j' → Said compare (s.elem siz j') (s.elem siz b)) := by
  induction fuel generalizing j s with
  | zero => omega
  | succ fuel ih =>
    rw [scanDown]
    by_cases hle : i ≤ j
    · rw [if_pos ((mul_siz_le hsiz).mpr hle),
        compareAt_eq compare (by omega) hj hb (by omega)]
      dsimp only
      by_cases habove : 0 < (compare s.state (s.elem siz j) (s.elem siz b)).1
      · rw [if_pos habove, show j * (siz : ℤ) - siz = (j - 1) * siz by rw [sub_mul, one_mul]]
        obtain ⟨j', state, heq, hlej, hij', hsaid, hstop⟩ := ih (j := j - 1) (by omega) (by omega)
          (by omega) { s with state := (compare s.state (s.elem siz j) (s.elem siz b)).2 }
        refine ⟨j', state, heq, by omega, hij', ?_, hstop⟩
        intro k hk hk'
        by_cases hkj : k = j
        · rw [hkj]
          exact ⟨s.state, Or.inr habove⟩
        · exact hsaid k hk (by omega)
      · rw [if_neg habove]
        exact ⟨j, _, rfl, le_rfl, hij, fun k hk hk' => by omega,
          fun _ => ⟨s.state, Or.inl (by omega)⟩⟩
    · rw [if_neg (mt (mul_siz_le hsiz).mp hle)]
      exact ⟨j, s.state, rfl, le_rfl, hij, fun k hk hk' => by omega, fun h => absurd h hle⟩

theorem segments_spec (hsiz : 0 < siz) {last : ℤ} (hb : 0 ≤ b) (hlast : last < nmemb) (fuel : ℕ)
    (hbi : b < i) (hij : i ≤ j + 1) (hj : j ≤ last) (hfuel : j - i + 2 ≤ fuel) (s : Sorting σ)
    (hlow : ∀ k, b < k → k < i → Said compare (s.elem siz k) (s.elem siz b))
    (hhigh : ∀ k, j < k → k ≤ last → Said compare (s.elem siz b) (s.elem siz k)) :
    ∃ (p : ℤ) (s' : Sorting σ),
      segments compare nmemb siz (b * siz) fuel (i * siz) (j * siz) s = some (p * siz, s') ∧
      b ≤ p ∧ p ≤ last ∧ Moved nmemb siz (b + 1) last s s' ∧
      (∀ k, b < k → k ≤ p → Said compare (s'.elem siz k) (s'.elem siz b)) ∧
      ∀ k, p < k → k ≤ last → Said compare (s'.elem siz b) (s'.elem siz k) := by
  induction fuel generalizing i j s with
  | zero => omega
  | succ fuel ih =>
    obtain ⟨i', state, hup, hle, hlej, hstay, hsaidup, hstopup⟩ :=
      scanUp_spec compare hsiz hb hbi (show j < nmemb by omega) (fuel + 1) (by omega) (by omega) s
    obtain ⟨j', state', hdown, hle', hij', hsaiddown, hstopdown⟩ :=
      scanDown_spec compare hsiz hb (show b < i' by omega) (show j < nmemb by omega) (fuel + 1)
        (by omega) (by omega) { s with state := state }
    rw [segments, hup]
    dsimp only
    rw [hdown]
    dsimp only
    -- what the two scans have found, with what was known before
    have hlow' : ∀ k, b < k → k < i' → Said compare (s.elem siz k) (s.elem siz b) := by
      intro k hk hk'
      by_cases hki : k < i
      · exact hlow k hk hki
      · exact hsaidup k (by omega) hk'
    have hhigh' : ∀ k, j' < k → k ≤ last → Said compare (s.elem siz b) (s.elem siz k) := by
      intro k hk hk'
      by_cases hkj : k ≤ j
      · exact hsaiddown k hk hkj
      · exact hhigh k (by omega) hk'
    by_cases hmeet : j' ≤ i'
    · rw [if_pos ((mul_siz_le hsiz).mpr hmeet)]
      refine ⟨j', _, rfl, by omega, by omega, .refl _ _ s state', ?_, hhigh'⟩
      intro k hk hk'
      by_cases hki : k < i'
      · exact hlow' k hk hki
      · rw [show k = j' by omega]
        exact hstopdown (by omega)
    · rw [if_neg (mt (mul_siz_le hsiz).mp hmeet)]
      obtain ⟨s₁, hswap, helem, hmoved⟩ := swapAt_spec siz (show 0 ≤ i' by omega)
        (show i' < nmemb by omega) (show 0 ≤ j' by omega) (by omega) { s with state := state' }
      rw [hswap]
      dsimp only
      have helem' : ∀ k, s₁.elem siz k = s.elem siz (Equiv.swap i' j' k) := helem
      have hother : ∀ k, k ≠ i' → k ≠ j' → s₁.elem siz k = s.elem siz k := fun k hki hkj => by
        rw [helem', Equiv.swap_apply_of_ne_of_ne hki hkj]
      have hpivot : s₁.elem siz b = s.elem siz b := hother b (by omega) (by omega)
      have hleft : s₁.elem siz i' = s.elem siz j' := by rw [helem', Equiv.swap_apply_left]
      have hright : s₁.elem siz j' = s.elem siz i' := by rw [helem', Equiv.swap_apply_right]
      rw [show i' * (siz : ℤ) + siz = (i' + 1) * siz by rw [add_mul, one_mul],
        show j' * (siz : ℤ) - siz = (j' - 1) * siz by rw [sub_mul, one_mul]]
      have hlow₁ : ∀ k, b < k → k < i' + 1 → Said compare (s₁.elem siz k) (s₁.elem siz b) := by
        intro k hk hk'
        rw [hpivot]
        by_cases hki : k = i'
        · rw [hki, hleft]
          exact hstopdown (by omega)
        · rw [hother k hki (by omega)]
          exact hlow' k hk (by omega)
      have hhigh₁ : ∀ k, j' - 1 < k → k ≤ last →
          Said compare (s₁.elem siz b) (s₁.elem siz k) := by
        intro k hk hk'
        rw [hpivot]
        by_cases hkj : k = j'
        · rw [hkj, hright]
          exact hstopup (by omega)
        · rw [hother k (by omega) hkj]
          exact hhigh' k (by omega) hk'
      obtain ⟨p, s', heq, hbp, hpl, hmoved', hbelow, habove⟩ := ih (i := i' + 1) (j := j' - 1)
        (by omega) (by omega) (by omega) (by omega) s₁ hlow₁ hhigh₁
      have hmoved₁ := hmoved (b + 1) last (by omega) (by omega) (by omega) (by omega)
      exact ⟨p, s', heq, hbp, hpl, ((Moved.refl _ _ s state').trans hmoved₁).trans hmoved', hbelow,
        habove⟩

variable (siz) in
theorem offset_mul {e : ℤ} (hbe : b ≤ e) : ∃ m : ℤ, b ≤ m ∧ m ≤ e ∧
    b * siz + ((e * siz - b * siz) / 2 % 2 ^ 32 - (e * siz - b * siz) / 2 % 2 ^ 32 % siz) =
      m * siz := by
  have hlen : e * siz - b * siz = (e - b) * siz := by rw [sub_mul]
  have hnonneg : 0 ≤ (e - b) * (siz : ℤ) := mul_nonneg (by omega) (Int.natCast_nonneg siz)
  rw [hlen]
  have hoffset : 0 ≤ (e - b) * (siz : ℤ) / 2 % 2 ^ 32 ∧
      (e - b) * (siz : ℤ) / 2 % 2 ^ 32 ≤ (e - b) * siz := by omega
  generalize (e - b) * (siz : ℤ) / 2 % 2 ^ 32 = offset at hoffset ⊢
  refine ⟨b + offset / siz, ?_, ?_, ?_⟩
  · have hq := Int.ediv_nonneg hoffset.1 (Int.natCast_nonneg siz)
    omega
  · by_cases hsiz : siz = 0
    · rw [hsiz, Nat.cast_zero, Int.ediv_zero]
      omega
    · have hq := Int.ediv_le_ediv (show 0 < (siz : ℤ) by omega) hoffset.2
      rw [Int.mul_ediv_cancel _ (by omega)] at hq
      omega
  · have hdiv := Int.mul_ediv_add_emod offset siz
    rw [add_mul, mul_comm (offset / siz)]
    omega

theorem divide_spec (hsiz : 0 < siz) {e : ℤ} (hb : 0 ≤ b) (hbe : b < e) (he : e < nmemb)
    (s : Sorting σ) : ∃ (p : ℤ) (s' : Sorting σ),
      divide compare nmemb siz (b * siz) (e * siz) s = some (p * siz, s') ∧ b ≤ p ∧ p ≤ e ∧
      Moved nmemb siz b e s s' ∧ DividedAt (Said compare) b p e (s'.elem siz) := by
  obtain ⟨m, hbm, hme, hoffset⟩ := offset_mul siz (le_of_lt hbe)
  obtain ⟨s₁, hswap₁, -, hmoved₁⟩ := swapAt_spec siz hb
    (show b < nmemb by omega) (show 0 ≤ m by omega) (by omega) s
  have hbytes : e - b ≤ (e - b) * siz := le_mul_of_one_le_right (by omega) (by omega)
  rw [sub_mul] at hbytes
  obtain ⟨p, s₂, hsegments, hbp, hpe, hmoved₂, hbelow, habove⟩ := segments_spec compare hsiz
    hb he ((e * siz - b * siz).toNat + 1) (show b < b + 1 by omega) (show b + 1 ≤ e + 1 by omega)
    le_rfl (by omega) s₁ (fun k hk hk' => by omega) (fun k hk hk' => by omega)
  obtain ⟨s₃, hswap₃, helem, hmoved₃⟩ := swapAt_spec siz hb
    (show b < nmemb by omega) (show 0 ≤ p by omega) (by omega) s₂
  have hleft : s₃.elem siz b = s₂.elem siz p := by rw [helem, Equiv.swap_apply_left]
  have hright : s₃.elem siz p = s₂.elem siz b := by rw [helem, Equiv.swap_apply_right]
  have hother : ∀ k, k ≠ b → k ≠ p → s₃.elem siz k = s₂.elem siz k := fun k hkb hkp => by
    rw [helem, Equiv.swap_apply_of_ne_of_ne hkb hkp]
  refine ⟨p, s₃, ?_, hbp, hpe, ?_, ?_, ?_⟩
  · unfold divide
    dsimp only
    rw [hoffset, hswap₁]
    dsimp only
    rw [show b * (siz : ℤ) + siz = (b + 1) * siz by rw [add_mul, one_mul], hsegments]
    dsimp only
    rw [hswap₃]
  · exact ((hmoved₁ b e le_rfl (by omega) hbm hme).trans
      (hmoved₂.mono (by omega) le_rfl)).trans (hmoved₃ b e le_rfl (by omega) hbp hpe)
  · intro k hk hkp
    rw [hright]
    by_cases hkb : k = b
    · rw [hkb, hleft]
      exact hbelow p (by omega) le_rfl
    · rw [hother k hkb (by omega)]
      exact hbelow k (by omega) (by omega)
  · intro k hk hke
    rw [hright, hother k (by omega) (by omega)]
    exact habove k (by omega) hke

end Divide

/-! ## The whole array -/

section Sorted

/-- The function tells what is above what in a total preorder. -/
structure TotalPreorder (le : List UInt8 → List UInt8 → Prop) : Prop where
  total : ∀ x y, le x y ∨ le y x
  trans : ∀ x y z, le x y → le y z → le x z
  compare : ∀ state x y, 0 < (compare state x y).1 ↔ ¬ le x y

variable {compare}

theorem TotalPreorder.le_of_said {le : List UInt8 → List UInt8 → Prop}
    (h : TotalPreorder compare le) {x y : List UInt8} (hsaid : Said compare x y) : le x y := by
  obtain ⟨state, hnot | habove⟩ := hsaid
  · by_contra hle
    have hpos := (h.compare state x y).mpr hle
    omega
  · have hnot := (h.compare state y x).mp habove
    exact (h.total x y).resolve_right hnot

theorem TotalPreorder.dividedAt {le : List UInt8 → List UInt8 → Prop}
    (h : TotalPreorder compare le) {b p e : ℤ} {a : ℤ → List UInt8}
    (hdivided : DividedAt (Said compare) b p e a) : DividedAt le b p e a :=
  ⟨fun i hi hip => h.le_of_said (hdivided.below i hi hip),
    fun i hi hie => h.le_of_said (hdivided.above i hi hie)⟩

variable (compare) in
/-- The loops sort the elements from `b` to `e` and leave the stack as it is. -/
def Sorts (stack : List (ℤ × ℤ)) (b e : ℤ) : Prop :=
  ∀ s : Sorting σ, ∃ (rounds : ℕ) (x y : ℤ) (s' : Sorting σ), y ≤ x ∧
    (∀ fuel, sortLoop compare nmemb siz (rounds + fuel) stack (b * siz) (e * siz) s =
      sortLoop compare nmemb siz fuel stack x y s') ∧
    Moved nmemb siz b e s s' ∧
    ∀ le, TotalPreorder compare le → SortedOn le b e (s'.elem siz)

/-- The stack with a part that is kept for later. -/
def pushed (siz : ℕ) (stack : List (ℤ × ℤ)) (b e : ℤ) : List (ℤ × ℤ) :=
  if b < e then (b * (siz : ℤ), e * (siz : ℤ)) :: stack else stack

variable {nmemb siz} {b e b' e' : ℤ} {stack : List (ℤ × ℤ)}

theorem push_eq (hsiz : 0 < siz) (h : b < e → stack.length < qsortStackSize) :
    push (b * siz) (e * siz) stack = some (pushed siz stack b e) := by
  unfold push pushed
  by_cases hbe : b < e
  · rw [if_pos ((mul_siz_lt hsiz).mpr hbe), if_pos (h hbe), if_pos hbe]
  · rw [if_neg (mt (mul_siz_lt hsiz).mp hbe), if_neg hbe]

theorem sorts_both (h : Sorts compare nmemb siz (pushed siz stack b' e') b e)
    (h' : Sorts compare nmemb siz stack b' e') (s : Sorting σ) :
    ∃ (rounds : ℕ) (x y : ℤ) (s₁ s₂ : Sorting σ), y ≤ x ∧
      (∀ fuel, sortLoop compare nmemb siz (rounds + fuel) (pushed siz stack b' e') (b * siz)
        (e * siz) s = sortLoop compare nmemb siz fuel stack x y s₂) ∧
      Moved nmemb siz b e s s₁ ∧ Moved nmemb siz b' e' s₁ s₂ ∧
      ∀ le, TotalPreorder compare le →
        SortedOn le b e (s₁.elem siz) ∧ SortedOn le b' e' (s₂.elem siz) := by
  obtain ⟨rounds, x, y, s₁, hyx, hloop, hmoved, hsorted⟩ := h s
  by_cases hbe : b' < e'
  · obtain ⟨rounds', x', y', s₂, hyx', hloop', hmoved', hsorted'⟩ := h' s₁
    refine ⟨rounds + (1 + rounds'), x', y', s₁, s₂, hyx', fun fuel => ?_, hmoved, hmoved',
      fun le hle => ⟨hsorted le hle, hsorted' le hle⟩⟩
    rw [Nat.add_assoc, hloop, ← hloop', pushed, if_pos hbe,
      show 1 + rounds' + fuel = (rounds' + fuel) + 1 by omega, sortLoop,
      if_neg (by omega)]
  · refine ⟨rounds, x, y, s₁, s₁, hyx, fun fuel => ?_, hmoved, .refl _ _ s₁ s₁.state,
      fun le hle => ⟨hsorted le hle, sortedOn_of_le (by omega)⟩⟩
    rw [hloop, pushed, if_neg hbe]

variable (siz) in
theorem depth_half (hdepth : (e - b + 1) * 2 ^ stack.length ≤ nmemb) {c d : ℤ}
    (hhalf : 2 * (d - c + 1) ≤ e - b) (c' d' : ℤ) :
    (d - c + 1) * 2 ^ (pushed siz stack c' d').length ≤ nmemb := by
  have hpow : (0 : ℤ) < 2 ^ stack.length := by positivity
  have hdouble : 2 * (d - c + 1) * 2 ^ stack.length ≤ (e - b + 1) * 2 ^ stack.length :=
    mul_le_mul_of_nonneg_right (by omega) hpow.le
  unfold pushed
  split
  · rw [List.length_cons, pow_succ]
    have heq : (d - c + 1) * (2 ^ stack.length * 2) = 2 * (d - c + 1) * 2 ^ stack.length := by ring
    linarith
  · by_cases hneg : d - c + 1 ≤ 0
    · have hle := mul_nonpos_of_nonpos_of_nonneg hneg hpow.le
      omega
    · have hle : (d - c + 1) * 2 ^ stack.length ≤ (e - b + 1) * 2 ^ stack.length :=
        mul_le_mul_of_nonneg_right (by omega) hpow.le
      linarith

theorem depth_part (hdepth : (e - b + 1) * 2 ^ stack.length ≤ nmemb) {c d : ℤ}
    (hle : d - c ≤ e - b) : (d - c + 1) * 2 ^ stack.length ≤ nmemb := by
  have hpow : (0 : ℤ) < 2 ^ stack.length := by positivity
  have hle : (d - c + 1) * 2 ^ stack.length ≤ (e - b + 1) * 2 ^ stack.length :=
    mul_le_mul_of_nonneg_right (by omega) hpow.le
  linarith

theorem length_lt_stackSize (hnmemb : nmemb < 2 ^ 64)
    (hdepth : (e - b + 1) * 2 ^ stack.length ≤ nmemb) (hbe : b < e) :
    stack.length < qsortStackSize := by
  by_contra hfull
  have hpow : (2 : ℤ) ^ 64 ≤ 2 ^ stack.length :=
    pow_le_pow_right₀ (by omega) (by unfold qsortStackSize at hfull; omega)
  have hle : 1 * (2 : ℤ) ^ stack.length ≤ (e - b + 1) * 2 ^ stack.length :=
    mul_le_mul_of_nonneg_right (by omega) (by positivity)
  omega

theorem sortLoop_of_lt {begin last : ℤ} (h : begin < last) (fuel : ℕ) (s : Sorting σ) :
    sortLoop compare nmemb siz (fuel + 1) stack begin last s =
      match divide compare nmemb siz begin last s with
      | none => none
      | some (seg2, s) =>
        if seg2 - begin ≤ last - seg2 then
          match push (seg2 + siz) last stack with
          | none => none
          | some stack => sortLoop compare nmemb siz fuel stack begin (seg2 - siz) s
        else
          match push begin (seg2 - siz) stack with
          | none => none
          | some stack => sortLoop compare nmemb siz fuel stack (seg2 + siz) last s := by
  cases stack with
  | nil => rw [sortLoop, if_pos h]
  | cons range stack => rw [sortLoop, if_pos h]

theorem sorts (hsiz : 0 < siz) (hnmemb : nmemb < 2 ^ 64) (hb : 0 ≤ b) (he : e < nmemb)
    (hdepth : (e - b + 1) * 2 ^ stack.length ≤ nmemb) : Sorts compare nmemb siz stack b e := by
  induction hlen : (e - b).toNat using Nat.strong_induction_on generalizing b e stack with
  | h len ih =>
    intro s
    by_cases hbe : b < e
    · obtain ⟨p, s₁, hdivide, hbp, hpe, hmoved, hdivided⟩ :=
        divide_spec compare hsiz hb hbe he s
      have hspace := length_lt_stackSize hnmemb hdepth hbe
      have hside : p * (siz : ℤ) - b * siz ≤ e * siz - p * siz ↔ p - b ≤ e - p := by
        rw [← sub_mul, ← sub_mul, mul_siz_le hsiz]
      have hright : p * (siz : ℤ) + siz = (p + 1) * siz := by rw [add_mul, one_mul]
      have hleft : p * (siz : ℤ) - siz = (p - 1) * siz := by rw [sub_mul, one_mul]
      have hround : ∀ rounds fuel : ℕ,
          sortLoop compare nmemb siz (rounds + 1 + fuel) stack (b * siz) (e * siz) s =
          if p - b ≤ e - p then
            sortLoop compare nmemb siz (rounds + fuel) (pushed siz stack (p + 1) e) (b * siz)
              ((p - 1) * siz) s₁
          else sortLoop compare nmemb siz (rounds + fuel) (pushed siz stack b (p - 1))
            ((p + 1) * siz) (e * siz) s₁ := by
        intro rounds fuel
        rw [show rounds + 1 + fuel = (rounds + fuel) + 1 by omega,
          sortLoop_of_lt ((mul_siz_lt hsiz).mpr hbe), hdivide]
        dsimp only
        rw [hright, hleft, push_eq hsiz fun _ => hspace, push_eq hsiz fun _ => hspace]
        by_cases hsmall : p - b ≤ e - p
        · rw [if_pos hsmall, if_pos (hside.mpr hsmall)]
        · rw [if_neg hsmall, if_neg (mt hside.mp hsmall)]
      by_cases hsmall : p - b ≤ e - p
      · -- the left part first
        have hpart := ih _ (by omega) hb (show p - 1 < nmemb by omega)
          (depth_half siz hdepth (c := b) (d := p - 1) (by omega) (p + 1) e) rfl
        have hrest := ih _ (by omega) (show 0 ≤ p + 1 by omega) he
          (depth_part hdepth (c := p + 1) (d := e) (by omega)) rfl
        obtain ⟨rounds, x, y, s₂, s₃, hyx, hloop, hmoved₂, hmoved₃, hsorted⟩ :=
          sorts_both hpart hrest s₁
        refine ⟨rounds + 1, x, y, s₃, hyx, fun fuel => ?_, ?_, fun le hle => ?_⟩
        · rw [hround, if_pos hsmall, hloop]
        · exact (hmoved.trans (hmoved₂.mono le_rfl (by omega))).trans
            (hmoved₃.mono (by omega) le_rfl)
        · have hdivided₃ := ((hle.dividedAt hdivided).permute_below hmoved₂.permuted).permute_above
            hmoved₃.permuted
          refine hdivided₃.sortedOn hle.trans ?_ (hsorted le hle).2
          exact (hsorted le hle).1.congr fun i hi hip => hmoved₃.permuted.outside (by omega)
      · -- the right part first
        have hpart := ih _ (by omega) (show 0 ≤ p + 1 by omega) he
          (depth_half siz hdepth (c := p + 1) (d := e) (by omega) b (p - 1)) rfl
        have hrest := ih _ (by omega) hb (show p - 1 < nmemb by omega)
          (depth_part hdepth (c := b) (d := p - 1) (by omega)) rfl
        obtain ⟨rounds, x, y, s₂, s₃, hyx, hloop, hmoved₂, hmoved₃, hsorted⟩ :=
          sorts_both hpart hrest s₁
        refine ⟨rounds + 1, x, y, s₃, hyx, fun fuel => ?_, ?_, fun le hle => ?_⟩
        · rw [hround, if_neg hsmall, hloop]
        · exact (hmoved.trans (hmoved₂.mono (by omega) le_rfl)).trans
            (hmoved₃.mono le_rfl (by omega))
        · have hdivided₃ := ((hle.dividedAt hdivided).permute_above hmoved₂.permuted).permute_below
            hmoved₃.permuted
          refine hdivided₃.sortedOn hle.trans (hsorted le hle).2 ?_
          exact (hsorted le hle).1.congr fun i hi hip => hmoved₃.permuted.outside (by omega)
    · exact ⟨0, b * siz, e * siz, s, (mul_siz_le hsiz).mpr (by omega),
        fun fuel => by rw [Nat.zero_add], .refl _ _ s s.state,
        fun le _ => sortedOn_of_le (by omega)⟩

variable (compare nmemb siz)

/-- **The sort ends, permutes the array, and sorts it when the function tells a total preorder.** It
leaves everything outside the array as it is. -/
theorem zendQsort_sorts (hnmemb : nmemb < 2 ^ 64) (s : Sorting σ) :
    ∃ fuel s', zendQsort compare nmemb siz fuel s = some s' ∧
      (elements nmemb siz s'.mem).Perm (elements nmemb siz s.mem) ∧
      (∀ p, ¬ (0 ≤ p ∧ p < nmemb * siz) → s'.mem p = s.mem p) ∧
      ∀ le, TotalPreorder compare le → (elements nmemb siz s'.mem).Pairwise le := by
  by_cases hsiz : siz = 0
  · -- there is nothing between `begin` and `end`
    refine ⟨1, s, ?_, List.Perm.refl _, fun _ _ => rfl, fun le hle => ?_⟩
    · rw [zendQsort, sortLoop, if_neg (by rw [hsiz]; simp)]
    · rw [elements, List.pairwise_map]
      refine List.pairwise_of_forall fun i j => ?_
      rw [hsiz]
      exact (hle.total [] []).elim id id
  · have hsorts : Sorts compare nmemb siz [] 0 (nmemb - 1) :=
      sorts (by omega) hnmemb le_rfl (by omega) (by simp)
    obtain ⟨rounds, x, y, s', hyx, hloop, hmoved, hsorted⟩ := hsorts s
    refine ⟨rounds + 1, s', ?_, hmoved.permuted.perm, hmoved.frame,
      fun le hle => (hsorted le hle).pairwise⟩
    rw [Int.zero_mul] at hloop
    rw [zendQsort, hloop, sortLoop, if_neg (by omega)]

def firstBytes (_ : Unit) (x y : List UInt8) : ℤ × Unit :=
  (((x.headD 0).toNat : ℤ) - (y.headD 0).toNat, ())

theorem totalPreorder_firstBytes :
    TotalPreorder firstBytes fun x y => (x.headD 0).toNat ≤ (y.headD 0).toNat where
  total x y := Nat.le_total _ _
  trans x y z := Nat.le_trans
  compare state x y := by
    simp only [firstBytes]
    omega

/-- Three elements of two bytes, by the first of them. -/
theorem zendQsort_three : 3 < 2 ^ 64 ∧ ∃ fuel s',
    zendQsort firstBytes 3 2 fuel ⟨fun p => if p < 2 then 9 else 1, ()⟩ = some s' ∧
    (elements 3 2 s'.mem).Perm (elements 3 2 fun p => if p < 2 then 9 else 1) ∧
    (elements 3 2 s'.mem).Pairwise fun x y => (x.headD 0).toNat ≤ (y.headD 0).toNat := by
  obtain ⟨fuel, s', heq, hperm, -, hsorted⟩ := zendQsort_sorts firstBytes 3 2 (by decide)
    ⟨fun p => if p < 2 then 9 else 1, ()⟩
  exact ⟨by decide, fuel, s', heq, hperm, hsorted _ totalPreorder_firstBytes⟩

end Sorted

end PhpRuntime.Sort
