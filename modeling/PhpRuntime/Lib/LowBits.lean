import Mathlib.Algebra.Group.Nat.Defs
import Mathlib.Data.BitVec
import Mathlib.Tactic.Common
import Mathlib.Tactic.Positivity

/-!
# The low bits of a machine word

Bits that are queued in a word: the value of the `n` lowest bits, and what it becomes when bits
are moved within a word or put behind others. The word may hold anything above its low bits.
-/

set_option autoImplicit false

namespace PhpRuntime.Lib.LowBits

variable {w : ℕ} {x y i : BitVec w} {n m k b j v : ℕ}

/-- The value of the `n` lowest bits. -/
def low (n : ℕ) (x : BitVec w) : ℕ := x.toNat % 2 ^ n

theorem low_lt (n : ℕ) (x : BitVec w) : low n x < 2 ^ n := Nat.mod_lt _ (by positivity)

@[simp] theorem low_zero_width (x : BitVec w) : low 0 x = 0 := Nat.mod_one _

theorem testBit_low (hj : j < n) : (low n x).testBit j = x.getLsbD j := by
  rw [low, Nat.testBit_mod_two_pow, BitVec.testBit_toNat, decide_eq_true hj, Bool.true_and]

theorem low_eq (hv : v < 2 ^ n) (h : ∀ j < n, x.getLsbD j = v.testBit j) : low n x = v := by
  refine Nat.eq_of_testBit_eq fun j => ?_
  by_cases hj : j < n
  · rw [testBit_low hj, h j hj]
  · have hle : 2 ^ n ≤ 2 ^ j := Nat.pow_le_pow_right (by omega) (by omega)
    rw [Nat.testBit_lt_two_pow (lt_of_lt_of_le (low_lt n x) hle),
      Nat.testBit_lt_two_pow (lt_of_lt_of_le hv hle)]

theorem low_congr (h : ∀ j < n, x.getLsbD j = y.getLsbD j) : low n x = low n y :=
  low_eq (low_lt n y) fun j hj => by rw [testBit_low hj, h j hj]

theorem getLsbD_of_low_eq (h : low n x = low n y) (hj : j < n) : x.getLsbD j = y.getLsbD j := by
  rw [← testBit_low hj, h, testBit_low hj]

theorem getLsbD_of_low_eq_zero (h : low n x = 0) (hj : j < n) : x.getLsbD j = false := by
  rw [← testBit_low hj, h, Nat.zero_testBit]

theorem getLsbD_of_lt (hx : x.toNat < 2 ^ n) (hj : n ≤ j) : x.getLsbD j = false := by
  rw [← BitVec.testBit_toNat]
  exact Nat.testBit_lt_two_pow
    (lt_of_lt_of_le hx (Nat.pow_le_pow_right (by omega) hj))

theorem low_and_mask (h : ∀ j < w, y.getLsbD j = decide (j < k)) :
    (x &&& y).toNat = low k x := by
  refine Nat.eq_of_testBit_eq fun j => ?_
  rw [BitVec.testBit_toNat, BitVec.getLsbD_and]
  by_cases hw : j < w
  · rw [h j hw, low, Nat.testBit_mod_two_pow, BitVec.testBit_toNat, Bool.and_comm]
  · rw [BitVec.getLsbD_of_ge x j (by omega), low, Nat.testBit_mod_two_pow,
      BitVec.testBit_toNat, BitVec.getLsbD_of_ge x j (by omega)]
    simp

theorem low_shift_back (hk : k + n ≤ w) : low n ((x <<< k) >>> k) = low n x := by
  refine low_congr fun j hj => ?_
  simp only [BitVec.getLsbD_ushiftRight, BitVec.getLsbD_shiftLeft]
  simp only [Nat.add_sub_cancel_left, Nat.not_lt.mpr (Nat.le_add_right k j), decide_false,
    Bool.not_false, Bool.and_true, decide_eq_true (show k + j < w by omega), Bool.true_and]

theorem low_or_of_eq (h : low n x = low n y) : low n (x ||| y) = low n y := by
  refine low_congr fun j hj => ?_
  rw [BitVec.getLsbD_or, getLsbD_of_low_eq h hj, Bool.or_self]

theorem low_or (x y : BitVec w) : low n (x ||| y) = low n x ||| low n y := by
  simp only [low, BitVec.toNat_or, Nat.or_mod_two_pow]

theorem low_shiftLeft (hn : n ≤ k) : low n (x <<< k) = 0 :=
  low_eq (by positivity) fun j hj => by
    rw [BitVec.getLsbD_shiftLeft, decide_eq_true (show j < k by omega), Nat.zero_testBit]
    simp

theorem low_shiftRight : low n (x >>> k) = low (n + k) x / 2 ^ k := by
  rw [low, low, BitVec.toNat_ushiftRight, Nat.shiftRight_eq_div_pow, Nat.add_comm, Nat.pow_add,
    Nat.mod_mul_right_div_self]

theorem low_low (h : n ≤ m) : low m x % 2 ^ n = low n x :=
  Nat.mod_mod_of_dvd _ (Nat.pow_dvd_pow 2 h)

theorem stack_lt {a c : ℕ} (ha : a < 2 ^ n) (hc : c < 2 ^ m) : a * 2 ^ m + c < 2 ^ (n + m) := by
  have hle : (a + 1) * 2 ^ m ≤ 2 ^ n * 2 ^ m := Nat.mul_le_mul_right _ ha
  rw [Nat.add_mul, Nat.one_mul, ← Nat.pow_add] at hle
  omega

/-- **New bits** `i` are put behind the bits above the lowest `b`: the `k` lowest stay free. -/
theorem low_append (hb : low b x = 0) (hi : i.toNat < 2 ^ m) (hbk : b = k + m) (hw : k + m ≤ w) :
    low (n + m) ((x ||| i <<< k) >>> k) = low n (x >>> b) * 2 ^ m + i.toNat := by
  refine low_eq (stack_lt (low_lt n _) hi) fun j hj => ?_
  rw [Nat.mul_comm, Nat.testBit_two_pow_mul_add _ hi]
  simp only [BitVec.getLsbD_ushiftRight, BitVec.getLsbD_or, BitVec.getLsbD_shiftLeft]
  simp only [Nat.add_sub_cancel_left, Nat.not_lt.mpr (Nat.le_add_right k j), decide_false,
    Bool.not_false, Bool.and_true]
  by_cases hjm : j < m
  · rw [if_pos hjm, getLsbD_of_low_eq_zero hb (by omega), decide_eq_true (show k + j < w by omega),
      BitVec.testBit_toNat, Bool.false_or, Bool.true_and]
  · rw [if_neg hjm, testBit_low (by omega), BitVec.getLsbD_ushiftRight,
      getLsbD_of_lt hi (by omega), Bool.and_false, Bool.or_false]
    congr 1
    omega

theorem low_fill (hb : low b x = 0) (hi : i.toNat < 2 ^ (b + k)) :
    low (n + b) (x ||| i >>> k) = low n (x >>> b) * 2 ^ b + i.toNat / 2 ^ k := by
  have hik : i.toNat / 2 ^ k < 2 ^ b := by
    rw [Nat.div_lt_iff_lt_mul (by positivity), ← Nat.pow_add]
    exact hi
  refine low_eq (stack_lt (low_lt n _) hik) fun j hj => ?_
  rw [Nat.mul_comm, Nat.testBit_two_pow_mul_add _ hik, BitVec.getLsbD_or,
    BitVec.getLsbD_ushiftRight]
  by_cases hjb : j < b
  · rw [if_pos hjb, getLsbD_of_low_eq_zero hb hjb, Bool.false_or, ← Nat.shiftRight_eq_div_pow,
      Nat.testBit_shiftRight, BitVec.testBit_toNat]
  · rw [if_neg hjb, testBit_low (by omega), BitVec.getLsbD_ushiftRight,
      getLsbD_of_lt hi (by omega), Bool.or_false]
    congr 1
    omega

theorem low_stack (hx : x.toNat < 2 ^ k) (hw : n + k ≤ w) :
    low (n + k) (x ||| y <<< k) = low n y * 2 ^ k + x.toNat := by
  refine low_eq (stack_lt (low_lt n y) hx) fun j hj => ?_
  rw [Nat.mul_comm, Nat.testBit_two_pow_mul_add _ hx, BitVec.getLsbD_or,
    BitVec.getLsbD_shiftLeft]
  by_cases hjk : j < k
  · rw [if_pos hjk, BitVec.testBit_toNat, decide_eq_true hjk]
    simp
  · rw [if_neg hjk, testBit_low (by omega), getLsbD_of_lt hx (by omega), decide_eq_false hjk,
      decide_eq_true (show j < w by omega)]
    simp

end PhpRuntime.Lib.LowBits
