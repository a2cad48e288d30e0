import Mathlib.Algebra.Group.Nat.Defs
import Mathlib.Data.Int.Notation
import Mathlib.Data.Nat.Notation
import PhpRuntime.Lib.Fallible

/-!
# The `int` of C, and its characters

The values of `int` expressions, what the string functions can run into, and the classes of
characters in the C locale.
-/

set_option autoImplicit false

namespace PhpRuntime.Text

/-- What the C code can run into that has no meaning: an `int` that overflows, a division by
zero, a write outside the buffer, a read outside the string, a request for more memory than there
is, and a loop that does not end. -/
inductive Undefined where
  | overflow
  | divisionByZero
  | outsideBuffer
  | outsideString
  | outOfMemory
  | endless
  deriving DecidableEq, Repr

/-- `INT_MAX` -/
def INT_MAX : ℤ := 2147483647

/-- `LONG_MAX` -/
def LONG_MAX : ℤ := 9223372036854775807

/-- The value of an `int` expression. -/
def intValue (x : ℤ) : Except Undefined ℤ :=
  if -INT_MAX - 1 ≤ x ∧ x ≤ INT_MAX then .ok x else .error .overflow

/-- The conversion `(int)` of a `long`. -/
def toInt (x : ℤ) : ℤ := Int.bmod x 4294967296

theorem intValue_eq {x : ℤ} (hlow : 0 ≤ x) (hhigh : x ≤ INT_MAX) : intValue x = .ok x := by
  rw [intValue, if_pos]
  exact ⟨by rw [INT_MAX]; omega, hhigh⟩

theorem intValue_error {x : ℤ} (h : INT_MAX < x) : intValue x = .error .overflow := by
  rw [intValue, if_neg]
  exact fun hx => absurd hx.2 (Int.not_le.mpr h)

theorem toInt_eq {x : ℤ} (hlow : 0 ≤ x) (hhigh : x ≤ INT_MAX) : toInt x = x := by
  rw [INT_MAX] at hhigh
  rw [toInt, Int.bmod_eq_of_le] <;> omega

theorem toInt_le (x : ℤ) : toInt x ≤ INT_MAX := by
  have hlt := Int.bmod_lt (x := x) (m := 4294967296) (by omega)
  rw [toInt, INT_MAX]
  omega

theorem tdiv_cast (a b : ℕ) : Int.tdiv (a : ℤ) b = ((a / b : ℕ) : ℤ) := by
  rw [Int.tdiv_eq_ediv_of_nonneg (Int.natCast_nonneg a), Int.natCast_ediv]

theorem or_eq_add {a b k : ℕ} (hb : b < 2 ^ k) : a * 2 ^ k ||| b = a * 2 ^ k + b := by
  rw [Nat.mul_comm]
  exact (Nat.two_pow_add_eq_or_of_lt hb a).symm

/-! ### `ctype.h` -/

/-- `isspace` -/
def isspace (c : UInt8) : Bool := c = 32 ∨ 9 ≤ c ∧ c ≤ 13

/-- `isdigit` -/
def isdigit (c : UInt8) : Bool := 48 ≤ c ∧ c ≤ 57

/-- `isalnum` -/
def isalnum (c : UInt8) : Bool := isdigit c ∨ 65 ≤ c ∧ c ≤ 90 ∨ 97 ≤ c ∧ c ≤ 122

/-- `toupper` -/
def toupper (c : UInt8) : UInt8 := if 97 ≤ c ∧ c ≤ 122 then c - 32 else c

/-- `tolower` -/
def tolower (c : UInt8) : UInt8 := if 65 ≤ c ∧ c ≤ 90 then c + 32 else c

theorem isdigit_iff (c : UInt8) : isdigit c = true ↔ 48 ≤ c.toNat ∧ c.toNat ≤ 57 := by
  rw [isdigit, decide_eq_true_iff, UInt8.le_iff_toNat_le, UInt8.le_iff_toNat_le]
  rfl

theorem isalnum_of_isdigit {c : UInt8} (hc : isdigit c = true) : isalnum c = true := by
  rw [isalnum, decide_eq_true_iff]
  exact Or.inl hc

theorem isdigit_toupper (c : UInt8) : isdigit (toupper c) = isdigit c := by
  have h : ∀ n < 256, isdigit (toupper (UInt8.ofNat n)) = isdigit (UInt8.ofNat n) := by
    decide +kernel
  have hc := h c.toNat c.toNat_lt
  rwa [UInt8.ofNat_toNat] at hc

theorem toupper_of_isdigit {c : UInt8} (hc : isdigit c = true) : toupper c = c := by
  rw [isdigit_iff] at hc
  rw [toupper, if_neg]
  rw [UInt8.le_iff_toNat_le, UInt8.le_iff_toNat_le]
  exact fun h => absurd (Nat.le_trans h.1 hc.2) (by decide)

end PhpRuntime.Text
