import PhpRuntime.Lib.Utf8
import PhpRuntime.Text.CInt

/-!
# The scanner for UTF-8

`get_next_char` for `cs_utf_8`: it reads one character at the cursor, or reports a failure
and says how many bytes to skip.
-/

set_option autoImplicit false

namespace PhpRuntime.Html

open PhpRuntime.Lib.Utf8 (Trail WellFormed wellFormed_encode)

inductive Status where
  | SUCCESS
  | FAILURE
  deriving DecidableEq, Repr

/-- What a call returns and leaves behind: the code point, the cursor and the status. -/
structure NextChar where
  thisChar : ℕ
  cursor : ℕ
  status : Status
  deriving DecidableEq, Repr

/-- `MB_FAILURE` -/
def mbFailure (pos advance : ℕ) : NextChar := ⟨0, pos + advance, .FAILURE⟩

/-- A byte of the string; the callers check that it is there. -/
def byteAt (str : List UInt8) (i : ℕ) : UInt8 := str.getD i 0

/-- `utf8_lead`: valid as a single byte or as the first byte of a sequence. -/
def utf8Lead (c : UInt8) : Prop := c.toNat < 0x80 ∨ (0xC2 ≤ c.toNat ∧ c.toNat ≤ 0xF4)

instance (c : UInt8) : Decidable (utf8Lead c) := by unfold utf8Lead; infer_instance

/-- `utf8_trail` -/
def utf8Trail (c : UInt8) : Prop := 0x80 ≤ c.toNat ∧ c.toNat ≤ 0xBF

instance (c : UInt8) : Decidable (utf8Trail c) := by unfold utf8Trail; infer_instance

def bits (c : UInt8) (mask : ℕ) : ℕ := c.toNat &&& mask

/-- `get_next_char` for `cs_utf_8` -/
def getNextChar (str : List UInt8) (pos : ℕ) : NextChar :=
  let avail := str.length - pos
  let c := byteAt str pos
  let c1 := byteAt str (pos + 1)
  let c2 := byteAt str (pos + 2)
  let c3 := byteAt str (pos + 3)
  if avail < 1 then mbFailure pos 1
  else if c.toNat < 0x80 then ⟨c.toNat, pos + 1, .SUCCESS⟩
  else if c.toNat < 0xc2 then mbFailure pos 1
  else if c.toNat < 0xe0 then
    if avail < 2 then mbFailure pos 1
    else if ¬ utf8Trail c1 then mbFailure pos (if utf8Lead c1 then 1 else 2)
    else
      let thisChar := bits c 0x1f <<< 6 ||| bits c1 0x3f
      -- non-shortest form
      if thisChar < 0x80 then mbFailure pos 2
      else ⟨thisChar, pos + 2, .SUCCESS⟩
  else if c.toNat < 0xf0 then
    if avail < 3 ∨ ¬ utf8Trail c1 ∨ ¬ utf8Trail c2 then
      if avail < 2 ∨ utf8Lead c1 then mbFailure pos 1
      else if avail < 3 ∨ utf8Lead c2 then mbFailure pos 2
      else mbFailure pos 3
    else
      let thisChar := (bits c 0x0f <<< 12 ||| bits c1 0x3f <<< 6) ||| bits c2 0x3f
      -- non-shortest form
      if thisChar < 0x800 then mbFailure pos 3
      -- surrogate
      else if 0xd800 ≤ thisChar ∧ thisChar ≤ 0xdfff then mbFailure pos 3
      else ⟨thisChar, pos + 3, .SUCCESS⟩
  else if c.toNat < 0xf5 then
    if avail < 4 ∨ ¬ utf8Trail c1 ∨ ¬ utf8Trail c2 ∨ ¬ utf8Trail c3 then
      if avail < 2 ∨ utf8Lead c1 then mbFailure pos 1
      else if avail < 3 ∨ utf8Lead c2 then mbFailure pos 2
      else if avail < 4 ∨ utf8Lead c3 then mbFailure pos 3
      else mbFailure pos 4
    else
      let thisChar := ((bits c 0x07 <<< 18 ||| bits c1 0x3f <<< 12) ||| bits c2 0x3f <<< 6) |||
        bits c3 0x3f
      -- non-shortest form or outside range
      if thisChar < 0x10000 ∨ 0x10FFFF < thisChar then mbFailure pos 4
      else ⟨thisChar, pos + 4, .SUCCESS⟩
  else mbFailure pos 1

/-! ## The bits as quotients and remainders -/

theorem bits_eq (c : UInt8) (k : ℕ) : bits c (2 ^ k - 1) = c.toNat % 2 ^ k :=
  Nat.and_two_pow_sub_one_eq_mod _ _

theorem join_two (c c1 : UInt8) :
    bits c 0x1f <<< 6 ||| bits c1 0x3f = c.toNat % 32 * 64 + c1.toNat % 64 := by
  rw [show bits c 0x1f = _ from bits_eq c 5, show bits c1 0x3f = _ from bits_eq c1 6,
    Nat.shiftLeft_eq, Text.or_eq_add (Nat.mod_lt _ (by decide))]
  rfl

theorem join_three (c c1 c2 : UInt8) :
    (bits c 0x0f <<< 12 ||| bits c1 0x3f <<< 6) ||| bits c2 0x3f =
      c.toNat % 16 * 4096 + c1.toNat % 64 * 64 + c2.toNat % 64 := by
  have hjoin : c.toNat % 2 ^ 4 * 2 ^ 12 ||| c1.toNat % 2 ^ 6 * 2 ^ 6 =
      (c.toNat % 2 ^ 4 * 2 ^ 6 + c1.toNat % 2 ^ 6) * 2 ^ 6 := by
    rw [Text.or_eq_add (by omega)]
    omega
  rw [show bits c 0x0f = _ from bits_eq c 4, show bits c1 0x3f = _ from bits_eq c1 6,
    show bits c2 0x3f = _ from bits_eq c2 6, Nat.shiftLeft_eq, Nat.shiftLeft_eq, hjoin,
    Text.or_eq_add (Nat.mod_lt _ (by decide))]
  omega

theorem join_four (c c1 c2 c3 : UInt8) :
    ((bits c 0x07 <<< 18 ||| bits c1 0x3f <<< 12) ||| bits c2 0x3f <<< 6) ||| bits c3 0x3f =
      c.toNat % 8 * 262144 + c1.toNat % 64 * 4096 + c2.toNat % 64 * 64 + c3.toNat % 64 := by
  have hjoin : c.toNat % 2 ^ 3 * 2 ^ 18 ||| c1.toNat % 2 ^ 6 * 2 ^ 12 =
      (c.toNat % 2 ^ 3 * 2 ^ 6 + c1.toNat % 2 ^ 6) * 2 ^ 12 := by
    rw [Text.or_eq_add (by omega)]
    omega
  have hjoin' : (c.toNat % 2 ^ 3 * 2 ^ 6 + c1.toNat % 2 ^ 6) * 2 ^ 12 |||
      c2.toNat % 2 ^ 6 * 2 ^ 6 =
      ((c.toNat % 2 ^ 3 * 2 ^ 6 + c1.toNat % 2 ^ 6) * 2 ^ 6 + c2.toNat % 2 ^ 6) * 2 ^ 6 := by
    rw [Text.or_eq_add (by omega)]
    omega
  rw [show bits c 0x07 = _ from bits_eq c 3, show bits c1 0x3f = _ from bits_eq c1 6,
    show bits c2 0x3f = _ from bits_eq c2 6, show bits c3 0x3f = _ from bits_eq c3 6,
    Nat.shiftLeft_eq, Nat.shiftLeft_eq, Nat.shiftLeft_eq, hjoin, hjoin',
    Text.or_eq_add (Nat.mod_lt _ (by decide))]
  omega

end PhpRuntime.Html
