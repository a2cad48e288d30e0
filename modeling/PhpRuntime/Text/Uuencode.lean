import PhpRuntime.Text.CInt

/-!
# Uuencoding

Lines of 45 bytes and a shorter last line. A line begins with its length, and three bytes are
written as four characters of six bits each. What is read behind the end of a text is its `NUL`.
-/

set_option autoImplicit false

namespace PhpRuntime.Text

/-! ## Encoding -/

/-- A `char`, which is signed, as an `int` -/
def charValue (c : UInt8) : BitVec 32 := c.toBitVec.signExtend 32

/-- `PHP_UU_ENC` -/
def uuEnc (c : BitVec 32) : UInt8 :=
  if c ≠ 0 then UInt8.ofNat ((c &&& 0o77).toNat + 32) else 96

/-- `PHP_UU_ENC_C2` -/
def uuEncC2 (s0 s1 : UInt8) : UInt8 :=
  uuEnc (((charValue s0 <<< 4) &&& 0o60) ||| ((charValue s1).sshiftRight 4 &&& 0o17))

/-- `PHP_UU_ENC_C3` -/
def uuEncC3 (s1 s2 : UInt8) : UInt8 :=
  uuEnc (((charValue s1 <<< 2) &&& 0o74) ||| ((charValue s2).sshiftRight 6 &&& 0o3))

/-- The loop `while (s < ee)`, when there are `left` bytes up to `ee`. What is written comes first,
`s` second. -/
def uuEncodeGroups (left : ℕ) (s : List UInt8) : List UInt8 × List UInt8 :=
  if left = 0 then ([], s)
  else
    let s0 := s.getD 0 0
    let s1 := s.getD 1 0
    let s2 := s.getD 2 0
    let (p, s') := uuEncodeGroups (left - 3) (s.drop 3)
    (uuEnc ((charValue s0).sshiftRight 2) :: uuEncC2 s0 s1 :: uuEncC3 s1 s2 ::
      uuEnc (charValue s2 &&& 0o77) :: p, s')
termination_by left

/-- What `php_uuencode` writes behind its loop, without the `NUL`. -/
def uuEncodeTail (s : List UInt8) (len : ℕ) : List UInt8 :=
  let header := if s.length ≠ 0 ∧ len = 45 then [uuEnc (BitVec.ofNat 32 s.length)] else []
  let len := if s.length ≠ 0 ∧ len = 45 then 0 else len
  let s0 := s.getD 0 0
  let s1 := s.getD 1 0
  let s2 := s.getD 2 0
  let group :=
    if s.length ≠ 0 then
      [uuEnc ((charValue s0).sshiftRight 2), uuEncC2 s0 s1,
        if 1 < s.length then uuEncC3 s1 s2 else uuEnc 0,
        if 2 < s.length then uuEnc (charValue s2 &&& 0o77) else uuEnc 0]
    else []
  header ++ group ++ (if len < 45 then [10] else []) ++ [uuEnc 0, 10]

/-- The loop `while ((s + 3) < e)` and what is behind it. The turns are counted from above. -/
def uuEncodeLoop : ℕ → List UInt8 → ℕ → Except Undefined (List UInt8)
  | 0, _, _ => .error .endless
  | turns + 1, s, len =>
    if 3 < s.length then do
      let left := if s.length < len then
        (if s.length % 3 ≠ 0 then s.length / 3 * 3 else s.length) else len
      let len := if s.length < len then s.length else len
      let (p, s') := uuEncodeGroups left s
      let rest ← uuEncodeLoop turns s' len
      .ok (uuEnc (BitVec.ofNat 32 len) :: p ++ (if len = 45 then [10] else []) ++ rest)
    else .ok (uuEncodeTail s len)

/-- `php_uuencode`: what `*dest` points to, without the `NUL`, and the length that is returned. -/
def uuEncode (src : List UInt8) : Except Undefined (List UInt8 × ℤ) := do
  let p ← uuEncodeLoop (src.length + 1) src 45
  .ok (p, toInt p.length)

/-- The size of the buffer, `ceil(src_len * 1.38) * 1 + 46` -/
def uuEncodeAlloc (srcLen : ℕ) : ℕ := (138 * srcLen + 99) / 100 + 46

/-! ## Decoding -/

/-- `PHP_UU_DEC` -/
def uuDec (c : UInt8) : ℕ := ((charValue c - 32) &&& 0o77).toNat

/-- `(int) floor(len * 1.33)`, which is exact for the lengths that a line can have. -/
def uuLineLength (len : ℕ) : ℕ := if len = 45 then 60 else len * 133 / 100

/-- The loop `while (s < ee)`, when there are `left` bytes up to `ee`. What is written comes first,
`s` second. -/
def uuDecodeGroups (left : ℕ) (s : List UInt8) : List UInt8 × List UInt8 :=
  if left = 0 then ([], s)
  else
    let d0 := uuDec (s.getD 0 0)
    let d1 := uuDec (s.getD 1 0)
    let d2 := uuDec (s.getD 2 0)
    let d3 := uuDec (s.getD 3 0)
    let (p, s') := uuDecodeGroups (left - 4) (s.drop 4)
    (UInt8.ofNat (d0 <<< 2 ||| d1 >>> 4) :: UInt8.ofNat (d1 <<< 4 ||| d2 >>> 2) ::
      UInt8.ofNat (d2 <<< 6 ||| d3) :: p, s')
termination_by left

/-- The loop `while (s < e)`: `total_len`, what is written, and `s`, or `none` where it goes to
`err`. -/
def uuDecodeLoop (srcLen : ℤ) : ℕ → List UInt8 → ℕ → List UInt8 →
    Except Undefined (Option (ℕ × List UInt8 × List UInt8))
  | 0, _, _, _ => .error .endless
  | turns + 1, s, totalLen, p =>
    match s with
    | [] => .ok (some (totalLen, p, []))
    | c :: s =>
      let len := uuDec c
      if len = 0 then .ok (some (totalLen, p, s))
      else if srcLen < len then .ok none
      else if s.length < uuLineLength len then .ok none
      else
        let (q, s') := uuDecodeGroups (uuLineLength len) s
        if len < 45 then .ok (some (totalLen + len, p ++ q, s'))
        else uuDecodeLoop srcLen turns (s'.drop 1) (totalLen + len) (p ++ q)

/-- `php_uudecode`: the number that is returned and as many bytes of `*dest`, or `none` where it
returns -1. The size of the buffer is not known for a negative length. -/
def uuDecode (src : List UInt8) (srcLen : ℤ) : Except Undefined (Option (ℕ × List UInt8)) :=
  if srcLen < 0 then .error .overflow
  else do
    let r ← uuDecodeLoop srcLen (src.length + 1) (src.take srcLen.toNat) 0 []
    match r with
    | none => .ok none
    | some (totalLen, p, s) =>
      -- the length left is compared and not subtracted, so that it is at most 1
      let p := if p.length < totalLen then
        p ++ [UInt8.ofNat (uuDec (s.getD 0 0) <<< 2 ||| uuDec (s.getD 1 0) >>> 4)] else p
      .ok (some (totalLen, p.take totalLen))

/-! ## Characters -/

def uuChar (n : ℕ) : UInt8 := if n = 0 then 96 else UInt8.ofNat (n + 32)

theorem uuDec_uuChar : ∀ n < 64, uuDec (uuChar n) = n := by decide

theorem uuEnc_ofNat : ∀ n < 64, uuEnc (BitVec.ofNat 32 n) = uuChar n := by decide

theorem uuEnc_zero : uuEnc 0 = uuChar 0 := rfl

theorem uuEnc_high (a : UInt8) : uuEnc ((charValue a).sshiftRight 2) = uuChar (a.toNat / 4) := by
  have h : ∀ n < 256, uuEnc ((charValue (UInt8.ofNat n)).sshiftRight 2) = uuChar (n / 4) := by
    decide +kernel
  have ha := h a.toNat a.toNat_lt
  rwa [UInt8.ofNat_toNat] at ha

theorem uuEnc_low (a : UInt8) : uuEnc (charValue a &&& 0o77) = uuChar (a.toNat % 64) := by
  have h : ∀ n < 256, uuEnc (charValue (UInt8.ofNat n) &&& 0o77) = uuChar (n % 64) := by
    decide +kernel
  have ha := h a.toNat a.toNat_lt
  rwa [UInt8.ofNat_toNat] at ha

theorem uuEncC2_eq (a b : UInt8) : uuEncC2 a b = uuChar (a.toNat % 4 * 16 + b.toNat / 16) := by
  have hleft : ∀ n < 256,
      (charValue (UInt8.ofNat n) <<< 4) &&& 0o60 = BitVec.ofNat 32 (n % 4 * 16) := by
    decide +kernel
  have hright : ∀ n < 256,
      (charValue (UInt8.ofNat n)).sshiftRight 4 &&& 0o17 = BitVec.ofNat 32 (n / 16) := by
    decide +kernel
  have hor : ∀ i < 4, ∀ j < 16,
      uuEnc (BitVec.ofNat 32 (i * 16) ||| BitVec.ofNat 32 j) = uuChar (i * 16 + j) := by
    decide
  have ha := hleft a.toNat a.toNat_lt
  have hb := hright b.toNat b.toNat_lt
  rw [UInt8.ofNat_toNat] at ha hb
  have hlt := b.toNat_lt
  rw [uuEncC2, ha, hb]
  exact hor _ (Nat.mod_lt _ (by decide)) _ (by omega)

theorem uuEncC3_eq (b c : UInt8) : uuEncC3 b c = uuChar (b.toNat % 16 * 4 + c.toNat / 64) := by
  have hleft : ∀ n < 256,
      (charValue (UInt8.ofNat n) <<< 2) &&& 0o74 = BitVec.ofNat 32 (n % 16 * 4) := by
    decide +kernel
  have hright : ∀ n < 256,
      (charValue (UInt8.ofNat n)).sshiftRight 6 &&& 0o3 = BitVec.ofNat 32 (n / 64) := by
    decide +kernel
  have hor : ∀ i < 16, ∀ j < 4,
      uuEnc (BitVec.ofNat 32 (i * 4) ||| BitVec.ofNat 32 j) = uuChar (i * 4 + j) := by
    decide
  have hb := hleft b.toNat b.toNat_lt
  have hc := hright c.toNat c.toNat_lt
  rw [UInt8.ofNat_toNat] at hb hc
  have hlt := c.toNat_lt
  rw [uuEncC3, hb, hc]
  exact hor _ (Nat.mod_lt _ (by decide)) _ (by omega)

end PhpRuntime.Text
