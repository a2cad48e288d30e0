import PhpRuntime.Lib.ChunkedCoding
import PhpRuntime.Text.CInt

/-!
# Quoted-printable

The encoder with its line counter and the two decoders. A pointer into a string is the rest
of the string; what is read behind its end is its `NUL`.
-/

set_option autoImplicit false

namespace PhpRuntime.Text

open PhpRuntime.Lib.Chunked (hexValue)

/-! ## Encoding -/

def PHP_QPRINT_MAXL : ℕ := 75

/-- `hex[c >> 4]` and `hex[c & 0xf]` -/
def quotPrintHex (n : ℕ) : UInt8 := UInt8.ofNat (if n < 10 then n + 48 else n - 10 + 65)

/-- The bytes that are written as three characters; `next` is the byte behind. -/
def isQuoted (c next : UInt8) : Prop :=
  c < 32 ∨ c = 127 ∨ 128 ≤ c ∨ c = 61 ∨ (c = 32 ∧ next = 13)

instance (c next : UInt8) : Decidable (isQuoted c next) := by unfold isQuoted; infer_instance

/-- A soft line break comes before a quoted byte; `lp` counts the byte already. -/
def breaksBefore (c : UInt8) (lp : ℕ) : Prop :=
  (PHP_QPRINT_MAXL < lp ∧ c ≤ 0x7f) ∨
    (0x7f < c ∧ c ≤ 0xdf ∧ PHP_QPRINT_MAXL < lp + 3) ∨
    (0xdf < c ∧ c ≤ 0xef ∧ PHP_QPRINT_MAXL < lp + 6) ∨
    (0xef < c ∧ c ≤ 0xf4 ∧ PHP_QPRINT_MAXL < lp + 9)

instance (c : UInt8) (lp : ℕ) : Decidable (breaksBefore c lp) := by
  unfold breaksBefore
  infer_instance

/-- `=`, `\r` and `\n` -/
def softBreak : List UInt8 := [61, 13, 10]

/-- A byte as `=` and its two digits. -/
def quoted (c : UInt8) : List UInt8 :=
  [61, quotPrintHex (c.toNat >>> 4), quotPrintHex (c.toNat &&& 0xf)]

/-- What is written for a byte that does not begin a line break, and the line counter behind
it. -/
def quotPrintByte (lp : ℕ) (c next : UInt8) : List UInt8 × ℕ :=
  if isQuoted c next then
    if breaksBefore c (lp + 3) then (softBreak ++ quoted c, 3) else (quoted c, lp + 3)
  else if PHP_QPRINT_MAXL < lp + 1 then (softBreak ++ [c], 1)
  else ([c], lp + 1)

/-- The loop of `php_quot_print_encode` with the line counter `lp`. -/
def quotPrintEncodeLoop : ℕ → List UInt8 → List UInt8
  | _, [] => []
  | lp, [c] => (quotPrintByte lp c 0).1
  | lp, c :: next :: str =>
    if c = 13 ∧ next = 10 then 13 :: 10 :: quotPrintEncodeLoop 0 str
    else (quotPrintByte lp c next).1 ++
      quotPrintEncodeLoop (quotPrintByte lp c next).2 (next :: str)

/-- `php_quot_print_encode`, without the `NUL` -/
def quotPrintEncode (str : List UInt8) : List UInt8 := quotPrintEncodeLoop 0 str

/-! ## `php_quot_print_decode` -/

/-- `hexval_tbl`: the value of a hexadecimal digit, 32 for a blank, 16 for the characters of a
line break and 64 for all others. -/
def hexvalTbl (c : UInt8) : ℕ :=
  match hexValue c with
  | some v => v
  | none => if c = 9 ∨ c = 32 then 32 else if c = 10 ∨ c = 13 then 16 else 64

/-- The difference of two values of the type `size_t`. -/
def sizeSub (a b : ℕ) : ℕ := (a + 2 ^ 64 - b) % 2 ^ 64

/-- The first loop, with `i` bytes left at `p1`. -/
def quotPrintSizeLoop : ℕ → List UInt8 → ℕ → ℕ
  | i + 2, p1, bufSize =>
    if p1.headD 0 = 0 then bufSize
    else if p1.headD 0 = 61 then quotPrintSizeLoop i (p1.drop 2) (sizeSub bufSize 2)
    else quotPrintSizeLoop (i + 1) (p1.drop 1) bufSize
  | _, _, bufSize => bufSize

/-- What the second loop has written when it ends or rejects the string. -/
structure QuotPrintDecoded where
  written : List UInt8
  rejected : Bool
  deriving DecidableEq, Repr

/-- The loop `while (h_nbl == 32)`; nothing when the string is rejected. -/
def skipBlanks : ℕ → List UInt8 → ℕ → Option (ℕ × List UInt8)
  | 0, _, _ => none
  | i + 1, p1, hNbl =>
    if hNbl ≠ 32 then some (i + 1, p1)
    else if i = 0 ∨ hexvalTbl (p1.getD 1 0) = 64 then none
    else skipBlanks i (p1.drop 1) (hexvalTbl (p1.getD 1 0))

theorem skipBlanks_le {i i' hNbl : ℕ} {p1 p1' : List UInt8}
    (h : skipBlanks i p1 hNbl = some (i', p1')) : 0 < i' ∧ i' ≤ i := by
  induction i generalizing p1 hNbl with
  | zero => cases h
  | succ i ih =>
    rw [skipBlanks] at h
    split at h
    · cases h
      exact ⟨Nat.succ_pos _, Nat.le_refl _⟩
    · split at h
      · cases h
      · have hle := ih h
        omega

/-- `replace_us_by_ws == *p1 ? '\x20': *p1` -/
def spaceFor (us c : UInt8) : UInt8 := if us = c then 32 else c

/-- The second loop, with `i` bytes left at `p1`; `p2` is what has been written. -/
def quotPrintDecodeLoop (us : UInt8) (i : ℕ) (p1 p2 : List UInt8) : QuotPrintDecoded :=
  if i = 0 ∨ p1.headD 0 = 0 then ⟨p2, false⟩
  else if p1.headD 0 = 61 then
    if i - 1 = 0 ∨ p1.getD 1 0 = 0 then ⟨p2, false⟩
    else
      let hNbl := hexvalTbl (p1.getD 1 0)
      if hNbl < 16 then
        -- the next character should be a hexadecimal digit
        if i - 2 = 0 ∨ 16 ≤ hexvalTbl (p1.getD 2 0) then ⟨p2, true⟩
        else quotPrintDecodeLoop us (i - 3) (p1.drop 3)
          (p2 ++ [UInt8.ofNat (hNbl <<< 4 ||| hexvalTbl (p1.getD 2 0))])
      else if hNbl < 64 then
        -- soft line break
        match h : skipBlanks (i - 1) (p1.drop 1) hNbl with
        | none => ⟨p2, true⟩
        | some (i', p1') =>
          if p1'.headD 0 = 13 ∧ 2 ≤ i' ∧ p1'.getD 1 0 = 10 then
            quotPrintDecodeLoop us (i' - 2) (p1'.drop 2) p2
          else quotPrintDecodeLoop us (i' - 1) (p1'.drop 1) p2
      else ⟨p2, true⟩
  else
    quotPrintDecodeLoop us (i - 1) (p1.drop 1) (p2 ++ [spaceFor us (p1.headD 0)])
termination_by i
decreasing_by
  all_goals try have hle := skipBlanks_le h
  all_goals omega

/-- The count `i` that both loops begin with: the length as an `unsigned int`. -/
def quotPrintCount (str : List UInt8) : ℕ := str.length % 2 ^ 32

def quotPrintBufSize (str : List UInt8) : ℕ :=
  quotPrintSizeLoop (quotPrintCount str) str str.length

/-- `php_quot_print_decode`; nothing when the string is rejected. -/
def quotPrintDecode (str : List UInt8) (replaceUsByWs : Bool) : Option (List UInt8) :=
  let d := quotPrintDecodeLoop (if replaceUsByWs then 95 else 0) (quotPrintCount str) str []
  if d.rejected then none else some d.written

/-! ## `quoted_printable_decode` -/

/-- `isxdigit`, in the C locale -/
def isXdigit (c : UInt8) : Prop := (hexValue c).isSome

instance (c : UInt8) : Decidable (isXdigit c) := by unfold isXdigit; infer_instance

/-- `php_hex2int` of a hexadecimal digit -/
def hex2int (c : UInt8) : ℕ := (hexValue c).getD 0

/-- The loop over the blanks behind a `=`: the first `k` at which there is none. -/
def blanksEnd (str : List UInt8) (k : ℕ) : ℕ :=
  k + ((str.drop k).takeWhile fun c => c = 32 ∨ c = 9).length

/-- The loop of `quoted_printable_decode` at the rest `s` of the string, which begins at the
index `i`. Every index that is computed is an `int`. -/
def quotedPrintableLoop (i : ℕ) (s : List UInt8) (strOut : List UInt8) :
    Except Undefined (List UInt8) :=
  match s with
  | [] => .ok strOut
  | c :: rest =>
    if c = 0 then .ok strOut
    else if c = 61 then
      let c1 := rest.getD 0 0
      let c2 := rest.getD 1 0
      if INT_MAX < i + 1 ∨ (c1 ≠ 0 ∧ INT_MAX < i + 2) then .error .overflow
      else if c1 ≠ 0 ∧ c2 ≠ 0 ∧ isXdigit c1 ∧ isXdigit c2 then
        if INT_MAX < i + 3 then .error .overflow
        else quotedPrintableLoop (i + 3) (rest.drop 2)
          (strOut ++ [UInt8.ofNat (hex2int c1 <<< 4 + hex2int c2)])
      else
        -- soft line break, with blanks before the end of the line
        let k := blanksEnd (c :: rest) 1
        let ck := (c :: rest).getD k 0
        if INT_MAX < i + k then .error .overflow
        else if ck = 0 then quotedPrintableLoop (i + k) (rest.drop (k - 1)) strOut
        else if ck = 13 ∧ INT_MAX < i + k + 1 then .error .overflow
        else if ck = 13 ∧ (c :: rest).getD (k + 1) 0 = 10 then
          if INT_MAX < i + k + 2 then .error .overflow
          else quotedPrintableLoop (i + k + 2) (rest.drop (k + 1)) strOut
        else if ck = 13 ∨ ck = 10 then
          if INT_MAX < i + k + 1 then .error .overflow
          else quotedPrintableLoop (i + k + 1) (rest.drop k) strOut
        else if INT_MAX < i + 1 then .error .overflow
        else quotedPrintableLoop (i + 1) rest (strOut ++ [c])
    else if INT_MAX < i + 1 then .error .overflow
    else quotedPrintableLoop (i + 1) rest (strOut ++ [c])
termination_by s.length
decreasing_by
  all_goals simp only [List.length_cons, List.length_drop]
  all_goals omega

end PhpRuntime.Text
