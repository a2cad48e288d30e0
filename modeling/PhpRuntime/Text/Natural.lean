import Mathlib.Data.List.TakeWhile
import PhpRuntime.Lib.LexCompare
import PhpRuntime.Text.CInt

/-!
# Natural order

`strnatcmp_ex` compares runs of digits by value or as fractions. Each read is checked against the
string and the `NUL` behind it.
-/

set_option autoImplicit false

namespace PhpRuntime.Text

open Lib

/-! ## The function -/

/-- The character at a place. Behind the last one is the `NUL`. -/
def charAt (s : List UInt8) (p : ℕ) : Except Undefined UInt8 :=
  if p ≤ s.length then .ok (s.getD p 0) else .error .outsideString

/-- The loop over leading zeros: the pointer and the character there. -/
def skipZeros (s : List UInt8) : ℕ → ℕ → UInt8 → Except Undefined (ℕ × UInt8)
  | 0, _, _ => .error .endless
  | turns + 1, p, c =>
    if c = 48 ∧ p + 1 < s.length then do
      let d ← charAt s (p + 1)
      if isdigit d then skipZeros s turns (p + 1) d else .ok (p, c)
    else .ok (p, c)

/-- This loop in the first turn, and none later. -/
def skipLeading (s : List UInt8) (leading : Bool) (p : ℕ) (c : UInt8) :
    Except Undefined (ℕ × UInt8) :=
  if leading then skipZeros s (s.length + 1) p c else .ok (p, c)

/-- `while (isspace(c)) c = *++p;` -/
def skipSpaces (s : List UInt8) : ℕ → ℕ → UInt8 → Except Undefined (ℕ × UInt8)
  | 0, _, _ => .error .endless
  | turns + 1, p, c =>
    if isspace c then do
      let c ← charAt s (p + 1)
      skipSpaces s turns (p + 1) c
    else .ok (p, c)

/-- `!(p == end || !isdigit(*p))` -/
def atDigit (s : List UInt8) (p : ℕ) : Except Undefined Bool :=
  if p = s.length then .ok false
  else do
    let c ← charAt s p
    .ok (isdigit c)

/-- `compare_right`: the result and both pointers. -/
def compareRight (a b : List UInt8) : ℕ → ℕ → ℕ → ℤ → Except Undefined (ℤ × ℕ × ℕ)
  | 0, _, _, _ => .error .endless
  | turns + 1, ap, bp, bias => do
    let da ← atDigit a ap
    let db ← atDigit b bp
    if !da && !db then .ok (bias, ap, bp)
    else if !da then .ok (-1, ap, bp)
    else if !db then .ok (1, ap, bp)
    else do
      let x ← charAt a ap
      let y ← charAt b bp
      let bias := if bias ≠ 0 then bias else if x < y then -1 else if y < x then 1 else 0
      compareRight a b turns (ap + 1) (bp + 1) bias

/-- `compare_left`: the result and both pointers. -/
def compareLeft (a b : List UInt8) : ℕ → ℕ → ℕ → Except Undefined (ℤ × ℕ × ℕ)
  | 0, _, _ => .error .endless
  | turns + 1, ap, bp => do
    let da ← atDigit a ap
    let db ← atDigit b bp
    if !da && !db then .ok (0, ap, bp)
    else if !da then .ok (-1, ap, bp)
    else if !db then .ok (1, ap, bp)
    else do
      let x ← charAt a ap
      let y ← charAt b bp
      if x < y then .ok (-1, ap, bp)
      else if y < x then .ok (1, ap, bp)
      else compareLeft a b turns (ap + 1) (bp + 1)

/-- `if (fractional) result = compare_left(..); else result = compare_right(..);` -/
def compareDigits (a b : List UInt8) (ap bp : ℕ) (ca cb : UInt8) :
    Except Undefined (ℤ × ℕ × ℕ) :=
  if ca = 48 ∨ cb = 48 then compareLeft a b (a.length + 1) ap bp
  else compareRight a b (a.length + 1) ap bp 0

/-- `process run of digits`: what is returned, or both pointers and characters. -/
def compareRuns (a b : List UInt8) (ap bp : ℕ) (ca cb : UInt8) :
    Except Undefined (ℤ ⊕ ℕ × ℕ × UInt8 × UInt8) :=
  if isdigit ca ∧ isdigit cb then do
    let (result, ap, bp) ← compareDigits a b ap bp ca cb
    if result ≠ 0 then .ok (.inl result)
    else if ap = a.length ∧ bp = b.length then .ok (.inl 0)
    else do
      let ca ← charAt a ap
      let cb ← charAt b bp
      .ok (.inr (ap, bp, ca, cb))
  else .ok (.inr (ap, bp, ca, cb))

/-- `if (fold_case) c = toupper(c);` -/
def folded (foldCase : Bool) (c : UInt8) : UInt8 := if foldCase then toupper c else c

/-- The loop `while (1)`. The turns are counted from above. -/
def strnatcmpLoop (a b : List UInt8) (foldCase : Bool) : ℕ → Bool → ℕ → ℕ → Except Undefined ℤ
  | 0, _, _, _ => .error .endless
  | turns + 1, leading, ap, bp => do
    let ca ← charAt a ap
    let cb ← charAt b bp
    let (ap, ca) ← skipLeading a leading ap ca
    let (bp, cb) ← skipLeading b leading bp cb
    let (ap, ca) ← skipSpaces a (a.length + 1) ap ca
    let (bp, cb) ← skipSpaces b (b.length + 1) bp cb
    let runs ← compareRuns a b ap bp ca cb
    match runs with
    | .inl result => .ok result
    | .inr (ap, bp, ca, cb) =>
      if folded foldCase ca < folded foldCase cb then .ok (-1)
      else if folded foldCase cb < folded foldCase ca then .ok 1
      else if a.length ≤ ap + 1 ∧ b.length ≤ bp + 1 then .ok 0
      else if a.length ≤ ap + 1 then .ok (-1)
      else if b.length ≤ bp + 1 then .ok 1
      else strnatcmpLoop a b foldCase turns false (ap + 1) (bp + 1)

/-- `strnatcmp_ex` -/
def strnatcmpEx (a b : List UInt8) (foldCase : Bool) : Except Undefined ℤ :=
  if a.length = 0 ∨ b.length = 0 then .ok (toInt ((a.length : ℤ) - b.length))
  else strnatcmpLoop a b foldCase (a.length + 1) true 0 0

/-! ## The key of a string -/

def codes (s : List UInt8) : List ℕ := s.map UInt8.toNat

/-- The rest of a string without the zeros that are skipped. -/
def dropZeros : List UInt8 → List UInt8
  | c :: d :: t => if c = 48 ∧ isdigit d then dropZeros (d :: t) else c :: d :: t
  | t => t

/-- What a run of digits is compared by: as a fraction, or by its length and its digits. -/
def runKey (digits : List UInt8) : List ℕ :=
  if digits.headD 0 = 48 then 48 :: 0 :: (codes digits ++ [0])
  else 48 :: 1 :: digits.length :: codes digits

/-- What a turn of the loop compares, behind white space: a run of digits, and a character. -/
def turnKey (foldCase : Bool) (t : List UInt8) : List ℕ :=
  (if isdigit (t.headD 0) then runKey (t.takeWhile isdigit) else []) ++
    [(folded foldCase ((t.dropWhile isdigit).headD 0)).toNat]

def turnRest (t : List UInt8) : List UInt8 := (t.dropWhile isdigit).drop 1

theorem length_turnRest (t : List UInt8) :
    (turnRest (t.dropWhile isspace)).length ≤ t.length - 1 := by
  have hspaces := (List.dropWhile_suffix isspace (l := t)).length_le
  have hdigits := (List.dropWhile_suffix isdigit (l := t.dropWhile isspace)).length_le
  rw [turnRest, List.length_drop]
  omega

def restKey (foldCase : Bool) : List UInt8 → List ℕ
  | [] => []
  | c :: t => turnKey foldCase ((c :: t).dropWhile isspace) ++
      restKey foldCase (turnRest ((c :: t).dropWhile isspace))
termination_by t => t.length
decreasing_by
  have hle := length_turnRest (c :: t)
  rw [List.length_cons] at hle ⊢
  omega

def naturalKey (foldCase : Bool) (s : List UInt8) : List ℕ := restKey foldCase (dropZeros s)

end PhpRuntime.Text
