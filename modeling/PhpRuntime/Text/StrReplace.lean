import PhpRuntime.Text.CInt
import Mathlib.Data.List.Basic
import Mathlib.Data.List.Infix

/-!
# `php_str_to_str_ex`

The replacement of a needle. A result as long as the haystack is made in a copy of it, and
otherwise in a buffer that a first pass has measured. Without case sensitivity the needle is
searched in a folded copy, and what is copied is from the haystack.
-/

set_option autoImplicit false

namespace PhpRuntime.Text

/-! ## The search -/

/-- `memchr(s, c, n)`, as an offset. -/
def memchr (s : List UInt8) (c : UInt8) (n : ℕ) : Option ℕ := (s.take n).findIdx? (· == c)

/-- The loop of `zend_memnstr`, at the place `p`. `stop` is the last place for the needle. -/
def memnstrLoop (haystack needle : List UInt8) (stop : ℕ) : ℕ → ℕ → Option ℕ
  | 0, _ => none
  | n + 1, p =>
    if p ≤ stop then
      match memchr (haystack.drop p) (needle.headD 0) (stop - p + 1) with
      | none => none
      | some i =>
        if needle.getD (needle.length - 1) 0 = haystack.getD (p + i + (needle.length - 1)) 0 ∧
            needle.take (needle.length - 1) =
              (haystack.drop (p + i)).take (needle.length - 1) then some (p + i)
        else memnstrLoop haystack needle stop n (p + i + 1)
    else none

/-- `zend_memnstr`, as an offset. Each turn moves the place, so `haystack.length + 1` turns are
enough. -/
def memnstr (haystack needle : List UInt8) : Option ℕ :=
  if needle.length = 1 then memchr haystack (needle.headD 0) haystack.length
  else if haystack.length < needle.length then none
  else memnstrLoop haystack needle (haystack.length - needle.length) (haystack.length + 1) 0

/-- `php_strtolower` -/
def strtolower (s : List UInt8) : List UInt8 := s.map tolower

/-- `for (p = 0; (r = php_memnstr(p, needle)); p = r + needle_len) body`. The text that is searched
may change, and its turns are counted from above. -/
def forEachMatch {σ : Type} (search : σ → List UInt8) (needle : List UInt8)
    (body : ℕ → ℕ → σ → Except Undefined σ) : ℕ → ℕ → σ → Except Undefined (ℕ × σ)
  | 0, _, _ => .error .endless
  | n + 1, p, s =>
    match memnstr ((search s).drop p) needle with
    | none => .ok (p, s)
    | some i => do
      let s ← body p (p + i) s
      forEachMatch search needle body n (p + i + needle.length) s

/-! ## The function -/

/-- `if (replace_count) (*replace_count)++;` -/
def increment : Option ℤ → Except Undefined (Option ℤ)
  | none => .ok none
  | some n => do
    let n ← intValue (n + 1)
    .ok (some n)

/-- What the function gives back: the string, `*_new_length` and `*replace_count`. -/
structure Replaced where
  newStr : List UInt8
  newLength : ℤ
  replaceCount : Option ℤ
  deriving DecidableEq, Repr

/-- A buffer under construction, and the counter. -/
structure Output where
  alloced : ℕ
  bytes : List UInt8
  replaceCount : Option ℤ
  deriving DecidableEq, Repr

/-- `memcpy(e, s, n); e += n;` -/
def Output.write (w : Output) (s : List UInt8) : Except Undefined Output :=
  if w.alloced < w.bytes.length + s.length then .error .outsideBuffer
  else .ok { w with bytes := w.bytes ++ s }

/-- `memcpy(r, s, n)` in a string of fixed length. -/
def overwrite (w : List UInt8) (r : ℕ) (s : List UInt8) : Except Undefined (List UInt8) :=
  if w.length < r + s.length then .error .outsideBuffer
  else .ok (w.take r ++ s ++ w.drop (r + s.length))

/-- The case of a replacement as long as the needle. `dup` is the folded copy. -/
def replaceInPlace (haystack needle str : List UInt8) (dup : Option (List UInt8))
    (replaceCount : Option ℤ) : Except Undefined Replaced := do
  let (_, newStr, replaceCount) ← forEachMatch (fun s => dup.getD s.1) needle
    (fun _ r s => do
      let newStr ← overwrite s.1 r str
      let replaceCount ← increment s.2
      .ok (newStr, replaceCount)) (haystack.length + 1) 0 (haystack, replaceCount)
  .ok ⟨newStr, haystack.length, replaceCount⟩

/-- The first pass, which counts. A count is at most the length, an `int`. -/
def countMatches (search needle : List UInt8) : Except Undefined ℕ := do
  let (_, count) ← forEachMatch (fun _ => search) needle
    (fun _ _ count => .ok (count + 1)) (search.length + 1) 0 0
  .ok count

def copyMatches (haystack search needle str : List UInt8) (alloced : ℕ)
    (replaceCount : Option ℤ) : Except Undefined (ℕ × Output) :=
  forEachMatch (fun _ => search) needle
    (fun p r (w : Output) => do
      let w ← w.write ((haystack.drop p).take (r - p))
      let w ← w.write str
      let replaceCount ← increment w.replaceCount
      .ok { w with replaceCount := replaceCount }) (haystack.length + 1) 0
    ⟨alloced, [], replaceCount⟩

/-- `if (p < end) { memcpy(e, p, end - p); e += end - p; }` -/
def copyRest (haystack : List UInt8) (p : ℕ) (w : Output) : Except Undefined Output :=
  if p < haystack.length then w.write (haystack.drop p) else .ok w

/-- What follows this pass: the rest of the haystack, `*_new_length = e - s;`, and
`erealloc(new_str, *_new_length + 1)`. -/
def finishCopy (haystack : List UInt8) (p : ℕ) (w : Output) : Except Undefined Replaced := do
  let w ← copyRest haystack p w
  if w.alloced < w.bytes.length + 1 then .error .outsideBuffer
  else do
    let newLength := toInt w.bytes.length
    let size ← intValue (newLength + 1)
    if size < 0 then .error .outOfMemory
    else .ok ⟨w.bytes.take newLength.toNat, newLength, w.replaceCount⟩

def replaceCopy (haystack search needle str : List UInt8) (alloced : ℕ)
    (replaceCount : Option ℤ) : Except Undefined Replaced := do
  let (p, w) ← copyMatches haystack search needle str alloced replaceCount
  finishCopy haystack p w

/-- `php_str_to_str_ex` -/
def strToStrEx (haystack needle str : List UInt8) (caseSensitivity : Bool)
    (replaceCount : Option ℤ) : Except Undefined Replaced :=
  if needle.length < haystack.length then
    let dup := if caseSensitivity then none else some (strtolower haystack)
    let search := dup.getD haystack
    let needle' := if caseSensitivity then needle else strtolower needle
    if needle.length = str.length then replaceInPlace haystack needle' str dup replaceCount
    else if str.length < needle.length then do
      let alloced ← intValue (haystack.length + 1)
      replaceCopy haystack search needle' str alloced.toNat replaceCount
    else do
      let count ← countMatches search needle'
      -- "Needle doesn't occur, shortcircuit the actual replacement."
      if count = 0 then .ok ⟨haystack, haystack.length, replaceCount⟩
      else do
        let offset ← intValue (haystack.length + 1)
        replaceCopy haystack search needle' str
          (count * (str.length - needle.length) + offset.toNat) replaceCount
  else if haystack.length < needle.length then .ok ⟨haystack, haystack.length, replaceCount⟩
  else if caseSensitivity = true ∧ haystack ≠ needle then
    .ok ⟨haystack, haystack.length, replaceCount⟩
  else if caseSensitivity = false ∧ strtolower haystack ≠ strtolower needle then
    .ok ⟨haystack, haystack.length, replaceCount⟩
  else do
    let replaceCount ← increment replaceCount
    .ok ⟨str, str.length, replaceCount⟩

end PhpRuntime.Text
