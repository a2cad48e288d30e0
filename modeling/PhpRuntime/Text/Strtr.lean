import PhpRuntime.Text.CInt
import PhpRuntime.Lib.HeapSort
import PhpRuntime.Lib.Positional

/-!
# `strtr` with an array

The search of Wu and Manber. A table of shifts is indexed by a hash of the last bytes of the
window. Where it allows no shift, the patterns with this suffix hash are tried, the longer ones
first, and a hash of the first bytes sorts most of them out.
-/

set_option autoImplicit false

namespace PhpRuntime.Text

open PhpRuntime.Lib

/-! ## Integers -/

/-- `SIZE_MAX` -/
def SIZE_MAX : ℕ := 18446744073709551615

/-- The value of a `size_t` expression. -/
def toSize (x : ℤ) : ℕ := (x % 18446744073709551616).toNat

/-! ## The patterns -/

/-- `PATNREPL` -/
structure Patnrepl where
  pat : List UInt8
  repl : List UInt8
  deriving DecidableEq, Repr

/-- A key of a hash table. -/
inductive Key where
  | long (n : ℤ)
  | string (s : List UInt8)
  deriving DecidableEq, Repr

/-- The text of a key. Integers are printed with `%ld`. -/
def Key.text : Key → List UInt8
  | .long n => (if n < 0 then [45] else []) ++
      (Positional.numeral 10 n.natAbs).map fun d => UInt8.ofNat (48 + d)
  | .string s => s

/-- `php_strtr_array_prepare_repls`. No patterns are `NULL`, for "empty string given as pattern",
and a pattern that is longer than the subject "can never match". -/
def prepareRepls (slen : ℕ) : List (Key × List UInt8) → Option (List Patnrepl)
  | [] => some []
  | (key, value) :: pats =>
    if key.text = [] then none
    else if slen < key.text.length then prepareRepls slen pats
    else (prepareRepls slen pats).map (⟨key.text, value⟩ :: ·)

/-! ## The tables -/

/-- `php_strtr_hash` -/
def strtrHash (str : List UInt8) : UInt16 := str.foldl (fun res c => res * 33 + c.toUInt16) 0

/-- `SHIFT_TAB_SIZE` -/
def shiftTabSize : ℕ := 8192

/-- `HASH_TAB_SIZE` -/
def hashTabSize : ℕ := 1024

/-- `shift->table_mask` -/
def shiftMask : UInt16 := 8191

/-- `hash->table_mask` -/
def hashMask : UInt16 := 1023

/-- `PPRES` -/
structure Ppres where
  B : ℕ
  Bp : ℕ
  m : ℕ
  patnum : ℕ
  shift : List ℕ
  hash : List ℤ
  prefixHash : List UInt16
  patterns : List Patnrepl

/-- The block of `B` bytes at `j` of a pattern, as an index of the table of shifts. -/
def shiftIndex (B : ℕ) (p : Patnrepl) (j : ℕ) : ℕ :=
  (strtrHash ((p.pat.drop j).take B) &&& shiftMask).toNat

/-- `php_strtr_populate_shift` -/
def populateShift (patterns : List Patnrepl) (B m : ℕ) : List ℕ :=
  patterns.foldl (fun shift p =>
    (List.range (m - B + 1)).foldl (fun shift j =>
      shift.set (shiftIndex B p j) (min (shift.getD (shiftIndex B p j) 0) (m - j - B))) shift)
    (List.replicate shiftTabSize (m - B + 1))

/-- The hash of the last `B` bytes of the first `m`, for the table of the patterns. -/
def suffixHash (B m : ℕ) (p : Patnrepl) : UInt16 :=
  strtrHash ((p.pat.drop (m - B)).take B) &&& hashMask

/-- `php_strtr_compare_hash_suffix` -/
def compareHashSuffix (B m : ℕ) (a b : Patnrepl) : ℤ :=
  if suffixHash B m b < suffixHash B m a then 1
  else if suffixHash B m a < suffixHash B m b then -1
  -- "longer patterns must be sorted first"
  else if b.pat.length < a.pat.length then -1
  else if a.pat.length < b.pat.length then 1
  else 0

/-- `php_strtr_heapsort` -/
def strtrHeapsort (B m : ℕ) (arr : List Patnrepl) : List Patnrepl :=
  HeapSort.heapsort (fun a b => decide (0 < compareHashSuffix B m a b)) ⟨[], []⟩ arr

/-- The first pass over the table of the patterns, for the patterns from the index `i` on, which
puts the index of the first pattern of each hash into the table. `lastH` is the hash before. -/
def firstEntries (B m : ℕ) : List Patnrepl → ℕ → UInt16 → List ℤ → List ℤ
  | [], _, _, entries => entries
  | p :: ps, i, lastH, entries =>
    if suffixHash B m p ≠ lastH then
      firstEntries B m ps (i + 1) (suffixHash B m p) (entries.set (suffixHash B m p).toNat i)
    else firstEntries B m ps (i + 1) lastH entries

/-- The second pass, for the indices below `i`: a hash without a pattern has the entry of the
next one. -/
def fillEntries : ℕ → List ℤ → List ℤ
  | 0, entries => entries
  | i + 1, entries =>
    if entries.getD i 0 = -1 then fillEntries i (entries.set i (entries.getD (i + 1) 0))
    else fillEntries i entries

def minLength (patterns : List Patnrepl) : ℕ :=
  patterns.foldl (fun m p => if p.pat.length < m then p.pat.length else m) SIZE_MAX

/-- `php_strtr_array_prepare`. The table of the patterns has an entry more than its size, and
`HASH last_h = -1` assumes "not all bits are used". -/
def strtrArrayPrepare (patterns : List Patnrepl) (B Bp : ℕ) : Ppres :=
  let m := minLength patterns
  let B := min B m
  let Bp := min Bp m
  let sorted := strtrHeapsort B m patterns
  let entries := firstEntries B m sorted 0 65535 (List.replicate (hashTabSize + 1) (-1))
  { B := B
    Bp := Bp
    m := m
    patnum := patterns.length
    shift := populateShift patterns B m
    hash := fillEntries hashTabSize (entries.set hashTabSize patterns.length)
    prefixHash := sorted.map fun p => strtrHash (p.pat.take Bp)
    patterns := sorted }

/-! ## The search -/

/-- `len` bytes of the subject at `start`. -/
def readText (text : List UInt8) (start len : ℕ) : Except Undefined (List UInt8) :=
  if start + len ≤ text.length then .ok ((text.drop start).take len) else .error .outsideString

/-- The loop over `n` patterns from the index `i` on. -/
def findPattern (text : List UInt8) (d : Ppres) (pos : ℕ) (prefixH : UInt16) :
    ℕ → ℕ → Except Undefined (Option Patnrepl)
  | 0, _ => .ok none
  | n + 1, i =>
    if d.prefixHash.getD i 0 ≠ prefixH then findPattern text d pos prefixH n (i + 1)
    else
      let pnr := d.patterns.getD i ⟨[], []⟩
      if toSize (text.length - pos) < pnr.pat.length then
        findPattern text d pos prefixH n (i + 1)
      else do
        let bytes ← readText text pos pnr.pat.length
        if bytes = pnr.pat then .ok (some pnr) else findPattern text d pos prefixH n (i + 1)

/-- The outer loop, with `pos`, `nextwpos` and `result`. Its turns are counted from above. -/
def doReplLoop (text : List UInt8) (d : Ppres) (lastpos : ℕ) :
    ℕ → ℕ → ℕ → List UInt8 → Except Undefined (ℕ × List UInt8)
  | 0, _, _, _ => .error .endless
  | n + 1, pos, nextwpos, result =>
    if pos ≤ lastpos then do
      let block ← readText text (toSize (pos + d.m - d.B)) d.B
      let h := strtrHash block &&& shiftMask
      let shift := d.shift.getD h.toNat 0
      if 0 < shift then doReplLoop text d lastpos n (toSize (pos + shift)) nextwpos result
      else do
        let h2 := (h &&& hashMask).toNat
        let front ← readText text pos d.Bp
        let offsetStart := d.hash.getD h2 0
        let offsetEnd := d.hash.getD (h2 + 1) 0
        let found ← findPattern text d pos (strtrHash front) (offsetEnd - offsetStart).toNat
          offsetStart.toNat
        match found with
        | none => doReplLoop text d lastpos n (toSize (pos + 1)) nextwpos result
        | some pnr => do
          let copied ← readText text nextwpos (toSize (pos - nextwpos))
          doReplLoop text d lastpos n (toSize (pos + pnr.pat.length))
            (toSize (pos + pnr.pat.length)) (result ++ copied ++ pnr.repl)
    else .ok (nextwpos, result)

/-- A string of the engine, with its length. -/
structure StringVal where
  val : List UInt8
  len : ℤ
  deriving DecidableEq, Repr

/-- `RETVAL_STRINGL(result.c, result.len, 0)`: the length of a string is an `int`. -/
def retvalStringl (s : List UInt8) : StringVal := ⟨s, toInt s.length⟩

/-- `php_strtr_array_do_repl`. Each turn of its loop moves `pos`, so `length + 2` turns are
enough. -/
def strtrArrayDoRepl (text : List UInt8) (d : Ppres) : Except Undefined StringVal := do
  let (nextwpos, result) ←
    doReplLoop text d (toSize (text.length - d.m)) (text.length + 2) 0 0 []
  let rest ← readText text nextwpos (toSize (text.length - nextwpos))
  .ok (retvalStringl (result ++ rest))

/-- `php_strtr_array`. No string is `RETURN_FALSE`. -/
def strtrArray (str : List UInt8) (pats : List (Key × List UInt8)) :
    Except Undefined (Option StringVal) :=
  match prepareRepls str.length pats with
  | none => .ok none
  | some patterns => do
    let r ← strtrArrayDoRepl str (strtrArrayPrepare patterns 2 2)
    .ok (some r)

end PhpRuntime.Text
