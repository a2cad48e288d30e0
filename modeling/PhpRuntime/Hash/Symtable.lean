import PhpRuntime.Hash.Refinement
import PhpRuntime.Lib.Positional

/-!
# Numeric string keys

`ZEND_HANDLE_NUMERIC_EX` and the `zend_symtable_*` functions of `Zend/zend_hash.h`, for a
`long` of 64 bits (`SIZEOF_LONG` is 8, so the overflow test for 4 bytes is not there). A
string is taken for an integer when it is the decimal numeral of a `long` with an optional
minus sign, and for no other string; so no two strings are taken for the same key.
-/

set_option autoImplicit false

namespace PhpRuntime.Hash

open PhpRuntime.Lib PhpRuntime.Lib.OrderedMap

variable {α : Type} {ht : HashTable α} {s t : List UInt8} {n : ℤ} {idx : UInt64}

/-- `MAX_LENGTH_OF_LONG` (zend.h:264). -/
def MAX_LENGTH_OF_LONG : ℕ := 20

/-- `*tmp >= '0' && *tmp <= '9'`. -/
def isDigit (c : UInt8) : Bool := 48 ≤ c && c ≤ 57

/-- `while (++tmp != end && *tmp >= '0' && *tmp <= '9') idx = (idx * 10) + (*tmp - '0');` over
the bytes between `tmp` and `end`; the second component is what lies before `end` after it. -/
def numericLoop : UInt64 → List UInt8 → UInt64 × List UInt8
  | idx, [] => (idx, [])
  | idx, c :: cs =>
      if isDigit c then numericLoop (idx * 10 + (c - 48).toUInt64) cs else (idx, c :: cs)

/-- `ZEND_HANDLE_NUMERIC_EX(key, length, idx, func)` (zend_hash.h:307-340) for the `length`
bytes at `key`: the index that `func` is run with, or `none` when it is not run. -/
def zendHandleNumericEx (key : List UInt8) : Option UInt64 :=
  let tmp := if key.head? = some 45 then key.tail else key
  match tmp with
  | [] => none
  | c :: rest =>
      if isDigit c then
        if key.getLast? ≠ some 0 ∨ (c = 48 ∧ 2 < key.length) ∨
            MAX_LENGTH_OF_LONG - 1 < rest.length then none
        else
          let (idx, left) := numericLoop (c - 48).toUInt64 rest.dropLast
          if left = [] then
            if key.head? = some 45 then
              if longMax < idx - 1 then none else some (0 - idx)
            else if longMax < idx then none else some idx
          else none
      else none

namespace HashTable

/-- `zend_symtable_update` (zend_hash.h:348-352). -/
def zendSymtableUpdate (malloc : Malloc) (ht : HashTable α) (key : KeyArg) (pData : α) :
    HashTable α × Status × Option Addr :=
  match zendHandleNumericEx key.bytes with
  | some idx => ht.zendHashIndexUpdateOrNextInsert malloc idx pData .HASH_UPDATE
  | none => ht.zendHashAddOrUpdate malloc key pData .HASH_UPDATE

/-- `zend_symtable_del` (zend_hash.h:355-359). -/
def zendSymtableDel (ht : HashTable α) (key : KeyArg) : HashTable α × Status :=
  match zendHandleNumericEx key.bytes with
  | some idx => ht.zendHashIndexDel idx
  | none => ht.zendHashDelKeyOrIndex key 0 .HASH_DEL_KEY

/-- `zend_symtable_find` (zend_hash.h:362-366). -/
def zendSymtableFind (ht : HashTable α) (key : KeyArg) : Option α :=
  match zendHandleNumericEx key.bytes with
  | some idx => ht.zendHashIndexFind idx
  | none => ht.zendHashFind key

/-- `zend_symtable_exists` (zend_hash.h:369-373). -/
def zendSymtableExists (ht : HashTable α) (key : KeyArg) : Bool :=
  match zendHandleNumericEx key.bytes with
  | some idx => ht.zendHashIndexExists idx
  | none => ht.zendHashExists key

/-- `zend_symtable_update_current_key_ex` (zend_hash.h:375-379). -/
def zendSymtableUpdateCurrentKeyEx (malloc : Malloc) (ht : HashTable α) (key : KeyArg)
    (mode : UpdateMode) (pos : Option (Option Addr)) :
    HashTable α × Status × Option (Option Addr) :=
  match zendHandleNumericEx key.bytes with
  | some idx => ht.zendHashUpdateCurrentKeyEx malloc (.long idx) mode pos
  | none => ht.zendHashUpdateCurrentKeyEx malloc (.string key) mode pos

end HashTable

/-! ## The loop -/

def digitBytes (l : List ℕ) : List UInt8 := l.map fun d => UInt8.ofNat (48 + d)

def byteDigits (cs : List UInt8) : List ℕ := cs.map fun c => c.toNat - 48

theorem isDigit_iff {c : UInt8} : isDigit c = true ↔ 48 ≤ c.toNat ∧ c.toNat ≤ 57 := by
  simp [isDigit, UInt8.le_iff_toNat_le]

theorem toNat_digit {c : UInt8} (hc : isDigit c = true) : (c - 48).toNat = c.toNat - 48 := by
  have h := isDigit_iff.mp hc
  rw [UInt8.toNat_sub_of_le _ _ (by rw [UInt8.le_iff_toNat_le]; exact h.1)]
  rfl

theorem numericLoop_left (idx : UInt64) (cs : List UInt8) :
    (numericLoop idx cs).2 = [] ↔ ∀ c ∈ cs, isDigit c = true := by
  induction cs generalizing idx with
  | nil => simp [numericLoop]
  | cons c cs ih =>
    unfold numericLoop
    by_cases hc : isDigit c = true
    · rw [if_pos hc, ih]
      simp [hc]
    · rw [if_neg hc]
      simp [hc]

theorem numericLoop_value (idx : UInt64) (cs : List UInt8) (hcs : ∀ c ∈ cs, isDigit c = true)
    (hfit : (byteDigits cs).foldl (fun v d => v * 10 + d) idx.toNat < 18446744073709551616) :
    (numericLoop idx cs).1.toNat = (byteDigits cs).foldl (fun v d => v * 10 + d) idx.toNat := by
  induction cs generalizing idx with
  | nil => rfl
  | cons c cs ih =>
    have hc := hcs c (by simp)
    have hd := toNat_digit hc
    have hmono : ∀ (l : List ℕ) (v : ℕ), v ≤ l.foldl (fun v d => v * 10 + d) v := by
      intro l
      induction l with
      | nil => exact fun v => le_rfl
      | cons d l ihl => exact fun v => le_trans (by omega) (ihl (v * 10 + d))
    have hstep : (idx * 10 + (c - 48).toUInt64).toNat = idx.toNat * 10 + (c.toNat - 48) := by
      have hle := hmono (byteDigits cs) (idx.toNat * 10 + (c.toNat - 48))
      have hlt := lt_of_le_of_lt hle hfit
      simp only [UInt64.toNat_add, UInt64.toNat_mul, UInt8.toNat_toUInt64, hd]
      have h10 : (10 : UInt64).toNat = 10 := rfl
      rw [h10]
      omega
    rw [numericLoop, if_pos hc, ih _ (fun c hc => hcs c (by simp [hc]))]
    · rw [hstep]
      rfl
    · rw [hstep]
      exact hfit

/-! ## The macro on a NUL-terminated string -/

/-- A string of digits that the macro accepts behind the sign, with the integer it stands
for: a canonical numeral of at most 19 digits. -/
structure Accepted (u : List UInt8) (idx : UInt64) : Prop where
  digits : ∀ c ∈ u, isDigit c = true
  canonical : Positional.Canonical 10 (byteDigits u)
  short : u.length ≤ 19
  value : idx.toNat = Positional.value 10 (byteDigits u)

/-- The numeral that the macro reads after the sign `neg`. -/
def readNumeral (neg : Bool) (key : List UInt8) : List UInt8 → Option UInt64
  | [] => none
  | c :: rest =>
      if isDigit c then
        if key.getLast? ≠ some 0 ∨ (c = 48 ∧ 2 < key.length) ∨
            MAX_LENGTH_OF_LONG - 1 < rest.length then none
        else if (numericLoop (c - 48).toUInt64 rest.dropLast).2 = [] then
          let idx := (numericLoop (c - 48).toUInt64 rest.dropLast).1
          if neg then if longMax < idx - 1 then none else some (0 - idx)
          else if longMax < idx then none else some idx
        else none
      else none

theorem zendHandleNumericEx_neg (u : List UInt8) :
    zendHandleNumericEx (45 :: u ++ [0]) = readNumeral true (45 :: u ++ [0]) (u ++ [0]) := by
  unfold zendHandleNumericEx
  rw [List.cons_append, List.head?_cons, if_pos rfl, List.tail_cons]
  cases u ++ [0] with
  | nil => rfl
  | cons c rest => simp [readNumeral]

theorem zendHandleNumericEx_pos (hs : s.head? ≠ some 45) :
    zendHandleNumericEx (s ++ [0]) = readNumeral false (s ++ [0]) (s ++ [0]) := by
  have hhead : (s ++ [0]).head? ≠ some 45 := by
    cases s with
    | nil => simp
    | cons c s => simpa using hs
  unfold zendHandleNumericEx
  rw [if_neg hhead]
  cases hcs : s ++ [0] with
  | nil => rfl
  | cons c rest =>
    rw [hcs] at hhead
    simp only [List.head?_cons, Option.some.injEq] at hhead
    simp [readNumeral, hhead]

theorem numericLoop_accepted {c : UInt8} {cs : List UInt8} (hd : ∀ x ∈ c :: cs, isDigit x = true)
    (hlen : cs.length < 19) :
    (numericLoop (c - 48).toUInt64 cs).1.toNat = Positional.value 10 (byteDigits (c :: cs)) := by
  have hc := toNat_digit (hd c (by simp))
  have hstart : (c - 48).toUInt64.toNat = c.toNat - 48 := by rw [UInt8.toNat_toUInt64, hc]
  have hval : Positional.value 10 (byteDigits (c :: cs)) =
      (byteDigits cs).foldl (fun v d => v * 10 + d) (c.toNat - 48) := by
    simp [Positional.value, byteDigits]
  have hlt : Positional.value 10 (byteDigits (c :: cs)) < 10 ^ (byteDigits (c :: cs)).length := by
    refine Positional.value_lt (by omega) fun d hmem => ?_
    obtain ⟨x, hx, rfl⟩ := List.mem_map.mp hmem
    have := isDigit_iff.mp (hd x hx)
    omega
  have hpow : 10 ^ (byteDigits (c :: cs)).length ≤ 10 ^ 19 := by
    refine Nat.pow_le_pow_right (by omega) ?_
    simp only [byteDigits, List.length_map, List.length_cons]
    omega
  rw [numericLoop_value _ _ fun x hx => hd x (by simp [hx])]
  · rw [hstart, hval]
  · rw [hstart, ← hval]
    omega

theorem accepted_cons_iff {c : UInt8} {cs : List UInt8} :
    Accepted (c :: cs) idx ↔ (∀ x ∈ c :: cs, isDigit x = true) ∧ ¬ (c = 48 ∧ cs ≠ []) ∧
      cs.length < 19 ∧ idx = (numericLoop (c - 48).toUInt64 cs).1 := by
  have hhead : ∀ x : UInt8, isDigit x = true → (x.toNat - 48 = 0 ↔ x = 48) := by
    intro x hx
    have := isDigit_iff.mp hx
    rw [← UInt8.toNat_inj]
    have h48 : (48 : UInt8).toNat = 48 := rfl
    omega
  constructor
  · intro h
    have hlen : cs.length < 19 := by
      have := h.short
      rw [List.length_cons] at this
      omega
    refine ⟨h.digits, ?_, hlen, ?_⟩
    · rintro ⟨rfl, hcs⟩
      have hlead := h.canonical.lead (by simp [byteDigits])
      exact hcs (by simpa [byteDigits] using hlead)
    · rw [← UInt64.toNat_inj, h.value, numericLoop_accepted h.digits hlen]
  · rintro ⟨hd, hz, hlen, rfl⟩
    refine ⟨hd, ⟨?_, by simp [byteDigits], ?_⟩, by rw [List.length_cons]; omega,
      numericLoop_accepted hd hlen⟩
    · intro d hmem
      obtain ⟨x, hx, rfl⟩ := List.mem_map.mp hmem
      have := isDigit_iff.mp (hd x hx)
      omega
    · intro h0
      have hc : c = 48 := (hhead c (hd c (by simp))).mp (by simpa [byteDigits] using h0)
      have hcs : cs = [] := by
        by_contra hcs
        exact hz ⟨hc, hcs⟩
      simp [hc, hcs, byteDigits]

theorem readNumeral_cons {neg : Bool} {key cs : List UInt8} {c : UInt8}
    (hkey : key.getLast? = some 0) :
    readNumeral neg key (c :: cs ++ [0]) =
      if (c :: cs).all isDigit ∧ ¬ (c = 48 ∧ 2 < key.length) ∧ cs.length < 19 then
        let idx := (numericLoop (c - 48).toUInt64 cs).1
        if neg then if longMax < idx - 1 then none else some (0 - idx)
        else if longMax < idx then none else some idx
      else none := by
  have hdrop : (cs ++ [0]).dropLast = cs := by simp
  have hlen : (cs ++ [0]).length = cs.length + 1 := by simp
  rw [List.cons_append, readNumeral, hkey, hdrop, hlen]
  simp only [List.all_eq_true]
  by_cases hd : ∀ x ∈ c :: cs, isDigit x = true
  · have hloop := (numericLoop_left (c - 48).toUInt64 cs).mpr fun x hx => hd x (by simp [hx])
    rw [if_pos (hd c (by simp))]
    by_cases hz : c = 48 ∧ 2 < key.length
    · rw [if_pos (Or.inr (Or.inl hz)), if_neg fun h => h.2.1 hz]
    · by_cases hl : cs.length < 19
      · have hshort : ¬ MAX_LENGTH_OF_LONG - 1 < cs.length + 1 := by
          simp only [MAX_LENGTH_OF_LONG]
          omega
        rw [if_neg (by simp [hz, hshort]), if_pos hloop, if_pos (And.intro hd ⟨hz, hl⟩)]
      · rw [if_pos (Or.inr (Or.inr (by simp only [MAX_LENGTH_OF_LONG]; omega))),
          if_neg fun h => hl h.2.2]
  · rw [if_neg fun h : _ ∧ _ => hd h.1]
    by_cases hc : isDigit c = true
    · have hloop : ¬ (numericLoop (c - 48).toUInt64 cs).2 = [] := fun h =>
        hd (List.forall_mem_cons.mpr ⟨hc, (numericLoop_left _ _).mp h⟩)
      rw [if_pos hc, if_neg hloop]
      split <;> rfl
    · rw [if_neg hc]

theorem readNumeral_eq_some {neg : Bool} {u : List UInt8} {b : List UInt8}
    (hpre : b.length = if neg then 1 else 0) :
    readNumeral neg (b ++ (u ++ [0])) (u ++ [0]) = some idx ↔
      ∃ m, Accepted u m ∧
        if neg then u ≠ [48] ∧ ¬ longMax < m - 1 ∧ idx = 0 - m
          else ¬ longMax < m ∧ idx = m := by
  cases u with
  | nil =>
    have hempty : ∀ m, ¬ Accepted [] m := fun m hm => hm.canonical.ne rfl
    have h0 : isDigit 0 = false := by decide
    simp [readNumeral, h0, hempty]
  | cons c cs =>
    have hlast : (b ++ (c :: cs ++ [0])).getLast? = some 0 := by
      rw [List.getLast?_append, List.getLast?_append]
      rfl
    have hlen : (b ++ (c :: cs ++ [0])).length = (if neg then 1 else 0) + cs.length + 2 := by
      simp only [List.length_append, List.length_cons, List.length_nil, hpre]
      omega
    rw [readNumeral_cons hlast, hlen]
    simp only [accepted_cons_iff, List.all_eq_true]
    cases neg with
    | true =>
      have hsign : ¬ (c = 48 ∧ 2 < 1 + cs.length + 2) ↔
          ¬ (c = 48 ∧ cs ≠ []) ∧ c :: cs ≠ [48] := by
        cases cs <;> simp
      simp only [reduceIte, Option.ite_none_right_eq_some, Option.ite_none_left_eq_some,
        Option.some.injEq]
      constructor
      · rintro ⟨⟨hd, hz, hl⟩, hle, rfl⟩
        obtain ⟨hz, hne⟩ := hsign.mp hz
        exact ⟨_, ⟨hd, hz, hl, rfl⟩, hne, hle, rfl⟩
      · rintro ⟨m, ⟨hd, hz, hl, rfl⟩, hne, hle, rfl⟩
        exact ⟨⟨hd, hsign.mpr ⟨hz, hne⟩, hl⟩, hle, rfl⟩
    | false =>
      have hsign : ¬ (c = 48 ∧ 2 < 0 + cs.length + 2) ↔ ¬ (c = 48 ∧ cs ≠ []) := by
        cases cs <;> simp
      simp only [Bool.false_eq_true, reduceIte, Option.ite_none_right_eq_some,
        Option.ite_none_left_eq_some, Option.some.injEq]
      constructor
      · rintro ⟨⟨hd, hz, hl⟩, hle, rfl⟩
        exact ⟨_, ⟨hd, hsign.mp hz, hl, rfl⟩, hle, rfl⟩
      · rintro ⟨m, ⟨hd, hz, hl, rfl⟩, hle, rfl⟩
        exact ⟨⟨hd, hsign.mpr hz, hl⟩, hle, rfl⟩

/-! ## The strings that are integers -/

def decimal (n : ℤ) : List UInt8 :=
  if n < 0 then 45 :: digitBytes (Positional.numeral 10 n.natAbs)
  else digitBytes (Positional.numeral 10 n.natAbs)

/-- `LONG_MIN <= n && n <= LONG_MAX`. -/
def FitsLong (n : ℤ) : Prop := -9223372036854775808 ≤ n ∧ n ≤ 9223372036854775807

theorem byteDigits_digitBytes {l : List ℕ} (hl : ∀ d ∈ l, d < 10) :
    byteDigits (digitBytes l) = l := by
  rw [byteDigits, digitBytes, List.map_map]
  refine (List.map_congr_left fun d hd => ?_).trans (List.map_id l)
  have := hl d hd
  simp only [Function.comp_apply, id, UInt8.toNat_ofNat']
  omega

theorem digitBytes_byteDigits {u : List UInt8} (hu : ∀ c ∈ u, isDigit c = true) :
    digitBytes (byteDigits u) = u := by
  rw [byteDigits, digitBytes, List.map_map]
  refine (List.map_congr_left fun c hc => ?_).trans (List.map_id u)
  have hd := isDigit_iff.mp (hu c hc)
  have hc48 : 48 + (c.toNat - 48) = c.toNat := by omega
  simp only [Function.comp_apply, id, hc48, UInt8.ofNat_toNat]

theorem isDigit_digitBytes {l : List ℕ} (hl : ∀ d ∈ l, d < 10) :
    ∀ c ∈ digitBytes l, isDigit c = true := by
  intro c hc
  obtain ⟨d, hd, rfl⟩ := List.mem_map.mp hc
  have := hl d hd
  rw [isDigit_iff, UInt8.toNat_ofNat']
  omega

theorem accepted_iff {u : List UInt8} :
    Accepted u idx ↔ u = digitBytes (Positional.numeral 10 idx.toNat) ∧ idx.toNat < 10 ^ 19 := by
  constructor
  · rintro ⟨hd, hc, hs, hv⟩
    have hnum := hc.numeral_value (by omega)
    refine ⟨by rw [hv, hnum, digitBytes_byteDigits hd], ?_⟩
    rw [hv]
    refine (Positional.value_lt (by omega) hc.lt).trans_le ?_
    exact Nat.pow_le_pow_right (by omega) (by simpa [byteDigits] using hs)
  · rintro ⟨rfl, hlt⟩
    have hc := Positional.canonical_numeral (b := 10) (by omega) idx.toNat
    have hbd := byteDigits_digitBytes hc.lt
    refine ⟨isDigit_digitBytes hc.lt, by rwa [hbd], ?_, by rw [hbd, Positional.value_numeral]⟩
    rw [digitBytes, List.length_map]
    exact Positional.length_numeral_le (by omega) (by omega) hlt

theorem head?_digitBytes {m : ℕ} : (digitBytes (Positional.numeral 10 m)).head? ≠ some 45 := by
  intro h
  have hc := Positional.canonical_numeral (b := 10) (by omega) m
  have hd := isDigit_digitBytes hc.lt 45 (List.mem_of_head? h)
  exact absurd hd (by decide)

/-- The negative numbers: `idx - 1 > LONG_MAX` is the overflow test. -/
theorem neg_spec {m : UInt64} (h0 : m ≠ 0) (hle : ¬ longMax < m - 1) :
    m.toNat ≤ 9223372036854775808 ∧ toLong (0 - m) = -(m.toNat : ℤ) := by
  have hm : 1 ≤ m.toNat := by
    by_contra hm
    exact h0 (UInt64.toNat_inj.mp (by have : (0 : UInt64).toNat = 0 := rfl; omega))
  have h1 : (m - 1).toNat = m.toNat - 1 := by
    rw [UInt64.toNat_sub_of_le _ _ (by rw [UInt64.le_iff_toNat_le]; exact hm)]
    rfl
  have hmax : longMax.toNat = 9223372036854775807 := rfl
  rw [UInt64.lt_iff_toNat_lt, h1, hmax] at hle
  have hneg : (0 - m).toNat = 18446744073709551616 - m.toNat := by
    rw [UInt64.toNat_sub]
    have : (0 : UInt64).toNat = 0 := rfl
    omega
  refine ⟨by omega, ?_⟩
  rw [toLong_eq, hneg]
  split <;> omega

theorem pos_spec {m : UInt64} (hle : ¬ longMax < m) :
    m.toNat ≤ 9223372036854775807 ∧ toLong m = (m.toNat : ℤ) := by
  have hmax : longMax.toNat = 9223372036854775807 := rfl
  rw [UInt64.lt_iff_toNat_lt, hmax] at hle
  refine ⟨by omega, ?_⟩
  rw [toLong_eq]
  split <;> omega

theorem zendHandleNumericEx_eq_some :
    zendHandleNumericEx (s ++ [0]) = some idx ↔ ∃ n, FitsLong n ∧ s = decimal n ∧ toLong idx = n := by
  constructor
  · intro h
    by_cases hs : s.head? = some 45
    · obtain ⟨u, rfl⟩ : ∃ u, s = 45 :: u := by
        cases s with
        | nil => exact absurd hs (by simp)
        | cons c u => exact ⟨u, by rw [Option.some.inj hs]⟩
      rw [zendHandleNumericEx_neg] at h
      obtain ⟨m, hm, hne, hle, rfl⟩ := (readNumeral_eq_some (b := [45]) rfl).mp h
      obtain ⟨hu, -⟩ := accepted_iff.mp hm
      have h0 : m ≠ 0 := by
        rintro rfl
        exact hne (hu.trans (by decide))
      obtain ⟨hfit, hlong⟩ := neg_spec h0 hle
      have hpos : m.toNat ≠ 0 := fun hz => h0 (UInt64.toNat_inj.mp hz)
      refine ⟨-(m.toNat : ℤ), ⟨by omega, by omega⟩, ?_, hlong⟩
      rw [decimal, if_pos (by omega), Int.natAbs_neg, Int.natAbs_natCast, ← hu]
    · rw [zendHandleNumericEx_pos hs] at h
      obtain ⟨m, hm, hle, rfl⟩ := (readNumeral_eq_some (b := []) rfl).mp h
      obtain ⟨hu, -⟩ := accepted_iff.mp hm
      obtain ⟨hfit, hlong⟩ := pos_spec hle
      refine ⟨idx.toNat, ⟨by omega, by omega⟩, ?_, hlong⟩
      rw [decimal, if_neg (by omega), Int.natAbs_natCast, ← hu]
  · rintro ⟨n, hfit, rfl, hn⟩
    obtain ⟨hlo, hhi⟩ := hfit
    have hsize : UInt64.size = 18446744073709551616 := rfl
    obtain ⟨m, hm⟩ : ∃ m : UInt64, m.toNat = n.natAbs :=
      ⟨UInt64.ofNat n.natAbs, UInt64.toNat_ofNat_of_lt' (by omega)⟩
    have hacc : Accepted (digitBytes (Positional.numeral 10 n.natAbs)) m :=
      accepted_iff.mpr ⟨by rw [hm], by omega⟩
    have hmax : longMax.toNat = 9223372036854775807 := rfl
    unfold decimal
    by_cases hneg : n < 0
    · rw [if_pos hneg, zendHandleNumericEx_neg]
      have h0 : m ≠ 0 := by
        rintro rfl
        have : (0 : UInt64).toNat = 0 := rfl
        omega
      have h1 : (m - 1).toNat = m.toNat - 1 := by
        rw [UInt64.toNat_sub_of_le _ _ (by rw [UInt64.le_iff_toNat_le, hm]; show 1 ≤ _; omega)]
        rfl
      have hle : ¬ longMax < m - 1 := by
        rw [UInt64.lt_iff_toNat_lt, h1, hmax]
        omega
      refine (readNumeral_eq_some (b := [45]) rfl).mpr ⟨m, hacc, ?_, hle, ?_⟩
      · intro h48
        have hd := congrArg byteDigits h48
        rw [byteDigits_digitBytes (Positional.canonical_numeral (by omega) _).lt] at hd
        have hz : Positional.numeral 10 n.natAbs = Positional.numeral 10 0 := hd
        have := Positional.numeral_injective 10 hz
        omega
      · refine toLong_injective ?_
        rw [(neg_spec h0 hle).2, hn, hm]
        omega
    · rw [if_neg hneg, zendHandleNumericEx_pos head?_digitBytes]
      have hle : ¬ longMax < m := by
        rw [UInt64.lt_iff_toNat_lt, hmax]
        omega
      refine (readNumeral_eq_some (b := []) rfl).mpr ⟨m, hacc, hle, ?_⟩
      refine toLong_injective ?_
      rw [(pos_spec hle).2, hn, hm]
      omega

/-! ## The slot of a string -/

/-- The key that the `zend_symtable_*` functions use for a string. -/
def symtableKey (s : List UInt8) : Key :=
  match zendHandleNumericEx (s ++ [0]) with
  | some idx => .int idx
  | none => .str (s ++ [0])

theorem symtableKey_of_some (h : zendHandleNumericEx (s ++ [0]) = some idx) :
    symtableKey s = .int idx := by
  rw [symtableKey, h]

theorem symtableKey_of_none (h : zendHandleNumericEx (s ++ [0]) = none) :
    symtableKey s = .str (s ++ [0]) := by
  rw [symtableKey, h]

theorem symtableKey_injective : Function.Injective symtableKey := by
  intro s t hst
  cases hs : zendHandleNumericEx (s ++ [0]) with
  | some idx =>
    rw [symtableKey_of_some hs] at hst
    obtain ⟨n, -, rfl, hn⟩ := zendHandleNumericEx_eq_some.mp hs
    cases ht : zendHandleNumericEx (t ++ [0]) with
    | some idx' =>
      rw [symtableKey_of_some ht, Key.int.injEq] at hst
      obtain ⟨n', -, rfl, hn'⟩ := zendHandleNumericEx_eq_some.mp ht
      rw [← hn, ← hn', hst]
    | none =>
      rw [symtableKey_of_none ht] at hst
      exact absurd hst (by simp)
  | none =>
    rw [symtableKey_of_none hs] at hst
    cases ht : zendHandleNumericEx (t ++ [0]) with
    | some idx' =>
      rw [symtableKey_of_some ht] at hst
      exact absurd hst (by simp)
    | none =>
      rw [symtableKey_of_none ht, Key.str.injEq] at hst
      exact List.append_cancel_right hst

/-- The `zend_symtable_*` functions for the string `key` do what the index functions do for
`idx`. -/
structure SameAsIndex (ht : HashTable α) (key : KeyArg) (idx : UInt64) : Prop where
  update : ∀ malloc v, ht.zendSymtableUpdate malloc key v =
    ht.zendHashIndexUpdateOrNextInsert malloc idx v .HASH_UPDATE
  find : ht.zendSymtableFind key = ht.zendHashIndexFind idx
  exists_ : ht.zendSymtableExists key = ht.zendHashIndexExists idx
  del : ht.zendSymtableDel key = ht.zendHashIndexDel idx
  updateCurrentKey : ∀ malloc mode pos, ht.zendSymtableUpdateCurrentKeyEx malloc key mode pos =
    ht.zendHashUpdateCurrentKeyEx malloc (.long idx) mode pos

/-- The `zend_symtable_*` functions for the string `key` do what the string functions do. -/
structure SameAsString (ht : HashTable α) (key : KeyArg) : Prop where
  update : ∀ malloc v, ht.zendSymtableUpdate malloc key v =
    ht.zendHashAddOrUpdate malloc key v .HASH_UPDATE
  find : ht.zendSymtableFind key = ht.zendHashFind key
  exists_ : ht.zendSymtableExists key = ht.zendHashExists key
  del : ht.zendSymtableDel key = ht.zendHashDelKeyOrIndex key 0 .HASH_DEL_KEY
  updateCurrentKey : ∀ malloc mode pos, ht.zendSymtableUpdateCurrentKeyEx malloc key mode pos =
    ht.zendHashUpdateCurrentKeyEx malloc (.string key) mode pos

theorem sameAsIndex (ht : HashTable α) {key : KeyArg}
    (h : zendHandleNumericEx key.bytes = some idx) : SameAsIndex ht key idx := by
  refine ⟨fun malloc v => ?_, ?_, ?_, ?_, fun malloc mode pos => ?_⟩
  · rw [HashTable.zendSymtableUpdate, h]
  · rw [HashTable.zendSymtableFind, h]
  · rw [HashTable.zendSymtableExists, h]
  · rw [HashTable.zendSymtableDel, h]
  · rw [HashTable.zendSymtableUpdateCurrentKeyEx, h]

theorem sameAsString (ht : HashTable α) {key : KeyArg}
    (h : zendHandleNumericEx key.bytes = none) : SameAsString ht key := by
  refine ⟨fun malloc v => ?_, ?_, ?_, ?_, fun malloc mode pos => ?_⟩
  · rw [HashTable.zendSymtableUpdate, h]
  · rw [HashTable.zendSymtableFind, h]
  · rw [HashTable.zendSymtableExists, h]
  · rw [HashTable.zendSymtableDel, h]
  · rw [HashTable.zendSymtableUpdateCurrentKeyEx, h]

/-- On the pairs of a table the `zend_symtable_*` functions for the string `key` are the
operations of the map at the key `k`. -/
structure SymtableAt (ht : HashTable α) (key : KeyArg) (k : Key) : Prop where
  update : ∀ malloc v, (ht.zendSymtableUpdate malloc key v).1.toMap = set ht.toMap k v
  find : ht.zendSymtableFind key = lookup ht.toMap k
  exists_ : ht.zendSymtableExists key = true ↔ k ∈ keys ht.toMap
  del : (ht.zendSymtableDel key).1.toMap = erase ht.toMap k

theorem CleanRun.symtableAt (h : CleanRun ht) {key : KeyArg} (hkey : key.bytes = s ++ [0])
    (hv : ValidKey ht ht.buckets key) (hns : NotStale ht ht.buckets key.arKey)
    (hroom : ht.nNumOfElements + 1 < 2 ^ 32) : SymtableAt ht key (symtableKey s) := by
  have href := h.refinesMap
  have hlen : key.nKeyLength ≠ 0 := by simp [KeyArg.nKeyLength, hkey]
  cases hs : zendHandleNumericEx (s ++ [0]) with
  | some idx =>
    obtain ⟨hupdate, hfind, hexists, hdel, -⟩ := sameAsIndex ht (hkey ▸ hs)
    rw [symtableKey_of_some hs]
    refine ⟨fun malloc v => ?_, ?_, ?_, ?_⟩
    · rw [hupdate]
      have hspec := (href.indexUpdateOrNextInsert malloc idx v .HASH_UPDATE ⟨trivial, hroom⟩).1
      simpa using hspec
    · rw [hfind, (href.indexFind idx).1]
    · rw [hexists, (href.indexFind idx).2]
    · rw [hdel]
      exact (href.delKeyOrIndex ⟨.null, []⟩ idx .HASH_DEL_INDEX ⟨fun h0 => absurd rfl h0, trivial⟩).1
  | none =>
    obtain ⟨hupdate, hfind, hexists, hdel, -⟩ := sameAsString ht (hkey ▸ hs)
    rw [symtableKey_of_none hs, ← hkey]
    refine ⟨fun malloc v => ?_, ?_, ?_, ?_⟩
    · rw [hupdate]
      have hspec := (href.addOrUpdate malloc key v .HASH_UPDATE ⟨hv, hns, hroom⟩ hlen).1
      simpa using hspec
    · rw [hfind, (href.find key ⟨hv, hns⟩ hlen).1]
    · rw [hexists, (href.find key ⟨hv, hns⟩ hlen).2]
    · rw [hdel]
      have hspec := (href.delKeyOrIndex key 0 .HASH_DEL_KEY ⟨fun _ => rfl, trivial⟩).1
      rw [hspec]
      simp [KeyArg.toKey, hlen]

example : zendHandleNumericEx ([57, 50, 50, 51, 51, 55, 50, 48, 51, 54, 56, 53, 52, 55, 55, 53, 56,
    48, 56] ++ [0]) = none := by decide

end PhpRuntime.Hash
