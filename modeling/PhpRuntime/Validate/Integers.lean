import Mathlib.Data.List.TakeWhile
import PhpRuntime.Lib.Positional
import PhpRuntime.Text.CInt
import Mathlib.Tactic.Ring

/-!
# `FILTER_VALIDATE_INT`

`php_filter_int` and its three parsers. A numeral with a prefix is read as an `unsigned long`, and
one without a prefix as a `long`.
-/

set_option autoImplicit false

namespace PhpRuntime.Validate

open PhpRuntime.Lib PhpRuntime.Text

/-! ## The parsers -/

/-- `LONG_MIN` -/
def LONG_MIN : ℤ := -LONG_MAX - 1

/-- `MAX_LENGTH_OF_LONG` -/
def MAX_LENGTH_OF_LONG : ℕ := 20

/-- `(unsigned long)(~(long)0)` -/
def ULONG_MAX : ℕ := 18446744073709551615

/-- `(long) x` of an `unsigned long` -/
def toLong (x : ℕ) : ℤ := Int.bmod x 18446744073709551616

/-- The loop of `php_filter_parse_int`. The divisions are those of C. -/
def parseIntLoop (sign : Bool) : List UInt8 → ℤ → Option ℤ
  | [], ctxValue => some ctxValue
  | c :: str, ctxValue =>
    if isdigit c = true then
      let digit : ℤ := c.toNat - 48
      if sign = false ∧ ctxValue ≤ (LONG_MAX - digit).tdiv 10 then
        parseIntLoop sign str (ctxValue * 10 + digit)
      else if sign = true ∧ (LONG_MIN + digit).tdiv 10 ≤ ctxValue then
        parseIntLoop sign str (ctxValue * 10 - digit)
      else none
    else none

/-- `php_filter_parse_int` behind the sign. `ret` is what `*ret` is before, and stays where the
number is zero. -/
def parseUnsigned (sign : Bool) (str : List UInt8) (ret : ℤ) : Option ℤ :=
  if str = [48] then some ret
  else match str with
  | [] => none
  | c :: str =>
    if 49 ≤ c ∧ c ≤ 57 then
      -- a `long` has eight bytes, so the test for four is left out
      if MAX_LENGTH_OF_LONG - 1 < str.length then none
      else parseIntLoop sign str ((if sign then -1 else 1) * (c.toNat - 48))
    else none

/-- `php_filter_parse_int` -/
def phpFilterParseInt (str : List UInt8) (ret : ℤ) : Option ℤ :=
  if str.headD 0 = 45 then parseUnsigned true str.tail ret
  else if str.headD 0 = 43 then parseUnsigned false str.tail ret
  else parseUnsigned false str ret

/-- The loop of the parsers for a base, over the `unsigned long` `ctx_value`. -/
def parseBase (digit? : UInt8 → Option ℕ) (base : ℕ) : List UInt8 → ℕ → Option ℤ
  | [], ctxValue => some (toLong ctxValue)
  | c :: str, ctxValue =>
    match digit? c with
    | none => none
    | some n =>
      if ULONG_MAX / base < ctxValue ∨ ULONG_MAX - n < ctxValue * base then none
      else parseBase digit? base str (ctxValue * base + n)

/-- A digit between `'0'` and `'7'` -/
def octalDigit (c : UInt8) : Option ℕ := if 48 ≤ c ∧ c ≤ 55 then some (c.toNat - 48) else none

/-- A digit, or a letter between `'a'` and `'f'` or between `'A'` and `'F'` -/
def hexDigit (c : UInt8) : Option ℕ :=
  if 48 ≤ c ∧ c ≤ 57 then some (c.toNat - 48)
  else if 97 ≤ c ∧ c ≤ 102 then some (c.toNat - 87)
  else if 65 ≤ c ∧ c ≤ 70 then some (c.toNat - 55)
  else none

/-- `php_filter_parse_octal` -/
def phpFilterParseOctal (str : List UInt8) : Option ℤ := parseBase octalDigit 8 str 0

/-- `php_filter_parse_hex` -/
def phpFilterParseHex (str : List UInt8) : Option ℤ := parseBase hexDigit 16 str 0

/-! ## The filter -/

/-- `' '`, `'\t'`, `'\r'`, `'\v'` and `'\n'` -/
def blank (c : UInt8) : Bool := c ∈ [32, 9, 13, 11, 10]

/-- `PHP_FILTER_TRIM_DEFAULT`: the text between the blanks, and the blanks behind it. -/
def trimDefault (value : List UInt8) : List UInt8 × List UInt8 :=
  let p := value.dropWhile blank
  ((p.reverse.dropWhile blank).reverse, (p.reverse.takeWhile blank).reverse)

/-- `FILTER_FLAG_ALLOW_OCTAL` -/
def FILTER_FLAG_ALLOW_OCTAL : ℕ := 1

/-- `FILTER_FLAG_ALLOW_HEX` -/
def FILTER_FLAG_ALLOW_HEX : ℕ := 2

/-- The value of the text, between a sign or a prefix and its end. `behind` is what stands in
memory behind it, in front of the terminator. -/
def parseText (allowOctal allowHex : Prop) [Decidable allowOctal] [Decidable allowHex]
    (text behind : List UInt8) : Option ℤ :=
  match text with
  | [] => none
  | c :: p =>
    if c = 48 then
      if allowHex ∧ ((p ++ behind).headD 0 = 120 ∨ (p ++ behind).headD 0 = 88) then
        phpFilterParseHex p.tail
      else if allowOctal then phpFilterParseOctal p
      else if p ≠ [] then none
      else some 0
    else phpFilterParseInt (c :: p) 0

/-- `php_filter_int`: the value, or `none` where the validation fails. -/
def phpFilterInt (value : List UInt8) (minRange maxRange : Option ℤ) (flags : ℕ) : Option ℤ :=
  if value = [] then none
  else
    let (text, behind) := trimDefault value
    match parseText (flags &&& FILTER_FLAG_ALLOW_OCTAL ≠ 0) (flags &&& FILTER_FLAG_ALLOW_HEX ≠ 0)
      text behind with
    | none => none
    | some ctxValue =>
      if (∃ m ∈ minRange, ctxValue < m) ∨ (∃ m ∈ maxRange, m < ctxValue) then none
      else some ctxValue

/-! ## Numerals -/

def decimalDigit (c : UInt8) : Option ℕ := if isdigit c = true then some (c.toNat - 48) else none

def Digits (digit? : UInt8 → Option ℕ) (text : List UInt8) (ds : List ℕ) : Prop :=
  text.map digit? = ds.map some

def signed (sign : Bool) (n : ℕ) : ℤ := if sign then -n else n

/-- An optional sign and zero, or an optional sign and digits without a leading zero. -/
def Decimal (text : List UInt8) (n : ℤ) : Prop :=
  ∃ sign str ds, (text = 45 :: str ∧ sign = true ∨ (text = 43 :: str ∨ text = str) ∧ sign = false) ∧
    Digits decimalDigit str ds ∧ Positional.Canonical 10 ds ∧ n = signed sign (Positional.value 10 ds)

def Octal (text : List UInt8) (n : ℕ) : Prop :=
  ∃ str ds, text = 48 :: str ∧ Digits octalDigit str ds ∧ n = Positional.value 8 ds

/-- `0x` or `0X` and hexadecimal digits. -/
def Hex (text : List UInt8) (n : ℕ) : Prop :=
  ∃ x str ds, (x = 120 ∨ x = 88) ∧ text = 48 :: x :: str ∧ str ≠ [] ∧ Digits hexDigit str ds ∧
    n = Positional.value 16 ds

variable {digit? : UInt8 → Option ℕ} {base : ℕ} {c : UInt8} {str text : List UInt8} {ds : List ℕ}
  {v : ℤ}

theorem digits_nil : Digits digit? [] ds ↔ ds = [] := by
  cases ds <;> simp [Digits]

theorem digits_cons : Digits digit? (c :: str) ds ↔
    ∃ n ds', digit? c = some n ∧ Digits digit? str ds' ∧ ds = n :: ds' := by
  unfold Digits
  cases ds with
  | nil => simp
  | cons n ds => simp [and_assoc]

def continued (base : ℕ) (ds : List ℕ) (m : ℕ) : ℕ := ds.foldl (fun v d => v * base + d) m

theorem value_eq_continued (base : ℕ) (ds : List ℕ) : Positional.value base ds = continued base ds 0 :=
  rfl

theorem continued_cons (base : ℕ) (n : ℕ) (ds : List ℕ) (m : ℕ) :
    continued base (n :: ds) m = continued base ds (m * base + n) := rfl

theorem not_digits_cons (hc : digit? c = none) : ¬ Digits digit? (c :: str) ds := by
  intro hds
  obtain ⟨n, ds', hn, -, -⟩ := digits_cons.mp hds
  rw [hc] at hn
  cases hn

theorem exists_digits_cons {m n : ℕ} (hc : digit? c = some n) (P : ℕ → Prop) :
    (∃ ds, Digits digit? (c :: str) ds ∧ P (continued base ds m)) ↔
      ∃ ds, Digits digit? str ds ∧ P (continued base ds (m * base + n)) := by
  constructor
  · rintro ⟨ds, hds, hP⟩
    obtain ⟨n', ds', hn, hds', rfl⟩ := digits_cons.mp hds
    rw [hc, Option.some.injEq] at hn
    rw [← hn, continued_cons] at hP
    exact ⟨ds', hds', hP⟩
  · rintro ⟨ds, hds, hP⟩
    exact ⟨n :: ds, digits_cons.mpr ⟨n, ds, hc, hds, rfl⟩, hP⟩

/-! ## The parsers for a base -/

theorem overflow_iff {m n : ℕ} (hbase : 0 < base) (hn : n ≤ ULONG_MAX) :
    (ULONG_MAX / base < m ∨ ULONG_MAX - n < m * base) ↔ ULONG_MAX < m * base + n := by
  rw [Nat.div_lt_iff_lt_mul hbase]
  omega

theorem parseBase_eq_some (hbase : 0 < base) (hdigit : ∀ c n, digit? c = some n → n ≤ ULONG_MAX)
    (str : List UInt8) {m : ℕ} (hm : m ≤ ULONG_MAX) :
    parseBase digit? base str m = some v ↔
      ∃ ds, Digits digit? str ds ∧ continued base ds m ≤ ULONG_MAX ∧
        v = toLong (continued base ds m) := by
  induction str generalizing m with
  | nil =>
    rw [parseBase, Option.some.injEq]
    constructor
    · intro h
      exact ⟨[], rfl, hm, h.symm⟩
    · rintro ⟨ds, hds, -, hv⟩
      rw [digits_nil.mp hds] at hv
      exact hv.symm
  | cons c str ih =>
    rw [parseBase]
    cases hc : digit? c with
    | none =>
      refine iff_of_false (by simp) ?_
      rintro ⟨ds, hds, -⟩
      exact not_digits_cons hc hds
    | some n =>
      simp only [overflow_iff hbase (hdigit c n hc)]
      rw [exists_digits_cons hc fun x => x ≤ ULONG_MAX ∧ v = toLong x]
      split
      · next hover =>
        refine iff_of_false (by simp) ?_
        rintro ⟨ds, -, hle, -⟩
        have hmono := Positional.le_foldl (b := base) hbase ds (m * base + n)
        unfold continued at hle
        omega
      · next hfits => exact ih (by omega)

theorem octalDigit_lt {n : ℕ} (h : octalDigit c = some n) : n ≤ ULONG_MAX := by
  unfold octalDigit at h
  have hc := c.toNat_lt
  rw [ULONG_MAX]
  split at h
  · cases h
    omega
  · cases h

theorem hexDigit_lt {n : ℕ} (h : hexDigit c = some n) : n ≤ ULONG_MAX := by
  unfold hexDigit at h
  have hc := c.toNat_lt
  rw [ULONG_MAX]
  split_ifs at h <;> cases h <;> omega

/-! ## The parser of decimal numerals -/

/-- The greatest magnitude of a `long` with a sign. -/
def bound (sign : Bool) : ℕ := if sign then 9223372036854775808 else 9223372036854775807

theorem signed_le {sign : Bool} {n : ℕ} :
    n ≤ bound sign ↔ LONG_MIN ≤ signed sign n ∧ signed sign n ≤ LONG_MAX := by
  rw [LONG_MIN, LONG_MAX]
  cases sign
  · simp only [bound, signed, Bool.false_eq_true, if_false]
    omega
  · simp only [bound, signed, if_true]
    omega

theorem parseIntLoop_cons {sign : Bool} {m n : ℕ} (hc : decimalDigit c = some n) :
    parseIntLoop sign (c :: str) (signed sign m) =
      if m * 10 + n ≤ bound sign then parseIntLoop sign str (signed sign (m * 10 + n)) else none := by
  unfold decimalDigit at hc
  split at hc
  · next hdigit =>
    have hle := ((isdigit_iff c).mp hdigit).2
    cases hc
    have hdigit' : (c.toNat : ℤ) - 48 = ((c.toNat - 48 : ℕ) : ℤ) := by
      have hge := ((isdigit_iff c).mp hdigit).1
      omega
    rw [parseIntLoop, if_pos hdigit]
    simp only [hdigit']
    generalize c.toNat - 48 = n at *
    have hn : n ≤ 9 := by omega
    cases sign with
    | false =>
      have hdiv : (LONG_MAX - n).tdiv 10 = (LONG_MAX - n) / 10 :=
        Int.tdiv_eq_ediv_of_nonneg (by rw [LONG_MAX]; omega)
      rw [LONG_MAX] at hdiv
      simp only [hdiv, LONG_MAX, signed, bound, true_and, Bool.false_eq_true, false_and, if_false]
      split <;> split <;> first | rfl | omega
    | true =>
      have hdiv : (LONG_MIN + n).tdiv 10 = -((LONG_MAX + 1 - n) / 10) := by
        rw [show LONG_MIN + n = -(LONG_MAX + 1 - n) by rw [LONG_MIN]; omega, Int.neg_tdiv,
          Int.tdiv_eq_ediv_of_nonneg (by rw [LONG_MAX]; omega)]
      have hstep : -(m : ℤ) * 10 - n = -((m * 10 + n : ℕ) : ℤ) := by push_cast; ring
      simp only [hdiv, LONG_MAX, signed, bound, true_and, Bool.true_eq_false, false_and, if_false,
        if_true, hstep]
      split <;> split <;> first | rfl | omega
  · cases hc

theorem parseIntLoop_eq_some {sign : Bool} (str : List UInt8) {m : ℕ} (hm : m ≤ bound sign) :
    parseIntLoop sign str (signed sign m) = some v ↔
      ∃ ds, Digits decimalDigit str ds ∧ continued 10 ds m ≤ bound sign ∧
        v = signed sign (continued 10 ds m) := by
  induction str generalizing m with
  | nil =>
    rw [parseIntLoop, Option.some.injEq]
    constructor
    · intro h
      exact ⟨[], rfl, hm, h.symm⟩
    · rintro ⟨ds, hds, -, hv⟩
      rw [digits_nil.mp hds] at hv
      exact hv.symm
  | cons c str ih =>
    cases hc : decimalDigit c with
    | none =>
      have hno : ¬ isdigit c = true := fun h => by simp [decimalDigit, h] at hc
      rw [parseIntLoop, if_neg hno]
      refine iff_of_false (by simp) ?_
      rintro ⟨ds, hds, -⟩
      exact not_digits_cons hc hds
    | some n =>
      rw [parseIntLoop_cons hc, exists_digits_cons hc fun x => x ≤ bound sign ∧ v = signed sign x]
      split
      · next hfits => exact ih hfits
      · next hover =>
        refine iff_of_false (by simp) ?_
        rintro ⟨ds, -, hle, -⟩
        have hmono := Positional.le_foldl (b := 10) (by decide) ds (m * 10 + n)
        unfold continued at hle
        omega

theorem decimalDigit_eq_some {n : ℕ} :
    decimalDigit c = some n ↔ 48 ≤ c.toNat ∧ c.toNat ≤ 57 ∧ n = c.toNat - 48 := by
  have hdigit := isdigit_iff c
  unfold decimalDigit
  split
  · next h =>
    obtain ⟨hlow, hhigh⟩ := hdigit.mp h
    rw [Option.some.injEq, and_iff_right hlow, and_iff_right hhigh]
    exact eq_comm
  · next h =>
    refine iff_of_false (by simp) ?_
    rintro ⟨hlow, hhigh, -⟩
    exact h (hdigit.mpr ⟨hlow, hhigh⟩)

theorem length_digits (h : Digits digit? str ds) : ds.length = str.length := by
  have hlen := congrArg List.length h
  rwa [List.length_map, List.length_map, eq_comm] at hlen

theorem decimalDigits_lt (h : Digits decimalDigit str ds) : ∀ d ∈ ds, d < 10 := by
  induction str generalizing ds with
  | nil =>
    rw [digits_nil.mp h]
    exact fun d hd => absurd hd List.not_mem_nil
  | cons c str ih =>
    obtain ⟨n, ds', hn, hds', rfl⟩ := digits_cons.mp h
    obtain ⟨hlow, hhigh, rfl⟩ := decimalDigit_eq_some.mp hn
    intro d hd
    cases hd with
    | head => omega
    | tail _ hd => exact ih hds' d hd

theorem signed_zero (sign : Bool) : signed sign 0 = 0 := by cases sign <;> rfl

theorem digits_zero : Digits decimalDigit [48] ds ↔ ds = [0] := by
  rw [digits_cons]
  constructor
  · rintro ⟨n, ds', hn, hds', rfl⟩
    obtain ⟨-, -, rfl⟩ := decimalDigit_eq_some.mp hn
    rw [digits_nil.mp hds']
    rfl
  · rintro rfl
    exact ⟨0, [], decimalDigit_eq_some.mpr ⟨by decide, by decide, rfl⟩, digits_nil.mpr rfl, rfl⟩

theorem canonical_zero : Positional.Canonical 10 [0] :=
  ⟨fun d hd => by rw [List.mem_singleton.mp hd]; decide, by simp, fun _ => rfl⟩

theorem parseUnsigned_cons {sign : Bool} {n : ℕ} (hn : decimalDigit c = some n) (hpos : 0 < n) :
    parseUnsigned sign (c :: str) 0 = some v ↔
      ∃ ds, Digits decimalDigit str ds ∧ continued 10 ds n ≤ bound sign ∧
        v = signed sign (continued 10 ds n) := by
  obtain ⟨hlow, hhigh, hval⟩ := decimalDigit_eq_some.mp hn
  have hfirst : 49 ≤ c ∧ c ≤ 57 := by
    rw [UInt8.le_iff_toNat_le, UInt8.le_iff_toNat_le]
    exact ⟨show 49 ≤ c.toNat by omega, hhigh⟩
  have hzero : ¬ c :: str = [48] := by
    intro h
    rw [(List.cons.inj h).1] at hval
    exact absurd hval (by simp; omega)
  rw [parseUnsigned, if_neg hzero, if_pos hfirst]
  split
  · next hlong =>
    -- a number of more than twenty digits
    refine iff_of_false (by simp) ?_
    rintro ⟨ds, hds, hle, -⟩
    have hlen : 20 ≤ ds.length := by
      rw [length_digits hds]
      rw [MAX_LENGTH_OF_LONG] at hlong
      omega
    have hbig := Positional.mul_pow_le_foldl 10 ds n
    have hpow : 10 ^ 20 ≤ 10 ^ ds.length := Nat.pow_le_pow_right (by decide) hlen
    have hmul : 1 * 10 ^ ds.length ≤ n * 10 ^ ds.length := Nat.mul_le_mul_right _ hpos
    have hbound : bound sign ≤ 9223372036854775808 := by cases sign <;> decide
    unfold continued at hle
    omega
  · have hstart : (if sign then (-1 : ℤ) else 1) * (c.toNat - 48) = signed sign n := by
      have hcast : (c.toNat : ℤ) - 48 = n := by omega
      cases sign <;> simp [signed, hcast]
    have hbound : 9223372036854775807 ≤ bound sign := by cases sign <;> decide
    rw [hstart]
    exact parseIntLoop_eq_some str (by omega)

theorem parseUnsigned_eq_some {sign : Bool} (str : List UInt8) :
    parseUnsigned sign str 0 = some v ↔
      ∃ ds, Digits decimalDigit str ds ∧ Positional.Canonical 10 ds ∧
        Positional.value 10 ds ≤ bound sign ∧ v = signed sign (Positional.value 10 ds) := by
  by_cases hzero : str = [48]
  · rw [hzero, parseUnsigned, if_pos rfl, Option.some.injEq]
    constructor
    · rintro rfl
      exact ⟨[0], digits_zero.mpr rfl, canonical_zero, Nat.zero_le _, (signed_zero sign).symm⟩
    · rintro ⟨ds, hds, -, -, rfl⟩
      rw [digits_zero.mp hds]
      exact (signed_zero sign).symm
  · cases str with
    | nil =>
      refine iff_of_false (by simp [parseUnsigned]) ?_
      rintro ⟨ds, hds, hcanonical, -, -⟩
      exact hcanonical.ne (digits_nil.mp hds)
    | cons c str =>
      by_cases hdigit : ∃ n, decimalDigit c = some n ∧ 0 < n
      · obtain ⟨n, hn, hpos⟩ := hdigit
        rw [parseUnsigned_cons hn hpos]
        have hvalue (ds : List ℕ) : Positional.value 10 (n :: ds) = continued 10 ds n := by
          rw [value_eq_continued, continued_cons, Nat.zero_mul, Nat.zero_add]
        constructor
        · rintro ⟨ds, hds, hle, hv⟩
          have hall : Digits decimalDigit (c :: str) (n :: ds) :=
            digits_cons.mpr ⟨n, ds, hn, hds, rfl⟩
          refine ⟨n :: ds, hall, ⟨decimalDigits_lt hall, by simp, fun hlead => ?_⟩, ?_, ?_⟩
          · rw [List.head?_cons, Option.some.injEq] at hlead
            omega
          · rwa [hvalue]
          · rwa [hvalue]
        · rintro ⟨ds, hds, -, hle, hv⟩
          obtain ⟨n', ds', hn', hds', rfl⟩ := digits_cons.mp hds
          rw [hn, Option.some.injEq] at hn'
          rw [← hn', hvalue] at hle hv
          exact ⟨ds', hds', hle, hv⟩
      · have hfirst : ¬ (49 ≤ c ∧ c ≤ 57) := by
          rw [UInt8.le_iff_toNat_le, UInt8.le_iff_toNat_le]
          rintro ⟨hlow, hhigh⟩
          have hlow' : 49 ≤ c.toNat := hlow
          exact hdigit ⟨c.toNat - 48, decimalDigit_eq_some.mpr ⟨by omega, hhigh, rfl⟩, by omega⟩
        rw [parseUnsigned, if_neg hzero, if_neg hfirst]
        refine iff_of_false (by simp) ?_
        rintro ⟨ds, hds, hcanonical, -, -⟩
        obtain ⟨n, ds', hn, hds', rfl⟩ := digits_cons.mp hds
        have hn0 : n = 0 := by
          by_contra hne
          exact hdigit ⟨n, hn, by omega⟩
        obtain ⟨hlow, hhigh, hval⟩ := decimalDigit_eq_some.mp hn
        have hlead := hcanonical.lead (by rw [hn0]; rfl)
        have hnil : ds' = [] := (List.cons.inj hlead).2
        have hstr : str = [] := by
          rw [← List.length_eq_zero_iff, ← length_digits hds', hnil]
          rfl
        have hc : c = 48 := by
          rw [← UInt8.toNat_inj]
          exact show c.toNat = 48 by omega
        exact hzero (by rw [hc, hstr])

/-- `php_filter_parse_int` accepts the decimal numerals of the range of a `long`. -/
theorem phpFilterParseInt_eq_some (text : List UInt8) :
    phpFilterParseInt text 0 = some v ↔ Decimal text v ∧ LONG_MIN ≤ v ∧ v ≤ LONG_MAX := by
  have hsign (c : UInt8) (hc : c.toNat < 48) (str : List UInt8) (ds : List ℕ) :
      ¬ Digits decimalDigit (c :: str) ds := by
    intro h
    obtain ⟨n, -, hn, -, -⟩ := digits_cons.mp h
    have hlow := (decimalDigit_eq_some.mp hn).1
    omega
  have hunsigned (sign : Bool) (str : List UInt8) :
      parseUnsigned sign str 0 = some v ↔ (∃ ds, Digits decimalDigit str ds ∧
        Positional.Canonical 10 ds ∧ v = signed sign (Positional.value 10 ds)) ∧
          LONG_MIN ≤ v ∧ v ≤ LONG_MAX := by
    rw [parseUnsigned_eq_some]
    constructor
    · rintro ⟨ds, hds, hcanonical, hle, rfl⟩
      exact ⟨⟨ds, hds, hcanonical, rfl⟩, signed_le.mp hle⟩
    · rintro ⟨⟨ds, hds, hcanonical, rfl⟩, hrange⟩
      exact ⟨ds, hds, hcanonical, signed_le.mpr hrange, rfl⟩
  rw [phpFilterParseInt]
  split
  · next hminus =>
    cases text with
    | nil => exact absurd hminus (by decide)
    | cons c str =>
      rw [List.headD_cons] at hminus
      subst hminus
      rw [List.tail_cons, hunsigned]
      refine and_congr_left fun _ => ?_
      constructor
      · rintro ⟨ds, hds⟩
        exact ⟨true, str, ds, Or.inl ⟨rfl, rfl⟩, hds⟩
      · rintro ⟨sign, str', ds, ⟨heq, rfl⟩ | ⟨heq | heq, rfl⟩, hds⟩
        · rw [(List.cons.inj heq).2]
          exact ⟨ds, hds⟩
        · exact absurd (List.cons.inj heq).1 (by decide)
        · exact absurd (heq ▸ hds.1) (hsign 45 (by decide) str ds)
  · next hminus =>
    split
    · next hplus =>
      cases text with
      | nil => exact absurd hplus (by decide)
      | cons c str =>
        rw [List.headD_cons] at hplus
        subst hplus
        rw [List.tail_cons, hunsigned]
        refine and_congr_left fun _ => ?_
        constructor
        · rintro ⟨ds, hds⟩
          exact ⟨false, str, ds, Or.inr ⟨Or.inl rfl, rfl⟩, hds⟩
        · rintro ⟨sign, str', ds, ⟨heq, rfl⟩ | ⟨heq | heq, rfl⟩, hds⟩
          · exact absurd (List.cons.inj heq).1 (by decide)
          · rw [(List.cons.inj heq).2]
            exact ⟨ds, hds⟩
          · exact absurd (heq ▸ hds.1) (hsign 43 (by decide) str ds)
    · next hplus =>
      rw [hunsigned]
      refine and_congr_left fun _ => ?_
      constructor
      · rintro ⟨ds, hds⟩
        exact ⟨false, text, ds, Or.inr ⟨Or.inr rfl, rfl⟩, hds⟩
      · rintro ⟨sign, str', ds, ⟨rfl, rfl⟩ | ⟨rfl | rfl, rfl⟩, hds⟩
        · exact absurd rfl hminus
        · exact absurd rfl hplus
        · exact ⟨ds, hds⟩

/-! ## The filter -/

def InRange (minRange maxRange : Option ℤ) (v : ℤ) : Prop :=
  (∀ m ∈ minRange, m ≤ v) ∧ ∀ m ∈ maxRange, v ≤ m

/-- What a text stands for: a decimal numeral for the number itself, and a numeral with a prefix
for the `long` with the bits of the `unsigned long`. -/
def Denotes (flags : ℕ) (text : List UInt8) (v : ℤ) : Prop :=
  (Decimal text v ∧ LONG_MIN ≤ v ∧ v ≤ LONG_MAX) ∨
    ∃ n, (flags &&& FILTER_FLAG_ALLOW_OCTAL ≠ 0 ∧ Octal text n ∨
      flags &&& FILTER_FLAG_ALLOW_HEX ≠ 0 ∧ Hex text n) ∧ n ≤ ULONG_MAX ∧ v = toLong n

def EmptyHex (flags : ℕ) (text : List UInt8) : Prop :=
  flags &&& FILTER_FLAG_ALLOW_HEX ≠ 0 ∧ (text = [48, 120] ∨ text = [48, 88])

theorem decimal_zero : Decimal (48 :: text) v ↔ text = [] ∧ v = 0 := by
  constructor
  · rintro ⟨sign, str, ds, ⟨heq, rfl⟩ | ⟨heq | rfl, rfl⟩, hds, hcanonical, rfl⟩
    · exact absurd (List.cons.inj heq).1 (by decide)
    · exact absurd (List.cons.inj heq).1 (by decide)
    · obtain ⟨n, ds', hn, hds', rfl⟩ := digits_cons.mp hds
      obtain ⟨-, -, rfl⟩ := decimalDigit_eq_some.mp hn
      have hnil : ds' = [] := (List.cons.inj (hcanonical.lead rfl)).2
      have hlen := length_digits hds'
      rw [hnil] at hlen ⊢
      exact ⟨List.length_eq_zero_iff.mp hlen.symm, rfl⟩
  · rintro ⟨rfl, rfl⟩
    exact ⟨false, [48], [0], Or.inr ⟨Or.inr rfl, rfl⟩, digits_zero.mpr rfl, canonical_zero, rfl⟩

theorem parseOctal_eq_some : phpFilterParseOctal str = some v ↔
    ∃ n, Octal (48 :: str) n ∧ n ≤ ULONG_MAX ∧ v = toLong n := by
  rw [phpFilterParseOctal, parseBase_eq_some (by decide) (fun _ _ => octalDigit_lt) str
    (Nat.zero_le _)]
  constructor
  · rintro ⟨ds, hds, hle, hv⟩
    exact ⟨_, ⟨str, ds, rfl, hds, rfl⟩, hle, hv⟩
  · rintro ⟨n, ⟨str', ds, heq, hds, rfl⟩, hle, hv⟩
    rw [(List.cons.inj heq).2]
    exact ⟨ds, hds, hle, hv⟩

theorem parseHex_eq_some (hx : c = 120 ∨ c = 88) (hne : str ≠ []) :
    phpFilterParseHex str = some v ↔
      ∃ n, Hex (48 :: c :: str) n ∧ n ≤ ULONG_MAX ∧ v = toLong n := by
  rw [phpFilterParseHex, parseBase_eq_some (by decide) (fun _ _ => hexDigit_lt) str
    (Nat.zero_le _)]
  constructor
  · rintro ⟨ds, hds, hle, hv⟩
    exact ⟨_, ⟨c, str, ds, hx, rfl, hne, hds, rfl⟩, hle, hv⟩
  · rintro ⟨n, ⟨x, str', ds, -, heq, -, hds, rfl⟩, hle, hv⟩
    rw [(List.cons.inj (List.cons.inj heq).2).2]
    exact ⟨ds, hds, hle, hv⟩

theorem not_octal_of_letter {n : ℕ} (hx : c = 120 ∨ c = 88) : ¬ Octal (48 :: c :: str) n := by
  rintro ⟨str', ds, heq, hds, -⟩
  rw [← (List.cons.inj heq).2] at hds
  obtain ⟨m, -, hm, -, -⟩ := digits_cons.mp hds
  have hnone : octalDigit c = none := by rcases hx with rfl | rfl <;> decide
  rw [hnone] at hm
  cases hm

theorem not_hex_of_head {n : ℕ} (hx : ¬ (text.headD 0 = 120 ∨ text.headD 0 = 88)) :
    ¬ Hex (48 :: text) n := by
  rintro ⟨x, str, ds, hx', heq, -⟩
  rw [(List.cons.inj heq).2] at hx
  exact hx hx'

theorem not_prefixed {n : ℕ} (hc : ¬ c = 48) : ¬ Octal (c :: text) n ∧ ¬ Hex (c :: text) n := by
  refine ⟨?_, ?_⟩
  · rintro ⟨str, ds, heq, -⟩
    exact hc (List.cons.inj heq).1
  · rintro ⟨x, str, ds, -, heq, -⟩
    exact hc (List.cons.inj heq).1

theorem headD_behind {behind : List UInt8} (hbehind : ∀ c ∈ behind, blank c = true) {p : List UInt8}
    (hx : (p ++ behind).headD 0 = 120 ∨ (p ++ behind).headD 0 = 88) :
    ∃ c str, p = c :: str ∧ (c = 120 ∨ c = 88) := by
  cases p with
  | cons c str => exact ⟨c, str, rfl, hx⟩
  | nil =>
    exfalso
    cases behind with
    | nil => exact absurd hx (by decide)
    | cons c behind =>
      have hblank := hbehind c List.mem_cons_self
      rw [List.nil_append, List.headD_cons] at hx
      rcases hx with rfl | rfl <;> exact absurd hblank (by decide)

theorem parseText_eq_some {flags : ℕ} {behind : List UInt8}
    (hbehind : ∀ c ∈ behind, blank c = true) (hhex : ¬ EmptyHex flags text) :
    parseText (flags &&& FILTER_FLAG_ALLOW_OCTAL ≠ 0) (flags &&& FILTER_FLAG_ALLOW_HEX ≠ 0) text
      behind = some v ↔ Denotes flags text v := by
  unfold Denotes parseText
  cases text with
  | nil =>
    refine iff_of_false (by simp) ?_
    rintro (⟨⟨sign, str, ds, ⟨heq, -⟩ | ⟨heq | rfl, -⟩, hds, hcanonical, -⟩, -⟩ |
      ⟨n, ⟨-, str, ds, heq, -⟩ | ⟨-, x, str, ds, -, heq, -⟩, -⟩)
    · cases heq
    · cases heq
    · exact hcanonical.ne (digits_nil.mp hds)
    · cases heq
    · cases heq
  | cons c p =>
    dsimp only
    by_cases hc : c = 48
    · subst hc
      rw [if_pos rfl]
      split
      · next hx =>
        obtain ⟨hflag, hx⟩ := hx
        obtain ⟨c, str, rfl, hc⟩ := headD_behind hbehind hx
        have hne : str ≠ [] := by
          rintro rfl
          exact hhex ⟨hflag, by rcases hc with rfl | rfl <;> simp⟩
        rw [List.tail_cons, parseHex_eq_some hc hne]
        constructor
        · rintro ⟨n, hn, hle, hv⟩
          exact Or.inr ⟨n, Or.inr ⟨hflag, hn⟩, hle, hv⟩
        · rintro (⟨hdecimal, -⟩ | ⟨n, ⟨-, hoctal⟩ | ⟨-, hn⟩, hle, hv⟩)
          · cases (decimal_zero.mp hdecimal).1
          · exact absurd hoctal (not_octal_of_letter hc)
          · exact ⟨n, hn, hle, hv⟩
      · next hx =>
        have hnohex (n : ℕ) : ¬ (flags &&& FILTER_FLAG_ALLOW_HEX ≠ 0 ∧ Hex (48 :: p) n) := by
          rintro ⟨hflag, hn⟩
          refine not_hex_of_head (fun hhead => hx ⟨hflag, ?_⟩) hn
          cases p with
          | nil => exact absurd hhead (by decide)
          | cons d p => exact hhead
        have hrange : LONG_MIN ≤ (0 : ℤ) ∧ (0 : ℤ) ≤ LONG_MAX := by decide
        split
        · next hoctal =>
          rw [parseOctal_eq_some]
          constructor
          · rintro ⟨n, hn, hle, hv⟩
            exact Or.inr ⟨n, Or.inl ⟨hoctal, hn⟩, hle, hv⟩
          · rintro (⟨hdecimal, -⟩ | ⟨n, ⟨-, hn⟩ | hn, hle, hv⟩)
            · obtain ⟨rfl, rfl⟩ := decimal_zero.mp hdecimal
              exact ⟨0, ⟨[], [], rfl, rfl, rfl⟩, Nat.zero_le _, by decide⟩
            · exact ⟨n, hn, hle, hv⟩
            · exact absurd hn (hnohex n)
        · next hoctal =>
          have hiff : (∃ n, (flags &&& FILTER_FLAG_ALLOW_OCTAL ≠ 0 ∧ Octal (48 :: p) n ∨
              flags &&& FILTER_FLAG_ALLOW_HEX ≠ 0 ∧ Hex (48 :: p) n) ∧ n ≤ ULONG_MAX ∧
                v = toLong n) ↔ False := by
            refine iff_of_false ?_ id
            rintro ⟨n, ⟨hflag, -⟩ | hn, -⟩
            · exact hoctal hflag
            · exact hnohex n hn
          rw [hiff, or_false, decimal_zero]
          split
          · next hne => exact iff_of_false (by simp) fun h => hne h.1.1
          · next hnil =>
            rw [not_not] at hnil
            rw [Option.some.injEq]
            constructor
            · rintro rfl
              exact ⟨⟨hnil, rfl⟩, hrange⟩
            · rintro ⟨⟨-, rfl⟩, -⟩
              rfl
    · rw [if_neg hc, phpFilterParseInt_eq_some, or_iff_left]
      rintro ⟨n, ⟨-, hn⟩ | ⟨-, hn⟩, -⟩
      · exact (not_prefixed hc).1 hn
      · exact (not_prefixed hc).2 hn

def trimmed (value : List UInt8) : List UInt8 := (trimDefault value).1

/-- A value is accepted exactly for a numeral that fits, when the number lies in the range. -/
theorem phpFilterInt_eq_some (value : List UInt8) (minRange maxRange : Option ℤ) (flags : ℕ)
    (hhex : ¬ EmptyHex flags (trimmed value)) (v : ℤ) :
    phpFilterInt value minRange maxRange flags = some v ↔
      Denotes flags (trimmed value) v ∧ InRange minRange maxRange v := by
  have hbehind : ∀ c ∈ (trimDefault value).2, blank c = true := by
    intro c hc
    exact List.mem_takeWhile_imp (List.mem_reverse.mp hc)
  have htext := fun v => parseText_eq_some (v := v) hbehind hhex
  unfold trimmed at htext ⊢
  unfold phpFilterInt InRange
  split
  · next hnil =>
    subst hnil
    refine iff_of_false (by simp) fun h => ?_
    have hnone : parseText (flags &&& FILTER_FLAG_ALLOW_OCTAL ≠ 0)
        (flags &&& FILTER_FLAG_ALLOW_HEX ≠ 0) (trimDefault []).1 (trimDefault []).2 = none := rfl
    exact absurd (hnone.symm.trans ((htext v).mpr h.1)) (Option.some_ne_none v).symm
  · dsimp only
    rw [← htext]
    cases parseText (flags &&& FILTER_FLAG_ALLOW_OCTAL ≠ 0) (flags &&& FILTER_FLAG_ALLOW_HEX ≠ 0)
      (trimDefault value).1 (trimDefault value).2 with
    | none => simp
    | some ctxValue =>
      rw [Option.some.injEq]
      dsimp only
      split
      · next hout =>
        refine iff_of_false (by simp) ?_
        rintro ⟨rfl, hmin, hmax⟩
        rcases hout with ⟨m, hm, hlt⟩ | ⟨m, hm, hlt⟩
        · exact absurd (hmin m hm) (Int.not_le.mpr hlt)
        · exact absurd (hmax m hm) (Int.not_le.mpr hlt)
      · next hin =>
        rw [Option.some.injEq]
        constructor
        · rintro rfl
          refine ⟨rfl, fun m hm => ?_, fun m hm => ?_⟩
          · exact Int.not_lt.mp fun hlt => hin (Or.inl ⟨m, hm, hlt⟩)
          · exact Int.not_lt.mp fun hlt => hin (Or.inr ⟨m, hm, hlt⟩)
        · exact fun h => h.1

/-- `-42` -/
theorem phpFilterInt_sample : phpFilterInt [45, 52, 50] none (some 0) 0 = some (-42) ↔
    Denotes 0 (trimmed [45, 52, 50]) (-42) ∧ InRange none (some 0) (-42) :=
  phpFilterInt_eq_some [45, 52, 50] none (some 0) 0 (fun h => h.1 rfl) (-42)

/-- `0xffffffffffffffff` is accepted as minus one, and stands for a number that is no `long`. -/
theorem phpFilterInt_unsigned :
    phpFilterInt (48 :: 120 :: List.replicate 16 102) none none FILTER_FLAG_ALLOW_HEX = some (-1) ∧
      Hex (48 :: 120 :: List.replicate 16 102) ULONG_MAX ∧ LONG_MAX < ULONG_MAX := by
  refine ⟨by decide +kernel, ⟨120, List.replicate 16 102, List.replicate 16 15, Or.inl rfl, rfl,
    by decide, ?_, by decide +kernel⟩, by decide⟩
  unfold Digits
  decide +kernel

end PhpRuntime.Validate
