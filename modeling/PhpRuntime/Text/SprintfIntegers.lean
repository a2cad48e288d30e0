import PhpRuntime.Text.FormattedPrint

/-!
# The integers of `sprintf`

The text of an integer in a field, and when the functions append it. `php_sprintf_append2n` pads
with the zeros that its siblings replace by spaces.
-/

set_option autoImplicit false

namespace PhpRuntime.Text.Sprintf

open PhpRuntime.Lib PhpRuntime.Lib.Positional

variable {ζ : Type} {conv : Conversions ζ} {b : PrintBuffer} {s : Specifier} {type padding : UInt8}
  {alignment : Alignment} {alwaysSign : Bool} {arg : ζ} {number width : ℤ}

/-! ## Digits -/

/-- The numeral of a number, with the characters of a table. -/
def digitText (chartable : List UInt8) (base n : ℕ) : List UInt8 :=
  (numeral base n).map fun d => chartable.getD d 0

theorem decimal_char : ∀ d < 10, UInt8.ofNat (d + 48) = hexchars.getD d 0 := by decide

theorem digitText_of_lt {chartable : List UInt8} {base n : ℕ} (hn : n < base) :
    digitText chartable base n = [chartable.getD n 0] := by
  rw [digitText, numeral_of_lt hn, List.map_singleton]

theorem digitText_of_le {chartable : List UInt8} {base n : ℕ} (hbase : 1 < base) (hn : base ≤ n) :
    digitText chartable base n =
      digitText chartable base (n / base) ++ [chartable.getD (n % base) 0] := by
  rw [digitText, numeral_of_le hbase hn, List.map_append]
  rfl

theorem decimalLoop_eq {i magn : ℕ} {numbuf : List UInt8} (hi : 0 < i) (hmagn : magn < 10 ^ i) :
    decimalLoop i magn numbuf = digitText hexchars 10 magn ++ numbuf := by
  induction i generalizing magn numbuf with
  | zero => omega
  | succ i ih =>
    have hdigit : UInt8.ofNat (magn - magn / 10 * 10 + 48) = hexchars.getD (magn % 10) 0 := by
      rw [show magn - magn / 10 * 10 = magn % 10 by omega]
      exact decimal_char _ (Nat.mod_lt _ (by decide))
    rw [decimalLoop]
    simp only [hdigit]
    by_cases hmore : 0 < magn / 10
    · have hquot : magn / 10 < 10 ^ i := by
        rw [pow_succ] at hmagn
        exact Nat.div_lt_of_lt_mul (by omega)
      have hpos : 0 < i := by
        by_contra h0
        rw [show i = 0 by omega, pow_zero] at hquot
        omega
      rw [if_pos hmore, ih hpos hquot, digitText_of_le (n := magn) (by decide) (by omega),
        List.append_assoc, List.singleton_append]
    · have hlt : magn < 10 := by omega
      rw [if_neg hmore, digitText_of_lt hlt, Nat.mod_eq_of_lt hlt, List.singleton_append]

theorem bitsLoop_eq {n i num : ℕ} {chartable numbuf : List UInt8} (hn : 0 < n) (hi : 0 < i)
    (hnum : num < (2 ^ n) ^ i) :
    bitsLoop n chartable i num numbuf = .ok (digitText chartable (2 ^ n) num ++ numbuf) := by
  have hbase : 1 < 2 ^ n := Nat.one_lt_two_pow (by omega)
  induction i generalizing num numbuf with
  | zero => omega
  | succ i ih =>
    have hbits : num &&& ((1 <<< n) - 1) = num % 2 ^ n := by
      rw [Nat.one_shiftLeft, Nat.and_two_pow_sub_one_eq_mod]
    rw [bitsLoop]
    simp only [hbits, Nat.shiftRight_eq_div_pow]
    by_cases hmore : 0 < num / 2 ^ n
    · have hquot : num / 2 ^ n < (2 ^ n) ^ i := by
        rw [pow_succ, Nat.mul_comm] at hnum
        exact Nat.div_lt_of_lt_mul hnum
      have hpos : 0 < i := by
        by_contra h0
        rw [show i = 0 by omega, pow_zero] at hquot
        omega
      have hle : 2 ^ n ≤ num := by
        by_contra hlt
        rw [Nat.div_eq_of_lt (by omega)] at hmore
        omega
      rw [if_pos hmore, ih hpos hquot, digitText_of_le (n := num) hbase hle, List.append_assoc,
        List.singleton_append]
    · have hlt : num < 2 ^ n := by
        by_contra hle
        exact hmore (Nat.div_pos (by omega) (by omega))
      rw [if_neg hmore, digitText_of_lt hlt, Nat.mod_eq_of_lt hlt, List.singleton_append]

/-! ## The text of an integer -/

/-- `d`, `u`, `b`, `o`, `x` and `X` -/
def integerTypes : List UInt8 := [100, 117, 98, 111, 120, 88]

/-- The types that `php_sprintf_append2n` is for. -/
def bitTypes : List UInt8 := [98, 111, 120, 88]

def baseOf (type : UInt8) : ℕ :=
  if type = 98 then 2 else if type = 111 then 8 else if type = 120 ∨ type = 88 then 16 else 10

def signOf (type : UInt8) (number : ℤ) (alwaysSign : Bool) : List UInt8 :=
  if type = 100 then if number < 0 then [45] else if alwaysSign then [43] else [] else []

def magnitude (type : UInt8) (number : ℤ) : ℕ :=
  if type = 100 then number.natAbs else toUnsignedLong number

def digitsOf (type : UInt8) (number : ℤ) : List UInt8 :=
  digitText (if type = 88 then HEXCHARS else hexchars) (baseOf type) (magnitude type number)

/-- A number in a field. Zeros stand between the sign and the digits, and not on the right. -/
def padded (sign digits : List UInt8) (width : ℤ) (padding : UInt8) (alignment : Alignment) :
    List UInt8 :=
  let fill := width.toNat - (sign ++ digits).length
  match alignment with
  | .left => sign ++ digits ++ List.replicate fill (if padding = 48 then 32 else padding)
  | .right =>
    if padding = 48 then sign ++ List.replicate fill 48 ++ digits
    else List.replicate fill padding ++ (sign ++ digits)

def digitValue (c : UInt8) : ℕ :=
  if c < 58 then c.toNat - 48 else if c < 97 then c.toNat - 55 else c.toNat - 87

/-- The number that a text denotes when its blanks are left out. -/
def readNumber (base : ℕ) (text : List UInt8) : ℤ :=
  let t := text.filter (· ≠ 32)
  if t.headD 0 = 45 then -(value base (t.tail.map digitValue) : ℕ)
  else if t.headD 0 = 43 then (value base (t.tail.map digitValue) : ℕ)
  else (value base (t.map digitValue) : ℕ)

/-- A conversion of an integer appends the number in its field, and what is appended denotes it. -/
def Renders (conv : Conversions ζ) (b : PrintBuffer) (s : Specifier) (type : UInt8) (arg : ζ) :
    Prop :=
  let number := conv.toLong arg
  let m := s.modifiers
  Returns (convert conv b s type arg) fun b' => ∃ text, b'.bytes = b.bytes ++ text ∧
    text = padded (signOf type number m.alwaysSign) (digitsOf type number) s.width m.padding
      m.alignment ∧
    (m.padding = 32 ∨ m.padding = 48 →
      readNumber (baseOf type) text = if type = 100 then number else toUnsignedLong number)

/-! ## What the text denotes -/

def IsDigitChar (c : UInt8) : Prop := c ≠ 32 ∧ c ≠ 45 ∧ c ≠ 43

theorem hexchars_spec : ∀ d < 16, digitValue (hexchars.getD d 0) = d ∧
    digitValue (HEXCHARS.getD d 0) = d ∧ hexchars.getD d 0 ∉ [32, 45, 43] ∧
      HEXCHARS.getD d 0 ∉ [32, 45, 43] := by decide

theorem table_spec (type : UInt8) {d : ℕ} (hd : d < 16) :
    let c := (if type = 88 then HEXCHARS else hexchars).getD d 0
    digitValue c = d ∧ IsDigitChar c := by
  obtain ⟨hlow, hup, hlow', hup'⟩ := hexchars_spec d hd
  simp only [List.mem_cons, List.not_mem_nil, or_false, not_or] at hlow' hup'
  split
  · exact ⟨hup, hup'⟩
  · exact ⟨hlow, hlow'⟩

theorem baseOf_bounds (type : UInt8) : 1 < baseOf type ∧ baseOf type ≤ 16 := by
  unfold baseOf
  split_ifs <;> decide

theorem mem_digitsOf {c : UInt8} (hc : c ∈ digitsOf type number) : IsDigitChar c := by
  obtain ⟨hlow, hhigh⟩ := baseOf_bounds type
  obtain ⟨d, hd, rfl⟩ := List.mem_map.mp hc
  have hlt := (canonical_numeral hlow (magnitude type number)).lt d hd
  exact (table_spec type (by omega)).2

theorem value_digitsOf (type : UInt8) (number : ℤ) :
    value (baseOf type) ((digitsOf type number).map digitValue) = magnitude type number := by
  obtain ⟨hlow, hhigh⟩ := baseOf_bounds type
  have hmap : (digitsOf type number).map digitValue =
      numeral (baseOf type) (magnitude type number) := by
    rw [digitsOf, digitText, List.map_map]
    refine (List.map_congr_left fun d hd => ?_).trans (List.map_id _)
    have hlt := (canonical_numeral hlow (magnitude type number)).lt d hd
    exact (table_spec type (by omega)).1
  rw [hmap, value_numeral]

theorem filter_digits {l : List UInt8} (hl : ∀ c ∈ l, IsDigitChar c) :
    l.filter (· ≠ 32) = l := by
  rw [List.filter_eq_self]
  exact fun c hc => by simpa using (hl c hc).1

theorem headD_digits {l : List UInt8} (hl : ∀ c ∈ l, IsDigitChar c) :
    l.headD 0 ≠ 45 ∧ l.headD 0 ≠ 43 := by
  cases l with
  | nil => decide
  | cons c l => exact (hl c List.mem_cons_self).2

theorem readNumber_eq {base zeros : ℕ} {sign digits text : List UInt8}
    (htext : text.filter (· ≠ 32) = sign ++ (List.replicate zeros 48 ++ digits))
    (hsign : sign = [45] ∨ sign = [43] ∨ sign = []) (hdigits : ∀ c ∈ digits, IsDigitChar c) :
    readNumber base text = if sign = [45] then -(value base (digits.map digitValue) : ℤ)
      else (value base (digits.map digitValue) : ℤ) := by
  have hvalue : value base ((List.replicate zeros 48 ++ digits).map digitValue) =
      value base (digits.map digitValue) := by
    rw [List.map_append, List.map_replicate]
    exact value_replicate_zero base zeros _
  have hall : ∀ c ∈ List.replicate zeros (48 : UInt8) ++ digits, IsDigitChar c := by
    intro c hc
    rcases List.mem_append.mp hc with hc | hc
    · rw [List.eq_of_mem_replicate hc]
      exact ⟨by decide, by decide, by decide⟩
    · exact hdigits c hc
  rw [readNumber, htext]
  rcases hsign with rfl | rfl | rfl
  · simp only [List.singleton_append, List.headD_cons, if_true, List.tail_cons, hvalue]
  · simp only [List.singleton_append, List.headD_cons, List.tail_cons, hvalue]
    rfl
  · obtain ⟨h45, h43⟩ := headD_digits hall
    simp only [List.nil_append, if_neg h45, if_neg h43, hvalue]
    rfl

theorem signOf_cases (type : UInt8) (number : ℤ) (alwaysSign : Bool) :
    signOf type number alwaysSign = [45] ∨ signOf type number alwaysSign = [43] ∨
      signOf type number alwaysSign = [] := by
  unfold signOf
  split_ifs <;> simp

theorem filter_blanks (n : ℕ) : (List.replicate n (32 : UInt8)).filter (· ≠ 32) = [] := by
  simp

theorem readNumber_padded (hpad : padding = 32 ∨ padding = 48) :
    readNumber (baseOf type) (padded (signOf type number alwaysSign) (digitsOf type number) width
      padding alignment) = if type = 100 then number else toUnsignedLong number := by
  have hsign := signOf_cases type number alwaysSign
  have hdigits : ∀ c ∈ digitsOf type number, IsDigitChar c := fun c hc => mem_digitsOf hc
  have hkeep : (signOf type number alwaysSign).filter (· ≠ 32) =
      signOf type number alwaysSign := by
    rcases hsign with h | h | h <;> rw [h] <;> rfl
  have htext : ∃ zeros, (padded (signOf type number alwaysSign) (digitsOf type number) width padding
      alignment).filter (· ≠ 32) =
        signOf type number alwaysSign ++ (List.replicate zeros 48 ++ digitsOf type number) := by
    unfold padded
    cases alignment with
    | left =>
      refine ⟨0, ?_⟩
      have hblank : (if padding = 48 then (32 : UInt8) else padding) = 32 := by
        rcases hpad with rfl | rfl <;> rfl
      simp only [hblank, List.filter_append, filter_blanks, hkeep, filter_digits hdigits,
        List.append_nil, List.replicate_zero, List.nil_append]
    | right =>
      rcases hpad with rfl | rfl
      · refine ⟨0, ?_⟩
        have hne : ¬ (32 : UInt8) = 48 := by decide
        simp only [if_neg hne, List.filter_append, filter_blanks, hkeep, filter_digits hdigits,
          List.replicate_zero, List.nil_append]
      · refine ⟨width.toNat - (signOf type number alwaysSign ++ digitsOf type number).length, ?_⟩
        have hzeros (n : ℕ) : (List.replicate n (48 : UInt8)).filter (· ≠ 32) =
            List.replicate n 48 := by
          rw [List.filter_replicate, if_pos (by decide)]
        simp only [if_true, List.filter_append, hkeep, filter_digits hdigits, hzeros,
          List.append_assoc]
  obtain ⟨zeros, htext⟩ := htext
  rw [readNumber_eq htext hsign hdigits, value_digitsOf]
  unfold magnitude signOf
  by_cases h100 : type = 100
  · simp only [if_pos h100]
    by_cases hneg : number < 0
    · rw [if_pos hneg, if_pos rfl]
      omega
    · rw [if_neg hneg, if_neg (by cases alwaysSign <;> decide)]
      omega
  · simp only [if_neg h100]
    rfl

/-! ## What is appended -/

/-- The field that `php_sprintf_append2n` appends. -/
def bitsField (digits : List UInt8) (width : ℤ) (padding : UInt8) (alignment : Alignment) :
    List UInt8 :=
  let pad := List.replicate (width.toNat - digits.length) padding
  match alignment with
  | .left => digits ++ pad
  | .right => pad ++ digits

theorem toUnsignedLong_lt (x : ℤ) : toUnsignedLong x < 2 ^ 64 := by
  unfold toUnsignedLong
  omega

/-- The magnitude of a negative number, `LONG_MIN` included. -/
theorem magnitude_of_neg (hmin : -LONG_MAX - 1 ≤ number) (hneg : number < 0) :
    toUnsignedLong (toUnsignedLong (-(number + 1)) + 1) = number.natAbs := by
  rw [LONG_MAX] at hmin
  unfold toUnsignedLong
  omega

theorem toUnsignedLong_of_nonneg (hnonneg : 0 ≤ number) (hmax : number ≤ LONG_MAX) :
    toUnsignedLong number = number.natAbs := by
  rw [LONG_MAX] at hmax
  unfold toUnsignedLong
  omega

theorem decimalLoop_digits {n : ℕ} (hn : n < 2 ^ 64) :
    decimalLoop (NUM_BUF_SIZE - 1) n [] = digitText hexchars 10 n := by
  have hbig : (2 : ℕ) ^ 64 ≤ 10 ^ 499 := by decide +kernel
  rw [NUM_BUF_SIZE, decimalLoop_eq (by decide) (by omega), List.append_nil]

theorem bitsLoop_digits {n k : ℕ} (hn : n < 2 ^ 64) (hk : 0 < k) (chartable : List UInt8) :
    bitsLoop k chartable (NUM_BUF_SIZE - 1) n [] = .ok (digitText chartable (2 ^ k) n) := by
  have hbig : n < (2 ^ k) ^ 499 := by
    rw [← pow_mul]
    exact hn.trans_le (Nat.pow_le_pow_right (by decide) (by omega))
  rw [NUM_BUF_SIZE, bitsLoop_eq hk (by decide) hbig, List.append_nil]

theorem field_eq_padded {sign digits : List UInt8} {neg : Bool}
    (hsign : sign = if neg then [45] else if alwaysSign then [43] else []) :
    field (sign ++ digits) width (integerPadding alignment padding) alignment neg alwaysSign =
      padded sign digits width padding alignment := by
  unfold field padded integerPadding
  cases alignment with
  | left => simp only [true_and]
  | right =>
    simp only [reduceCtorEq, false_and, if_false]
    by_cases hzero : padding = 48
    · rw [if_pos hzero]
      cases neg with
      | true =>
        subst hsign
        simp [fieldLength, hzero]
        omega
      | false =>
        cases alwaysSign with
        | true =>
          subst hsign
          simp [fieldLength, hzero]
          omega
        | false =>
          subst hsign
          simp [hzero]
    · rw [if_neg hzero, if_neg fun h => hzero h.2]

theorem appendInt_returns (hmin : -LONG_MAX - 1 ≤ number) (hmax : number ≤ LONG_MAX)
    (hwidth : 0 ≤ width)
    (hroom : Accepted b
      (fieldLength (signOf 100 number alwaysSign ++ digitsOf 100 number) width)) :
    Returns (appendInt b number width padding alignment alwaysSign)
      (·.bytes = b.bytes ++
        padded (signOf 100 number alwaysSign) (digitsOf 100 number) width padding alignment) := by
  have hmagn : (if decide (number < 0) then toUnsignedLong (toUnsignedLong (-(number + 1)) + 1)
      else toUnsignedLong number) = number.natAbs := by
    by_cases hneg : number < 0
    · simp only [hneg, decide_true, if_true, magnitude_of_neg hmin hneg]
    · simp only [hneg, decide_false, Bool.false_eq_true, if_false]
      exact toUnsignedLong_of_nonneg (by omega) hmax
  have hlt : number.natAbs < 2 ^ 64 := by
    rw [LONG_MAX] at hmin hmax
    omega
  have hsign : signOf 100 number alwaysSign =
      if decide (number < 0) then [45] else if alwaysSign then [43] else [] := by
    simp [signOf]
  have hdigits : digitsOf 100 number = digitText hexchars 10 number.natAbs := by
    simp only [digitsOf, baseOf, magnitude]
    rfl
  have htext : (if decide (number < 0) then 45 :: digitText hexchars 10 number.natAbs
      else if alwaysSign then 43 :: digitText hexchars 10 number.natAbs
      else digitText hexchars 10 number.natAbs) =
        signOf 100 number alwaysSign ++ digitsOf 100 number := by
    rw [hsign, hdigits]
    split
    · rfl
    · split <;> rfl
  unfold appendInt
  simp only [hmagn, decimalLoop_digits hlt, htext]
  refine (appendString_plain hwidth hroom).mono fun b' hb' => ?_
  rw [hb', field_eq_padded hsign]

theorem appendUint_returns (hwidth : 0 ≤ width)
    (hroom : Accepted b (fieldLength (digitsOf 117 number) width)) :
    Returns (appendUint b (toUnsignedLong number) width padding alignment)
      (·.bytes = b.bytes ++ padded [] (digitsOf 117 number) width padding alignment) := by
  have hdigits : digitText hexchars 10 (toUnsignedLong number) = digitsOf 117 number := by
    simp only [digitsOf, baseOf, magnitude]
    rfl
  unfold appendUint
  simp only [decimalLoop_digits (toUnsignedLong_lt number), hdigits]
  refine (appendString_plain hwidth hroom).mono fun b' hb' => ?_
  have hfield : field ([] ++ digitsOf 117 number) width (integerPadding alignment padding) alignment
      false false = padded [] (digitsOf 117 number) width padding alignment := field_eq_padded rfl
  rw [List.nil_append] at hfield
  rw [hb', hfield]

theorem append2n_returns {k : ℕ} {chartable : List UInt8} (hk : 0 < k) (hwidth : 0 ≤ width)
    (hroom : Accepted b
      (fieldLength (digitText chartable (2 ^ k) (toUnsignedLong number)) width)) :
    Returns (append2n b number width padding alignment k chartable false)
      (·.bytes = b.bytes ++
        bitsField (digitText chartable (2 ^ k) (toUnsignedLong number)) width padding
          alignment) := by
  unfold append2n
  rw [bitsLoop_digits (toUnsignedLong_lt number) hk, ok_bind]
  refine (appendString_plain hwidth hroom).mono fun b' hb' => ?_
  rw [hb']
  unfold field bitsField
  cases alignment with
  | left => rfl
  | right =>
    dsimp only
    rw [if_neg (by simp)]

/-- The zeros of `php_sprintf_append2n` on the right are what makes the difference. -/
theorem bitsField_eq_iff (digits : List UInt8) (width : ℤ) (padding : UInt8)
    (alignment : Alignment) :
    bitsField digits width padding alignment = padded [] digits width padding alignment ↔
      ¬ (alignment = .left ∧ padding = 48 ∧ digits.length < width) := by
  unfold bitsField padded
  cases alignment with
  | left =>
    simp only [List.nil_append, List.append_cancel_left_eq, true_and]
    by_cases hzero : padding = 48
    · rw [if_pos hzero, hzero]
      constructor
      · rintro heq ⟨-, hlt⟩
        have hpos : 0 < width.toNat - digits.length := by omega
        have hmem : (48 : UInt8) ∈ List.replicate (width.toNat - digits.length) 32 := by
          rw [← heq]
          exact List.mem_replicate.mpr ⟨hpos.ne', rfl⟩
        exact absurd (List.eq_of_mem_replicate hmem) (by decide)
      · intro hle
        have hnone : width.toNat - digits.length = 0 := by
          by_contra hne
          exact hle ⟨rfl, by omega⟩
        rw [hnone]
        rfl
    · rw [if_neg hzero]
      exact iff_of_true rfl fun h => hzero h.1
  | right =>
    simp only [List.nil_append, reduceCtorEq, false_and, not_false_eq_true, iff_true]
    split
    · next hzero => rw [hzero]
    · rfl

/-- A number in base 2, 8 or 16 gets zeros behind its digits. -/
def ZerosBehind (s : Specifier) (type : UInt8) (number : ℤ) : Prop :=
  type ∈ bitTypes ∧ s.modifiers.alignment = .left ∧ s.modifiers.padding = 48 ∧
    (digitsOf type number).length < s.width

theorem renders_of_padded (h : Returns (convert conv b s type arg)
    (·.bytes = b.bytes ++ padded (signOf type (conv.toLong arg) s.modifiers.alwaysSign)
      (digitsOf type (conv.toLong arg)) s.width s.modifiers.padding s.modifiers.alignment)) :
    Renders conv b s type arg :=
  h.mono fun _ hb' => ⟨_, hb', rfl, readNumber_padded⟩

theorem renders_iff_of_bits (hmem : type ∈ bitTypes) (hsign : type ≠ 100)
    (h : Returns (convert conv b s type arg)
      (·.bytes = b.bytes ++ bitsField (digitsOf type (conv.toLong arg)) s.width
        s.modifiers.padding s.modifiers.alignment)) :
    Renders conv b s type arg ↔ ¬ ZerosBehind s type (conv.toLong arg) := by
  have hnil : signOf type (conv.toLong arg) s.modifiers.alwaysSign = [] := if_neg hsign
  have hiff := bitsField_eq_iff (digitsOf type (conv.toLong arg)) s.width s.modifiers.padding
    s.modifiers.alignment
  rw [ZerosBehind, and_iff_right hmem, ← hiff]
  constructor
  · rintro ⟨b', hb', text, htext, hpadded, _⟩
    obtain ⟨b₁, hb₁, hbits⟩ := h
    rw [hb', Except.ok.injEq] at hb₁
    rw [← hb₁, htext, List.append_cancel_left_eq] at hbits
    rw [← hbits, hpadded, hnil]
  · intro heq
    refine renders_of_padded (h.mono fun b' hb' => ?_)
    rw [hb', heq, hnil]

theorem digitsOf_bits {k : ℕ} {chartable : List UInt8} (hsign : type ≠ 100)
    (hbase : baseOf type = 2 ^ k)
    (htable : (if type = 88 then HEXCHARS else hexchars) = chartable) (number : ℤ) :
    digitsOf type number = digitText chartable (2 ^ k) (toUnsignedLong number) := by
  rw [digitsOf, magnitude, if_neg hsign, hbase, htable]

/-- An integer is rendered in its field, unless a number in base 2, 8 or 16 is padded with zeros
on the right. -/
theorem convert_renders_iff (htype : type ∈ integerTypes) (hexpprec : s.expprec = false)
    (hwidth : 0 ≤ s.width) (hmin : -LONG_MAX - 1 ≤ conv.toLong arg)
    (hmax : conv.toLong arg ≤ LONG_MAX)
    (hroom : Accepted b (fieldLength
      (signOf type (conv.toLong arg) s.modifiers.alwaysSign ++ digitsOf type (conv.toLong arg))
      s.width)) :
    Renders conv b s type arg ↔ ¬ ZerosBehind s type (conv.toLong arg) := by
  have hbits {k : ℕ} {chartable : List UInt8} (hk : 0 < k) (hmem : type ∈ bitTypes)
      (hsign : type ≠ 100) (hbase : baseOf type = 2 ^ k)
      (htable : (if type = 88 then HEXCHARS else hexchars) = chartable)
      (hconvert : convert conv b s type arg = append2n b (conv.toLong arg) s.width
        s.modifiers.padding s.modifiers.alignment k chartable s.expprec) :
      Renders conv b s type arg ↔ ¬ ZerosBehind s type (conv.toLong arg) := by
    have hdigits := digitsOf_bits hsign hbase htable (conv.toLong arg)
    refine renders_iff_of_bits hmem hsign ?_
    rw [signOf, if_neg hsign, List.nil_append, hdigits] at hroom
    rw [hconvert, hexpprec, hdigits]
    exact append2n_returns hk hwidth hroom
  rw [integerTypes] at htype
  simp only [List.mem_cons, List.not_mem_nil, or_false] at htype
  rcases htype with rfl | rfl | rfl | rfl | rfl | rfl
  · refine iff_of_true (renders_of_padded ?_) fun h => absurd h.1 (by decide)
    exact appendInt_returns hmin hmax hwidth hroom
  · refine iff_of_true (renders_of_padded ?_) fun h => absurd h.1 (by decide)
    exact appendUint_returns hwidth hroom
  · exact hbits (by decide) (by decide) (by decide) (by decide) (by decide) rfl
  · exact hbits (by decide) (by decide) (by decide) (by decide) (by decide) rfl
  · exact hbits (by decide) (by decide) (by decide) (by decide) (by decide) rfl
  · exact hbits (by decide) (by decide) (by decide) (by decide) (by decide) rfl

def longs : Conversions ℤ := ⟨fun _ => [], id, fun _ => .nan, fun _ => []⟩

theorem accepted_new {n : ℕ} (hn : n ≤ 239) : Accepted PrintBuffer.new n := by
  refine ⟨0, ?_, by decide⟩
  simp only [PrintBuffer.new, List.length_nil]
  omega

/-- `%+05d` of minus seven -/
theorem convert_renders_sample :
    Renders longs PrintBuffer.new ⟨none, ⟨48, .right, true⟩, 5, 0, false⟩ 100 (-7 : ℤ) ↔
      ¬ ZerosBehind ⟨none, ⟨48, .right, true⟩, 5, 0, false⟩ 100 (-7) :=
  convert_renders_iff (by decide) rfl (by decide) (by decide) (by decide)
    (accepted_new (by decide))

/-- `%-04x` of one is `1000`. -/
theorem not_renders_hex :
    ¬ Renders longs PrintBuffer.new ⟨none, ⟨48, .left, false⟩, 4, 0, false⟩ 120 (1 : ℤ) := by
  rintro ⟨b', hb', text, htext, hpadded, _⟩
  have hrun : convert longs PrintBuffer.new ⟨none, ⟨48, .left, false⟩, 4, 0, false⟩ 120 (1 : ℤ) =
      .ok ⟨[49, 48, 48, 48], 240⟩ := by decide +kernel
  rw [hrun, Except.ok.injEq] at hb'
  rw [← hb', hpadded] at htext
  exact absurd htext (by decide +kernel)

end PhpRuntime.Text.Sprintf
