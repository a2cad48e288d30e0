import PhpRuntime.Text.QuotPrintSize

/-!
# Quoted-printable texts read back

What the encoder writes for a byte is a soft line break or nothing and then the byte, quoted
or as it is. Both decoders read each of these parts in one turn. The one of
`quoted_printable_decode` counts with an `int`, and cannot read a longer text.
-/

set_option autoImplicit false

namespace PhpRuntime.Text

open PhpRuntime.Lib.Chunked (hexValue)

/-! ## What is written for a byte -/

/-- A soft line break comes before a byte that is met in the column `lp`. -/
def breaksAt (lp : ℕ) (c next : UInt8) : Prop :=
  if isQuoted c next then breaksBefore c (lp + 3) else PHP_QPRINT_MAXL < lp + 1

instance (lp : ℕ) (c next : UInt8) : Decidable (breaksAt lp c next) := by
  unfold breaksAt
  infer_instance

def quotWidth (c next : UInt8) : ℕ := if isQuoted c next then 3 else 1

def columnAfter (lp : ℕ) (c next : UInt8) : ℕ :=
  (if breaksAt lp c next then 0 else lp) + quotWidth c next

def quotBody (c next : UInt8) : List UInt8 := if isQuoted c next then quoted c else [c]

theorem length_quotBody (c next : UInt8) : (quotBody c next).length = quotWidth c next := by
  unfold quotBody quotWidth
  split <;> rfl

theorem quotPrintByte_eq (lp : ℕ) (c next : UInt8) :
    quotPrintByte lp c next =
      ((if breaksAt lp c next then softBreak else []) ++ quotBody c next,
        columnAfter lp c next) := by
  unfold quotPrintByte columnAfter breaksAt quotBody quotWidth
  by_cases hq : isQuoted c next
  · simp only [if_pos hq]
    split <;> rfl
  · simp only [if_neg hq]
    split <;> rfl

/-- The size of the text of a string whose first byte is met in the column `lp`: three
characters for a quoted byte and one for every other, and three for each soft line break. -/
def quotPrintSize : ℕ → List UInt8 → ℕ
  | _, [] => 0
  | lp, [c] => (if breaksAt lp c 0 then 3 else 0) + quotWidth c 0
  | lp, c :: next :: str =>
    if c = 13 ∧ next = 10 then 2 + quotPrintSize 0 str
    else (if breaksAt lp c next then 3 else 0) + quotWidth c next +
      quotPrintSize (columnAfter lp c next) (next :: str)

theorem length_quotPrintByte (lp : ℕ) (c next : UInt8) :
    (quotPrintByte lp c next).1.length =
      (if breaksAt lp c next then 3 else 0) + quotWidth c next := by
  rw [quotPrintByte_eq, List.length_append, length_quotBody]
  split <;> rfl

theorem length_quotPrintEncodeLoop (lp : ℕ) (str : List UInt8) :
    (quotPrintEncodeLoop lp str).length = quotPrintSize lp str := by
  induction lp, str using quotPrintEncodeLoop.induct with
  | case1 lp => rfl
  | case2 lp c => exact length_quotPrintByte lp c 0
  | case3 lp c next str hcrlf ih =>
    rw [quotPrintEncodeLoop, quotPrintSize, if_pos hcrlf, if_pos hcrlf, List.length_cons,
      List.length_cons, ih]
    omega
  | case4 lp c next str hcrlf ih =>
    rw [quotPrintEncodeLoop, quotPrintSize, if_neg hcrlf, if_neg hcrlf, List.length_append,
      length_quotPrintByte, ih, quotPrintByte_eq]

/-! ## The digits -/

theorem hexValue_quotPrintHex {n : ℕ} (h : n < 16) : hexValue (quotPrintHex n) = some n := by
  revert n
  decide

theorem high_lt (c : UInt8) : c.toNat >>> 4 < 16 := by
  rw [Nat.shiftRight_eq_div_pow]
  have h := c.toNat_lt
  omega

theorem low_lt (c : UInt8) : c.toNat &&& 0xf < 16 := by
  rw [show c.toNat &&& 0xf = _ from Nat.and_two_pow_sub_one_eq_mod _ 4]
  exact Nat.mod_lt _ (by decide)

theorem high_low (c : UInt8) : (c.toNat >>> 4) * 2 ^ 4 + (c.toNat &&& 0xf) = c.toNat := by
  rw [show c.toNat &&& 0xf = _ from Nat.and_two_pow_sub_one_eq_mod _ 4,
    Nat.shiftRight_eq_div_pow]
  omega

theorem hexvalTbl_hex {n : ℕ} (h : n < 16) : hexvalTbl (quotPrintHex n) = n := by
  unfold hexvalTbl
  rw [hexValue_quotPrintHex h]

theorem hex_ne_zero {n : ℕ} (h : n < 16) : quotPrintHex n ≠ 0 := by
  revert n
  decide

theorem isXdigit_hex {n : ℕ} (h : n < 16) : isXdigit (quotPrintHex n) := by
  unfold isXdigit
  rw [hexValue_quotPrintHex h]
  rfl

theorem hex2int_hex {n : ℕ} (h : n < 16) : hex2int (quotPrintHex n) = n := by
  unfold hex2int
  rw [hexValue_quotPrintHex h]
  rfl

theorem ne_of_not_isQuoted {c next : UInt8} (h : ¬ isQuoted c next) : c ≠ 0 ∧ c ≠ 61 := by
  constructor
  · rintro rfl
    exact h (Or.inl (by decide))
  · rintro rfl
    exact h (Or.inr (Or.inr (Or.inr (Or.inl rfl))))

/-! ## `php_quot_print_decode` -/

variable {n : ℕ} {rest p2 : List UInt8}

theorem decode_digits {a b : UInt8} (h0 : a ≠ 0) (ha : hexvalTbl a < 16) (hb : hexvalTbl b < 16) :
    quotPrintDecodeLoop 0 (3 + n) (61 :: a :: b :: rest) p2 =
      quotPrintDecodeLoop 0 n rest (p2 ++ [UInt8.ofNat (hexvalTbl a <<< 4 ||| hexvalTbl b)]) := by
  have hone : (61 :: a :: b :: rest).getD 1 0 = a := rfl
  have htwo : (61 :: a :: b :: rest).getD 2 0 = b := rfl
  have hrest : (61 :: a :: b :: rest).drop 3 = rest := rfl
  rw [quotPrintDecodeLoop, if_neg, if_pos (by exact rfl), if_neg]
  · dsimp only
    rw [hone, htwo, hrest, if_pos ha, if_neg (by omega), Nat.add_sub_cancel_left]
  · rw [not_or]
    exact ⟨by omega, h0⟩
  · rw [not_or]
    exact ⟨by omega, by exact (by decide : (61 : UInt8) ≠ 0)⟩

theorem decode_softBreak :
    quotPrintDecodeLoop 0 (3 + n) (softBreak ++ rest) p2 = quotPrintDecodeLoop 0 n rest p2 := by
  have hskip : skipBlanks (3 + n - 1) ((softBreak ++ rest).drop 1) 16 =
      some (n + 2, 13 :: 10 :: rest) := by
    rw [show 3 + n - 1 = n + 1 + 1 by omega, skipBlanks, if_pos (by decide)]
    rfl
  have hblank : hexvalTbl ((softBreak ++ rest).getD 1 0) = 16 := rfl
  rw [quotPrintDecodeLoop, if_neg, if_pos (by exact rfl), if_neg]
  · dsimp only
    rw [hblank, if_neg (by decide), if_pos (by decide)]
    split
    · next h =>
      rw [hskip] at h
      cases h
    · next i' p1' h =>
      rw [hskip] at h
      cases h
      exact if_pos ⟨rfl, by omega, rfl⟩
  · rw [not_or]
    exact ⟨by omega, by exact (by decide : (13 : UInt8) ≠ 0)⟩
  · rw [not_or]
    exact ⟨by omega, by exact (by decide : (61 : UInt8) ≠ 0)⟩

theorem decode_char {c : UInt8} (h0 : c ≠ 0) (heq : c ≠ 61) :
    quotPrintDecodeLoop 0 (1 + n) (c :: rest) p2 =
      quotPrintDecodeLoop 0 n rest (p2 ++ [c]) := by
  rw [quotPrintDecodeLoop, if_neg, if_neg (by exact heq)]
  · show quotPrintDecodeLoop 0 (1 + n - 1) rest (p2 ++ [spaceFor 0 c]) = _
    rw [Nat.add_sub_cancel_left, spaceFor, if_neg h0.symm]
  · rw [not_or]
    exact ⟨by omega, h0⟩

theorem decode_quoted (c : UInt8) :
    quotPrintDecodeLoop 0 (3 + n) (quoted c ++ rest) p2 =
      quotPrintDecodeLoop 0 n rest (p2 ++ [c]) := by
  have hhigh := hexvalTbl_hex (high_lt c)
  have hlow := hexvalTbl_hex (low_lt c)
  have hquoted : quoted c ++ rest =
      61 :: quotPrintHex (c.toNat >>> 4) :: quotPrintHex (c.toNat &&& 0xf) :: rest := rfl
  rw [hquoted, decode_digits (hex_ne_zero (high_lt c)) (by rw [hhigh]; exact high_lt c)
    (by rw [hlow]; exact low_lt c), hhigh, hlow, Nat.shiftLeft_eq, or_eq_add (low_lt c), high_low,
    UInt8.ofNat_toNat]

theorem decode_body (c next : UInt8) :
    quotPrintDecodeLoop 0 (quotWidth c next + n) (quotBody c next ++ rest) p2 =
      quotPrintDecodeLoop 0 n rest (p2 ++ [c]) := by
  unfold quotWidth quotBody
  split
  · exact decode_quoted c
  · next hq =>
    obtain ⟨h0, heq⟩ := ne_of_not_isQuoted hq
    exact decode_char h0 heq

theorem decode_byte (lp : ℕ) (c next : UInt8) :
    quotPrintDecodeLoop 0 ((quotPrintByte lp c next).1.length + n)
        ((quotPrintByte lp c next).1 ++ rest) p2 =
      quotPrintDecodeLoop 0 n rest (p2 ++ [c]) := by
  rw [length_quotPrintByte, quotPrintByte_eq]
  dsimp only
  split
  · rw [List.append_assoc, Nat.add_assoc, decode_softBreak, decode_body]
  · rw [List.nil_append, Nat.zero_add, decode_body]

theorem decode_encodeLoop (lp : ℕ) (str p2 : List UInt8) :
    quotPrintDecodeLoop 0 (quotPrintEncodeLoop lp str).length (quotPrintEncodeLoop lp str) p2 =
      ⟨p2 ++ str, false⟩ := by
  induction lp, str using quotPrintEncodeLoop.induct generalizing p2 with
  | case1 lp =>
    rw [quotPrintEncodeLoop, quotPrintDecodeLoop, if_pos (Or.inl (by exact rfl)),
      List.append_nil]
  | case2 lp c =>
    have hbyte : quotPrintDecodeLoop 0 ((quotPrintByte lp c 0).1.length + 0)
        ((quotPrintByte lp c 0).1 ++ []) p2 = _ := decode_byte lp c 0
    rw [Nat.add_zero, List.append_nil] at hbyte
    rw [quotPrintEncodeLoop, hbyte, quotPrintDecodeLoop, if_pos (Or.inl rfl)]
  | case3 lp c next str hcrlf ih =>
    obtain ⟨rfl, rfl⟩ := hcrlf
    rw [quotPrintEncodeLoop, if_pos ⟨rfl, rfl⟩, List.length_cons, List.length_cons,
      Nat.add_comm, decode_char (by decide) (by decide), Nat.add_comm,
      decode_char (by decide) (by decide), ih]
    simp only [List.append_assoc, List.cons_append, List.nil_append]
  | case4 lp c next str hcrlf ih =>
    rw [quotPrintEncodeLoop, if_neg hcrlf, List.length_append, decode_byte, ih]
    simp only [List.append_assoc, List.cons_append, List.nil_append]

/-! ## `quoted_printable_decode` -/

variable {i : ℕ} {strOut : List UInt8}

theorem loop_digits {a b : UInt8} (h0 : a ≠ 0) (h0' : b ≠ 0) (ha : isXdigit a)
    (hb : isXdigit b) :
    quotedPrintableLoop i (61 :: a :: b :: rest) strOut =
      if INT_MAX < (i + 3 : ℕ) then .error .overflow
      else quotedPrintableLoop (i + 3) rest
        (strOut ++ [UInt8.ofNat (hex2int a <<< 4 + hex2int b)]) := by
  rw [quotedPrintableLoop, if_neg (by decide), if_pos rfl]
  dsimp only
  have hone : (a :: b :: rest).getD 0 0 = a := rfl
  have htwo : (a :: b :: rest).getD 1 0 = b := rfl
  have hrest : (a :: b :: rest).drop 2 = rest := rfl
  rw [hone, htwo, hrest]
  by_cases hover : INT_MAX < (i + 3 : ℕ)
  · rw [if_pos hover]
    by_cases hindex : INT_MAX < (i : ℤ) + 1 ∨ (a ≠ 0 ∧ INT_MAX < (i : ℤ) + 2)
    · rw [if_pos hindex]
    · rw [if_neg hindex, if_pos ⟨h0, h0', ha, hb⟩, if_pos (by omega)]
  · rw [if_neg hover, if_neg (by omega), if_pos ⟨h0, h0', ha, hb⟩, if_neg (by omega)]

theorem loop_softBreak :
    quotedPrintableLoop i (softBreak ++ rest) strOut =
      if INT_MAX < (i + 3 : ℕ) then .error .overflow
      else quotedPrintableLoop (i + 3) rest strOut := by
  have hsoft : softBreak ++ rest = 61 :: 13 :: 10 :: rest := rfl
  have hone : (13 :: 10 :: rest).getD 0 0 = 13 := rfl
  have hblanks : blanksEnd (61 :: 13 :: 10 :: rest) 1 = 1 := rfl
  have hcr : (61 :: 13 :: 10 :: rest).getD 1 0 = 13 := rfl
  have hlf : (61 :: 13 :: 10 :: rest).getD (1 + 1) 0 = 10 := rfl
  have hrest : (13 :: 10 :: rest).drop (1 + 1) = rest := rfl
  have hdigit : ¬ isXdigit 13 := by decide
  rw [hsoft, quotedPrintableLoop, if_neg (by decide), if_pos rfl]
  dsimp only
  rw [hone, hblanks, hcr, hlf, hrest]
  by_cases hover : INT_MAX < (i + 3 : ℕ)
  · rw [if_pos hover]
    by_cases hindex : INT_MAX < (i : ℤ) + 1 ∨ ((13 : UInt8) ≠ 0 ∧ INT_MAX < (i : ℤ) + 2)
    · rw [if_pos hindex]
    · have hcr0 : (13 : UInt8) ≠ 0 := by decide
      have hindex' : ¬ INT_MAX < (i : ℤ) + 2 := fun h => hindex (Or.inr ⟨hcr0, h⟩)
      rw [if_neg hindex, if_neg (fun h => hdigit h.2.2.1), if_neg (by omega), if_neg hcr0,
        if_neg (fun h => absurd h.2 (by omega)), if_pos ⟨rfl, rfl⟩, if_pos (by omega)]
  · have hcr0 : (13 : UInt8) ≠ 0 := by decide
    have hindex : ¬ (INT_MAX < (i : ℤ) + 1 ∨ ((13 : UInt8) ≠ 0 ∧ INT_MAX < (i : ℤ) + 2)) := by
      rw [not_or]
      exact ⟨by omega, fun h => absurd h.2 (by omega)⟩
    rw [if_neg hover, if_neg hindex, if_neg (fun h => hdigit h.2.2.1), if_neg (by omega),
      if_neg hcr0, if_neg (fun h => absurd h.2 (by omega)), if_pos ⟨rfl, rfl⟩,
      if_neg (by omega)]

theorem loop_char {c : UInt8} (h0 : c ≠ 0) (heq : c ≠ 61) :
    quotedPrintableLoop i (c :: rest) strOut =
      if INT_MAX < (i + 1 : ℕ) then .error .overflow
      else quotedPrintableLoop (i + 1) rest (strOut ++ [c]) := by
  rw [quotedPrintableLoop, if_neg h0, if_neg heq]
  rfl

theorem loop_quoted (c : UInt8) :
    quotedPrintableLoop i (quoted c ++ rest) strOut =
      if INT_MAX < (i + 3 : ℕ) then .error .overflow
      else quotedPrintableLoop (i + 3) rest (strOut ++ [c]) := by
  have hquoted : quoted c ++ rest =
      61 :: quotPrintHex (c.toNat >>> 4) :: quotPrintHex (c.toNat &&& 0xf) :: rest := rfl
  rw [hquoted, loop_digits (hex_ne_zero (high_lt c)) (hex_ne_zero (low_lt c))
    (isXdigit_hex (high_lt c)) (isXdigit_hex (low_lt c)), hex2int_hex (high_lt c),
    hex2int_hex (low_lt c), Nat.shiftLeft_eq, high_low, UInt8.ofNat_toNat]

theorem loop_body (c next : UInt8) :
    quotedPrintableLoop i (quotBody c next ++ rest) strOut =
      if INT_MAX < (i + quotWidth c next : ℕ) then .error .overflow
      else quotedPrintableLoop (i + quotWidth c next) rest (strOut ++ [c]) := by
  unfold quotWidth quotBody
  split
  · exact loop_quoted c
  · next hq =>
    obtain ⟨h0, heq⟩ := ne_of_not_isQuoted hq
    exact loop_char h0 heq

theorem loop_byte (lp : ℕ) (c next : UInt8) :
    quotedPrintableLoop i ((quotPrintByte lp c next).1 ++ rest) strOut =
      if INT_MAX < (i + (quotPrintByte lp c next).1.length : ℕ) then .error .overflow
      else quotedPrintableLoop (i + (quotPrintByte lp c next).1.length) rest (strOut ++ [c]) := by
  rw [length_quotPrintByte, quotPrintByte_eq]
  dsimp only
  split
  · rw [List.append_assoc, loop_softBreak, ← Nat.add_assoc]
    by_cases hover : INT_MAX < (i + 3 : ℕ)
    · rw [if_pos hover, if_pos (by omega)]
    · rw [if_neg hover, loop_body]
  · rw [List.nil_append, Nat.zero_add, loop_body]

theorem loop_encodeLoop (lp : ℕ) (str : List UInt8) (hi : (i : ℤ) ≤ INT_MAX) :
    quotedPrintableLoop i (quotPrintEncodeLoop lp str) strOut =
      if INT_MAX < (i + (quotPrintEncodeLoop lp str).length : ℕ) then .error .overflow
      else .ok (strOut ++ str) := by
  induction lp, str using quotPrintEncodeLoop.induct generalizing i strOut with
  | case1 lp =>
    rw [quotPrintEncodeLoop, quotedPrintableLoop, List.length_nil, Nat.add_zero,
      if_neg (by omega), List.append_nil]
  | case2 lp c =>
    have hbyte : quotedPrintableLoop i ((quotPrintByte lp c 0).1 ++ []) strOut = _ :=
      loop_byte lp c 0
    rw [List.append_nil, quotedPrintableLoop] at hbyte
    rw [quotPrintEncodeLoop, hbyte]
  | case3 lp c next str hcrlf ih =>
    obtain ⟨rfl, rfl⟩ := hcrlf
    rw [quotPrintEncodeLoop, if_pos ⟨rfl, rfl⟩, List.length_cons, List.length_cons,
      loop_char (by decide) (by decide)]
    by_cases hover : INT_MAX < (i + 1 : ℕ)
    · rw [if_pos hover, if_pos (by omega)]
    rw [if_neg hover, loop_char (by decide) (by decide)]
    by_cases hover' : INT_MAX < (i + 1 + 1 : ℕ)
    · rw [if_pos hover', if_pos (by omega)]
    rw [if_neg hover', ih (by omega)]
    simp only [List.append_assoc, List.cons_append, List.nil_append]
    congr 2
    omega
  | case4 lp c next str hcrlf ih =>
    rw [quotPrintEncodeLoop, if_neg hcrlf, List.length_append, loop_byte, ← Nat.add_assoc]
    by_cases hover : INT_MAX < (i + (quotPrintByte lp c next).1.length : ℕ)
    · rw [if_pos hover, if_pos (by omega)]
    · rw [if_neg hover, ih (by omega)]
      simp only [List.append_assoc, List.cons_append, List.nil_append]

/-! ## The round trip -/

/-- Both decoders give a string back. -/
structure QuotPrintRoundTrip (str : List UInt8) : Prop where
  decode : quotPrintDecode (quotPrintEncode str) false = some str
  loop : quotedPrintableLoop 0 (quotPrintEncode str) [] = .ok str

/-- The count of `php_quot_print_decode` is the length up to the largest `unsigned int`. -/
theorem quotPrintDecode_encode {str : List UInt8} (h : (quotPrintEncode str).length < 2 ^ 32) :
    quotPrintDecode (quotPrintEncode str) false = some str := by
  have hread : quotPrintDecodeLoop 0 (quotPrintCount (quotPrintEncode str))
      (quotPrintEncode str) [] = ⟨str, false⟩ := by
    rw [quotPrintCount, Nat.mod_eq_of_lt h]
    exact decode_encodeLoop 0 str []
  unfold quotPrintDecode
  rw [if_neg Bool.false_ne_true, hread]
  rfl

theorem loop_encode (str : List UInt8) :
    quotedPrintableLoop 0 (quotPrintEncode str) [] =
      if INT_MAX < (quotPrintSize 0 str : ℕ) then .error .overflow else .ok str := by
  have hloop : quotedPrintableLoop 0 (quotPrintEncode str) [] = _ :=
    loop_encodeLoop 0 str (by decide)
  rwa [Nat.zero_add, length_quotPrintEncodeLoop, List.nil_append] at hloop

theorem not_roundTrip_of_long {str : List UInt8} (h : INT_MAX < (quotPrintSize 0 str : ℕ)) :
    ¬ QuotPrintRoundTrip str := by
  intro hround
  have hloop := loop_encode str
  rw [hround.loop, if_pos h] at hloop
  cases hloop

/-- Quoted-printable texts read back when an `int` can count their characters, and only then. -/
theorem quotPrintRoundTrip_iff (str : List UInt8) :
    QuotPrintRoundTrip str ↔ (quotPrintSize 0 str : ℤ) ≤ INT_MAX := by
  constructor
  · intro h
    by_contra hlong
    exact not_roundTrip_of_long (Int.not_le.mp hlong) h
  · intro hle
    refine ⟨quotPrintDecode_encode ?_, ?_⟩
    · rw [show (quotPrintEncode str).length = _ from length_quotPrintEncodeLoop 0 str]
      rw [INT_MAX] at hle
      omega
    · rw [loop_encode, if_neg (Int.not_lt.mpr hle)]

theorem quotPrintSize_replicate (lp n : ℕ) :
    3 * n ≤ quotPrintSize lp (List.replicate n 61) := by
  have hwidth (next : UInt8) : quotWidth 61 next = 3 := if_pos (by right; right; right; left; rfl)
  induction n generalizing lp with
  | zero => exact Nat.zero_le _
  | succ n ih =>
    cases n with
    | zero =>
      show 3 ≤ _ + quotWidth 61 0
      rw [hwidth]
      exact Nat.le_add_left _ _
    | succ n =>
      have hrest := ih (columnAfter lp 61 61)
      rw [List.replicate_succ] at hrest
      rw [List.replicate_succ, List.replicate_succ, quotPrintSize, if_neg (by decide), hwidth]
      omega

/-- A text of more than `INT_MAX` characters is not read back. -/
theorem not_quotPrintRoundTrip : ¬ QuotPrintRoundTrip (List.replicate 715827883 61) := by
  apply not_roundTrip_of_long
  have hsize := quotPrintSize_replicate 0 715827883
  rw [INT_MAX]
  omega

end PhpRuntime.Text
