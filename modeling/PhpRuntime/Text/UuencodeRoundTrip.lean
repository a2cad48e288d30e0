import Mathlib.Data.Nat.Notation
import Mathlib.Tactic.Common
import PhpRuntime.Text.Uuencode

/-!
# The uuencode round trip

The encoder writes lines of 45 bytes and a shorter last one, and the decoder reads them back.
-/

set_option autoImplicit false

namespace PhpRuntime.Text

open PhpRuntime.Lib (ok_bind)

/-! ## The format -/

def uuGroup (a b c : UInt8) : List UInt8 :=
  [uuChar (a.toNat / 4), uuChar (a.toNat % 4 * 16 + b.toNat / 16),
    uuChar (b.toNat % 16 * 4 + c.toNat / 64), uuChar (c.toNat % 64)]

/-- The groups of a line, the last of which is filled up with zeros. -/
def uuBody : List UInt8 → List UInt8
  | a :: b :: c :: y => uuGroup a b c ++ uuBody y
  | [a, b] => uuGroup a b 0
  | [a] => uuGroup a 0 0
  | [] => []

def uuFilled : List UInt8 → List UInt8
  | a :: b :: c :: y => a :: b :: c :: uuFilled y
  | [a, b] => [a, b, 0]
  | [a] => [a, 0, 0]
  | [] => []

def uuLine (y : List UInt8) : List UInt8 := uuChar y.length :: uuBody y ++ [10]

def uuText (x : List UInt8) : List UInt8 :=
  if x = [] then [96, 10] else uuLine (x.take 45) ++ uuText (x.drop 45)
termination_by x.length
decreasing_by
  rw [List.length_drop]
  have hpos := List.length_pos_iff.mpr ‹¬ x = []›
  omega

variable {x y t : List UInt8}

theorem uuText_nil : uuText [] = [96, 10] := by
  rw [uuText, if_pos rfl]

theorem uuText_of_ne (hx : x ≠ []) : uuText x = uuLine (x.take 45) ++ uuText (x.drop 45) := by
  rw [uuText, if_neg hx]

theorem uuText_short (hx : x ≠ []) (h : x.length ≤ 45) : uuText x = uuLine x ++ [96, 10] := by
  rw [uuText_of_ne hx, List.take_of_length_le h, List.drop_of_length_le h, uuText_nil]

theorem length_uuBody (y : List UInt8) : (uuBody y).length = 4 * ((y.length + 2) / 3) := by
  induction y using uuBody.induct with
  | case1 a b c y ih =>
    rw [uuBody, List.length_append, ih]
    change 4 + _ = 4 * ((y.length + 3 + 2) / 3)
    omega
  | case2 a b => simp [uuBody, uuGroup]
  | case3 a => simp [uuBody, uuGroup]
  | case4 => rfl

theorem uuBody_append (h : y.length % 3 = 0) (t : List UInt8) :
    uuBody (y ++ t) = uuBody y ++ uuBody t := by
  induction y using uuBody.induct with
  | case1 a b c y ih =>
    have hy : y.length % 3 = 0 := by
      change (y.length + 3) % 3 = 0 at h
      omega
    change uuGroup a b c ++ uuBody (y ++ t) = (uuGroup a b c ++ uuBody y) ++ uuBody t
    rw [ih hy, List.append_assoc]
  | case2 a b => exact absurd h (by simp)
  | case3 a => exact absurd h (by simp)
  | case4 => rfl

theorem length_uuFilled (y : List UInt8) : (uuFilled y).length = 3 * ((y.length + 2) / 3) := by
  induction y using uuFilled.induct with
  | case1 a b c y ih =>
    change (uuFilled y).length + 3 = 3 * ((y.length + 3 + 2) / 3)
    omega
  | case2 a b => simp [uuFilled]
  | case3 a => simp [uuFilled]
  | case4 => rfl

theorem take_uuFilled (y : List UInt8) : (uuFilled y).take y.length = y := by
  induction y using uuFilled.induct with
  | case1 a b c y ih =>
    change (a :: b :: c :: uuFilled y).take (y.length + 3) = _
    rw [List.take_succ_cons, List.take_succ_cons, List.take_succ_cons, ih]
  | case2 a b => rfl
  | case3 a => rfl
  | case4 => rfl

/-! ## Encoding -/

theorem uuEncodeGroups_eq (h : y.length % 3 = 0) (t : List UInt8) :
    uuEncodeGroups y.length (y ++ t) = (uuBody y, t) := by
  induction y using uuBody.induct with
  | case1 a b c y ih =>
    have hy : y.length % 3 = 0 := by
      change (y.length + 3) % 3 = 0 at h
      omega
    have hrec : uuEncodeGroups (y.length + 3 - 3) (y ++ t) = (uuBody y, t) := ih hy
    change uuEncodeGroups (y.length + 3) (a :: b :: c :: (y ++ t)) = _
    rw [uuEncodeGroups, if_neg (Nat.succ_ne_zero _)]
    simp only [List.getD_cons_zero, List.getD_cons_succ, List.drop_succ_cons, List.drop_zero, hrec]
    rw [uuEnc_high, uuEncC2_eq, uuEncC3_eq, uuEnc_low]
    rfl
  | case2 a b => exact absurd h (by simp)
  | case3 a => exact absurd h (by simp)
  | case4 => rw [List.length_nil, uuEncodeGroups, if_pos rfl]; rfl

theorem uuTail_group (h : x.length ≤ 3) :
    (if x.length ≠ 0 then
      [uuEnc ((charValue (x.getD 0 0)).sshiftRight 2), uuEncC2 (x.getD 0 0) (x.getD 1 0),
        if 1 < x.length then uuEncC3 (x.getD 1 0) (x.getD 2 0) else uuEnc 0,
        if 2 < x.length then uuEnc (charValue (x.getD 2 0) &&& 0o77) else uuEnc 0]
    else []) = uuBody x := by
  match x, h with
  | [], _ => rfl
  | [a], _ =>
    simp only [List.length_singleton, List.getD_cons_zero, List.getD_cons_succ, List.getD_nil]
    rw [if_pos (by decide), if_neg (by decide), if_neg (by decide), uuEnc_high, uuEncC2_eq,
      uuEnc_zero]
    rfl
  | [a, b], _ =>
    simp only [List.length_cons, List.length_nil, List.getD_cons_zero, List.getD_cons_succ,
      List.getD_nil]
    rw [if_pos (by decide), if_pos (by decide), if_neg (by decide), uuEnc_high, uuEncC2_eq,
      uuEncC3_eq, uuEnc_zero]
    rfl
  | [a, b, c], _ =>
    simp only [List.length_cons, List.length_nil, List.getD_cons_zero, List.getD_cons_succ]
    rw [if_pos (by decide), if_pos (by decide), if_pos (by decide), uuEnc_high, uuEncC2_eq,
      uuEncC3_eq, uuEnc_low]
    rfl

theorem uuEncodeTail_short (h : x.length ≤ 3) {len : ℕ} (hlen : len < 45) :
    uuEncodeTail x len = uuBody x ++ [10] ++ [96, 10] := by
  have hno : ¬ (x.length ≠ 0 ∧ len = 45) := fun hno => Nat.ne_of_lt hlen hno.2
  rw [uuEncodeTail]
  simp only [if_neg hno, if_pos hlen]
  rw [uuTail_group h]
  rfl

theorem uuEncodeTail_full (h : x.length ≤ 3) : uuEncodeTail x 45 = uuText x := by
  rw [uuEncodeTail]
  by_cases hx : x = []
  · subst hx
    rw [uuText_nil]
    rfl
  · have hpos : x.length ≠ 0 ∧ 45 = 45 := ⟨fun hno => hx (List.eq_nil_of_length_eq_zero hno), rfl⟩
    have hshort : 0 < 45 := by omega
    rw [if_pos hpos, if_pos hpos, if_pos hshort, uuTail_group h, uuText_short hx (by omega),
      uuEnc_ofNat _ (by omega), uuLine]
    rfl

/-- **The encoder writes the lines.** -/
theorem uuEncodeLoop_eq (turns : ℕ) (x : List UInt8) (h : x.length < turns) :
    uuEncodeLoop turns x 45 = .ok (uuText x) := by
  induction turns generalizing x with
  | zero => exact absurd h (Nat.not_lt_zero _)
  | succ turns ih =>
    rw [uuEncodeLoop]
    by_cases h3 : 3 < x.length
    · have hx : x ≠ [] := by
        rintro rfl
        exact absurd h3 (by decide)
      rw [if_pos h3]
      by_cases h45 : x.length < 45
      · -- the last line, and then the tail
        obtain ⟨left, hleft⟩ : ∃ left,
            (if x.length % 3 ≠ 0 then x.length / 3 * 3 else x.length) = left := ⟨_, rfl⟩
        have hleft' : left = x.length / 3 * 3 := by
          rw [← hleft]
          split_ifs
          · rfl
          · omega
        have htake : (x.take left).length = left := by
          rw [List.length_take]
          omega
        have hmod : (x.take left).length % 3 = 0 := by
          rw [htake]
          omega
        have hgroups := uuEncodeGroups_eq hmod (x.drop left)
        rw [htake, List.take_append_drop] at hgroups
        have hrest : (x.drop left).length ≤ 2 := by
          rw [List.length_drop]
          omega
        obtain ⟨turns, rfl⟩ : ∃ n, turns = n + 1 := ⟨turns - 1, by omega⟩
        have htail : uuEncodeLoop (turns + 1) (x.drop left) x.length =
            .ok (uuBody (x.drop left) ++ [10] ++ [96, 10]) := by
          rw [uuEncodeLoop, if_neg (by omega), uuEncodeTail_short (by omega) h45]
        have hbody := uuBody_append hmod (x.drop left)
        rw [List.take_append_drop] at hbody
        simp only [if_pos h45, hleft, hgroups, htail, ok_bind]
        rw [if_neg (Nat.ne_of_lt h45), uuEnc_ofNat _ (by omega), uuText_short hx (by omega), uuLine,
          hbody]
        simp only [List.append_nil, List.cons_append, List.append_assoc]
      · -- a full line
        have htake : (x.take 45).length = 45 := by
          rw [List.length_take]
          omega
        have hgroups := uuEncodeGroups_eq (y := x.take 45) (by rw [htake]) (x.drop 45)
        rw [htake, List.take_append_drop] at hgroups
        have hrest := ih (x.drop 45) (by rw [List.length_drop]; omega)
        simp only [if_neg h45, hgroups, hrest, ok_bind]
        rw [if_pos trivial, uuEnc_ofNat _ (by decide), uuText_of_ne hx, uuLine, htake]
    · rw [if_neg h3, uuEncodeTail_full (by omega)]

theorem length_uuText (x : List UInt8) :
    (uuText x).length = 62 * (x.length / 45) +
      (if x.length % 45 = 0 then 0 else 2 + 4 * ((x.length % 45 + 2) / 3)) + 2 := by
  induction x using uuText.induct with
    | case1 =>
      rw [uuText_nil]
      rfl
    | case2 x hx ih =>
      have hpos := List.length_pos_iff.mpr hx
      have hline : (uuLine (x.take 45)).length = 2 + 4 * ((min 45 x.length + 2) / 3) := by
        rw [uuLine, List.length_append, List.length_cons, length_uuBody, List.length_take,
          List.length_singleton]
        omega
      rw [uuText_of_ne hx, List.length_append, hline, ih, List.length_drop]
      split_ifs <;> omega

/-! ## Decoding -/

theorem uuDecode_group (a b c : UInt8) (t : List UInt8) {left : ℕ} (h : left ≠ 0) :
    uuDecodeGroups left (uuGroup a b c ++ t) =
      (a :: b :: c :: (uuDecodeGroups (left - 4) t).1, (uuDecodeGroups (left - 4) t).2) := by
  have ha := a.toNat_lt
  have hb := b.toNat_lt
  have hc := c.toNat_lt
  have h0 : (a.toNat / 4) <<< 2 ||| (a.toNat % 4 * 16 + b.toNat / 16) >>> 4 = a.toNat := by
    rw [Nat.shiftLeft_eq, Nat.shiftRight_eq_div_pow, or_eq_add (by omega)]
    omega
  have h1 : ((a.toNat % 4 * 16 + b.toNat / 16) <<< 4 |||
      (b.toNat % 16 * 4 + c.toNat / 64) >>> 2) % 256 = b.toNat := by
    rw [Nat.shiftLeft_eq, Nat.shiftRight_eq_div_pow, or_eq_add (by omega)]
    omega
  have h2 : ((b.toNat % 16 * 4 + c.toNat / 64) <<< 6 ||| c.toNat % 64) % 256 = c.toNat := by
    rw [Nat.shiftLeft_eq, or_eq_add (by omega)]
    omega
  have hbyte {n : ℕ} {c : UInt8} (hn : n % 256 = c.toNat) : UInt8.ofNat n = c := by
    rw [← UInt8.toNat_inj, UInt8.toNat_ofNat']
    exact hn
  rw [uuDecodeGroups, if_neg h, uuGroup]
  simp only [List.cons_append, List.nil_append, List.getD_cons_zero, List.getD_cons_succ,
    List.drop_succ_cons, List.drop_zero]
  rw [uuDec_uuChar _ (by omega), uuDec_uuChar _ (by omega), uuDec_uuChar _ (by omega),
    uuDec_uuChar _ (by omega), h0, hbyte h1, hbyte h2, UInt8.ofNat_toNat]

theorem uuDecodeGroups_eq {left : ℕ} (h : (left + 3) / 4 = (y.length + 2) / 3) (t : List UInt8) :
    uuDecodeGroups left (uuBody y ++ t) = (uuFilled y, t) := by
  induction y using uuBody.induct generalizing left with
  | case1 a b c y ih =>
    change (left + 3) / 4 = (y.length + 3 + 2) / 3 at h
    rw [uuBody, List.append_assoc, uuDecode_group a b c _ (by omega), ih (by omega)]
    rfl
  | case2 a b =>
    change (left + 3) / 4 = (2 + 2) / 3 at h
    have hend : left - 4 = 0 := by omega
    rw [uuBody, uuDecode_group a b 0 _ (by omega), hend, uuDecodeGroups, if_pos rfl]
    rfl
  | case3 a =>
    change (left + 3) / 4 = (1 + 2) / 3 at h
    have hend : left - 4 = 0 := by omega
    rw [uuBody, uuDecode_group a 0 0 _ (by omega), hend, uuDecodeGroups, if_pos rfl]
    rfl
  | case4 =>
    change (left + 3) / 4 = (0 + 2) / 3 at h
    have hend : left = 0 := by omega
    rw [hend, uuDecodeGroups, if_pos rfl]
    rfl

theorem uuLineLength_eq {len : ℕ} (h : len ≤ 45) : (uuLineLength len + 3) / 4 = (len + 2) / 3 := by
  rw [uuLineLength]
  split_ifs with h45
  · rw [h45]
  · omega

/-- **The decoder reads the lines back.** -/
theorem uuDecodeLoop_eq {srcLen : ℤ} (turns : ℕ) (x : List UInt8) (h : x.length < turns)
    (hlen : (min 45 x.length : ℕ) ≤ srcLen) (totalLen : ℕ) (p : List UInt8) :
    ∃ q s, uuDecodeLoop srcLen turns (uuText x) totalLen p =
        .ok (some (totalLen + x.length, p ++ q, s)) ∧ q.take x.length = x := by
  induction turns generalizing x totalLen p with
  | zero => exact absurd h (Nat.not_lt_zero _)
  | succ turns ih =>
    by_cases hx : x = []
    · subst hx
      refine ⟨[], [10], ?_, rfl⟩
      rw [uuText_nil, uuDecodeLoop, List.append_nil]
      rfl
    · have hpos := List.length_pos_iff.mpr hx
      have htake : (x.take 45).length = min 45 x.length := List.length_take
      have hsplit : uuText x = uuChar (x.take 45).length ::
          (uuBody (x.take 45) ++ (10 :: uuText (x.drop 45))) := by
        rw [uuText_of_ne hx, uuLine]
        simp only [List.cons_append, List.append_assoc, List.nil_append]
      have hdec : uuDec (uuChar (x.take 45).length) = min 45 x.length := by
        rw [htake]
        exact uuDec_uuChar _ (by omega)
      have hline : (uuLineLength (min 45 x.length) + 3) / 4 = (min 45 x.length + 2) / 3 :=
        uuLineLength_eq (by omega)
      have hgroups : uuDecodeGroups (uuLineLength (min 45 x.length))
          (uuBody (x.take 45) ++ (10 :: uuText (x.drop 45))) =
            (uuFilled (x.take 45), 10 :: uuText (x.drop 45)) :=
        uuDecodeGroups_eq (by rw [htake, hline]) _
      have hroom : ¬ (uuBody (x.take 45) ++ (10 :: uuText (x.drop 45))).length <
          uuLineLength (min 45 x.length) := by
        rw [List.length_append, length_uuBody, htake]
        omega
      rw [hsplit, uuDecodeLoop]
      simp only [hdec]
      rw [if_neg (by omega), if_neg (by omega), if_neg hroom]
      simp only [hgroups]
      by_cases h45 : min 45 x.length < 45
      · have hall : x.take 45 = x := List.take_of_length_le (by omega)
        refine ⟨uuFilled (x.take 45), 10 :: uuText (x.drop 45), ?_, ?_⟩
        · rw [if_pos h45, show min 45 x.length = x.length by omega]
        · rw [hall, take_uuFilled]
      · have hdrop : (x.drop 45).length = x.length - 45 := List.length_drop
        obtain ⟨q, s, hloop, hq⟩ := ih (x.drop 45) (by omega) (by omega)
          (totalLen + min 45 x.length) (p ++ uuFilled (x.take 45))
        refine ⟨uuFilled (x.take 45) ++ q, s, ?_, ?_⟩
        · rw [if_neg h45, List.drop_one, List.tail_cons, hloop, List.append_assoc, hdrop]
          congr 3
          omega
        · have hfilled : uuFilled (x.take 45) = x.take 45 := by
            have hprefix := take_uuFilled (x.take 45)
            rwa [List.take_of_length_le (by rw [length_uuFilled]; omega)] at hprefix
          rw [hfilled, List.take_append, htake, List.take_of_length_le (by omega),
            show x.length - min 45 x.length = (x.drop 45).length by omega, hq,
            List.take_append_drop]

/-! ## The round trip -/

/-- The decoder gives the bytes and their number back, and the encoder stays in its buffer. -/
structure UuRoundTrip (x : List UInt8) : Prop where
  decoded : ∃ text n, uuEncode x = .ok (text, n) ∧ uuDecode text n = .ok (some (x.length, x))
  inBuffer : ∃ text n, uuEncode x = .ok (text, n) ∧ text.length + 1 ≤ uuEncodeAlloc x.length

theorem uuEncode_eq (x : List UInt8) : uuEncode x = .ok (uuText x, toInt (uuText x).length) := by
  rw [uuEncode, uuEncodeLoop_eq _ x (Nat.lt_succ_self _)]
  rfl

theorem length_uuText_lt (x : List UInt8) : (uuText x).length + 1 ≤ uuEncodeAlloc x.length := by
  rw [length_uuText, uuEncodeAlloc]
  split_ifs <;> omega

theorem uuDecode_uuText (x : List UInt8) :
    uuDecode (uuText x) (uuText x).length = .ok (some (x.length, x)) := by
  have hlen := length_uuText x
  have hfuel : x.length < (uuText x).length + 1 := by
    split_ifs at hlen <;> omega
  have hline : ((min 45 x.length : ℕ) : ℤ) ≤ ((uuText x).length : ℤ) := by omega
  obtain ⟨q, s, hloop, hq⟩ := uuDecodeLoop_eq _ x hfuel hline 0 []
  have hlong : ¬ q.length < x.length := by
    have htake := congrArg List.length hq
    rw [List.length_take] at htake
    omega
  rw [uuDecode, if_neg (by omega), Int.toNat_natCast, List.take_length, hloop, ok_bind]
  simp only [List.nil_append, Nat.zero_add]
  rw [if_neg hlong, hq]

theorem uuRoundTrip_of_le {x : List UInt8} (h : ((uuText x).length : ℤ) ≤ INT_MAX) :
    UuRoundTrip x := by
  have hencode := uuEncode_eq x
  rw [toInt_eq (Int.natCast_nonneg _) h] at hencode
  exact ⟨⟨_, _, hencode, uuDecode_uuText x⟩, ⟨_, _, hencode, length_uuText_lt x⟩⟩

theorem not_uuRoundTrip_of_lt {x : List UInt8} (hx : (x.length : ℤ) ≤ INT_MAX)
    (h : INT_MAX < ((uuText x).length : ℤ)) : ¬ UuRoundTrip x := by
  rintro ⟨⟨text, n, hencode, hdecode⟩, -⟩
  rw [uuEncode_eq, Except.ok.injEq, Prod.mk.injEq] at hencode
  have hlarge : (uuText x).length < 4294967296 := by
    have hlen := length_uuText x
    rw [INT_MAX] at hx
    split_ifs at hlen <;> omega
  have hneg : n < 0 := by
    rw [← hencode.2, toInt, Int.bmod_def]
    rw [INT_MAX] at h
    generalize (uuText x).length = n at h hlarge
    omega
  rw [uuDecode, if_pos hneg] at hdecode
  cases hdecode

/-- **The round trip**, for every string of which the encoded text has a length that is an
`int`. -/
theorem uuRoundTrip_iff (x : List UInt8) (hx : (x.length : ℤ) ≤ INT_MAX) :
    UuRoundTrip x ↔
      ((62 * (x.length / 45) +
        (if x.length % 45 = 0 then 0 else 2 + 4 * ((x.length % 45 + 2) / 3)) + 2 : ℕ) : ℤ) ≤
        INT_MAX := by
  rw [← length_uuText]
  refine ⟨fun h => ?_, uuRoundTrip_of_le⟩
  by_contra hno
  exact not_uuRoundTrip_of_lt hx (Int.not_le.mp hno) h

theorem uuRoundTrip_iff_word :
    UuRoundTrip [80, 72, 80, 33] ↔
      ((62 * ([80, 72, 80, 33].length / 45) +
        (if [80, 72, 80, 33].length % 45 = 0 then 0
          else 2 + 4 * (([80, 72, 80, 33].length % 45 + 2) / 3)) + 2 : ℕ) : ℤ) ≤ INT_MAX :=
  uuRoundTrip_iff [80, 72, 80, 33] (by decide)

/-- A string of `INT_MAX` bytes. -/
theorem not_uuRoundTrip :
    ¬ ∀ x : List UInt8, x ≠ [] → (x.length : ℤ) ≤ INT_MAX → UuRoundTrip x := by
  intro h
  have hlen : (List.replicate 2147483647 (65 : UInt8)).length = 2147483647 := List.length_replicate
  have hx : ((List.replicate 2147483647 (65 : UInt8)).length : ℤ) ≤ INT_MAX := by
    rw [hlen]
    decide
  have hne : List.replicate 2147483647 (65 : UInt8) ≠ [] := by
    intro hnil
    rw [hnil] at hlen
    exact absurd hlen (by decide)
  refine not_uuRoundTrip_of_lt hx ?_ (h _ hne hx)
  rw [length_uuText, hlen, INT_MAX]
  split_ifs <;> omega

end PhpRuntime.Text
