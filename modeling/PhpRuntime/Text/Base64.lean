import PhpRuntime.Lib.Base64
import PhpRuntime.Text.CInt

/-!
# `base64_encode` and `base64_decode`

The functions of `base64.c`. A text comes with its length, an `int`, and is followed by a `NUL`.
-/

set_option autoImplicit false

namespace PhpRuntime.Text

open PhpRuntime.Lib.Base64

/-! ## Encoding -/

/-- `base64_table` -/
def base64Table : List ℕ :=
  [65, 66, 67, 68, 69, 70, 71, 72, 73, 74, 75, 76, 77,
   78, 79, 80, 81, 82, 83, 84, 85, 86, 87, 88, 89, 90,
   97, 98, 99, 100, 101, 102, 103, 104, 105, 106, 107, 108, 109,
   110, 111, 112, 113, 114, 115, 116, 117, 118, 119, 120, 121, 122,
   48, 49, 50, 51, 52, 53, 54, 55, 56, 57, 43, 47, 0]

/-- `base64_table[n]` -/
def base64Char (n : ℕ) : UInt8 := UInt8.ofNat (base64Table.getD n 0)

/-- The bytes that `php_base64_encode` writes. -/
def base64EncodeBytes : List UInt8 → List UInt8
  | a :: b :: c :: current =>
    let a := a.toNat
    let b := b.toNat
    let c := c.toNat
    base64Char (a >>> 2) :: base64Char (((a &&& 0x03) <<< 4) + (b >>> 4)) ::
      base64Char (((b &&& 0x0f) <<< 2) + (c >>> 6)) :: base64Char (c &&& 0x3f) ::
      base64EncodeBytes current
  | [a, b] =>
    let a := a.toNat
    let b := b.toNat
    [base64Char (a >>> 2), base64Char (((a &&& 0x03) <<< 4) + (b >>> 4)),
      base64Char ((b &&& 0x0f) <<< 2), pad]
  | [a] =>
    let a := a.toNat
    [base64Char (a >>> 2), base64Char ((a &&& 0x03) <<< 4), pad, pad]
  | [] => []

/-- `php_base64_encode`, with `*ret_length`. The size of the buffer is computed as an `int`. -/
def base64Encode (str : List UInt8) : Except Undefined (List UInt8 × ℤ) := do
  let _ ← intValue (str.length + 2)
  .ok (base64EncodeBytes str, toInt (base64EncodeBytes str).length)

/-! ## Decoding -/

/-- `base64_reverse_table` -/
def base64ReverseTable : List ℤ :=
  [-2, -2, -2, -2, -2, -2, -2, -2, -2, -1, -1, -2, -2, -1, -2, -2,
   -2, -2, -2, -2, -2, -2, -2, -2, -2, -2, -2, -2, -2, -2, -2, -2,
   -1, -2, -2, -2, -2, -2, -2, -2, -2, -2, -2, 62, -2, -2, -2, 63,
   52, 53, 54, 55, 56, 57, 58, 59, 60, 61, -2, -2, -2, -2, -2, -2,
   -2,  0,  1,  2,  3,  4,  5,  6,  7,  8,  9, 10, 11, 12, 13, 14,
   15, 16, 17, 18, 19, 20, 21, 22, 23, 24, 25, -2, -2, -2, -2, -2,
   -2, 26, 27, 28, 29, 30, 31, 32, 33, 34, 35, 36, 37, 38, 39, 40,
   41, 42, 43, 44, 45, 46, 47, 48, 49, 50, 51, -2, -2, -2, -2, -2] ++ List.replicate 128 (-2)

/-- `base64_reverse_table[ch]` -/
def base64Reverse (ch : UInt8) : ℤ := base64ReverseTable.getD ch.toNat (-2)

/-- `result[0]` to `result[j - 1]`, `result[j]` and `i` -/
structure Decoding where
  result : List UInt8
  cell : ℕ
  i : ℕ

/-- The `switch` of the loop. -/
def Decoding.put (d : Decoding) (ch : ℕ) : Decoding :=
  match d.i % 4 with
  | 0 => ⟨d.result, (ch <<< 2) % 256, d.i + 1⟩
  | 1 => ⟨d.result ++ [UInt8.ofNat (d.cell ||| ch >>> 4)], ((ch &&& 0x0f) <<< 4) % 256, d.i + 1⟩
  | 2 => ⟨d.result ++ [UInt8.ofNat (d.cell ||| ch >>> 2)], ((ch &&& 0x03) <<< 6) % 256, d.i + 1⟩
  | _ => ⟨d.result ++ [UInt8.ofNat (d.cell ||| ch)], d.cell, d.i + 1⟩

/-- The loop of `php_base64_decode_ex`, with the bytes in front of the `NUL` that are left. It ends
with the last `ch`, or with `none` where the function returns `NULL`. -/
def base64DecodeLoop (strict : Bool) (current : List UInt8) (length : ℤ) (d : Decoding) :
    Option (UInt8 × Decoding) :=
  match current with
  | [] => some (0, d)
  | ch :: current =>
    if ch = 0 then some (0, d)
    else if length ≤ 0 then some (ch, d)
    else if ch = pad then
      if current.headD 0 ≠ pad ∧ (d.i % 4 = 1 ∨ strict = true ∧ 0 < length - 1) then
        if d.i % 4 ≠ 1 then
          -- `++current` comes before the first look at a byte
          if ((current.drop 1).dropWhile isspace).headD 0 = 0 then
            base64DecodeLoop strict ((current.drop 1).dropWhile isspace) (length - 1) d
          else none
        else none
      else base64DecodeLoop strict current (length - 1) d
    else if strict = false ∧ base64Reverse ch < 0 ∨ base64Reverse ch = -1 then
      base64DecodeLoop strict current (length - 1) d
    else if base64Reverse ch = -2 then none
    else base64DecodeLoop strict current (length - 1) (d.put (base64Reverse ch).toNat)
termination_by current.length
decreasing_by
  · have hle := (List.dropWhile_suffix isspace (l := current.drop 1)).length_le
    rw [List.length_drop] at hle
    rw [List.length_cons]
    omega
  all_goals exact Nat.lt_succ_self _

/-- `php_base64_decode_ex`, with `none` for `NULL`. The zero behind a padded end is not counted in
`*ret_length`. There is no buffer of a negative size. -/
def base64DecodeEx (str : List UInt8) (length : ℤ) (strict : Bool) :
    Except Undefined (Option (List UInt8)) :=
  if length < 0 then .error .outOfMemory
  else
    match base64DecodeLoop strict str length ⟨[], 0, 0⟩ with
    | none => .ok none
    | some (ch, d) => if ch = pad ∧ d.i % 4 = 1 then .ok none else .ok (some d.result)

/-! ## The tables -/

def Blank (c : UInt8) : Prop := base64Reverse c = -1

instance (c : UInt8) : Decidable (Blank c) := inferInstanceAs (Decidable (base64Reverse c = -1))

theorem base64Table_eq : base64Table = (List.range 64).map code ++ [0] := by decide

theorem base64Char_eq (n : ℕ) (hn : n < 64) : base64Char n = symbol n := by
  rw [base64Char, base64Table_eq, List.getD_eq_getElem?_getD,
    List.getElem?_append_left (by simpa using hn), List.getElem?_map, List.getElem?_range hn]
  rfl

theorem base64ReverseTable_eq : base64ReverseTable = (List.range 256).map fun n =>
    ((sextet (UInt8.ofNat n)).map Int.ofNat).getD (if n ∈ [9, 10, 13, 32] then -1 else -2) := by
  decide +kernel

theorem base64Reverse_eq (c : UInt8) :
    base64Reverse c = ((sextet c).map Int.ofNat).getD (if Blank c then -1 else -2) := by
  have htable : base64Reverse c =
      ((sextet c).map Int.ofNat).getD (if c.toNat ∈ [9, 10, 13, 32] then -1 else -2) := by
    rw [base64Reverse, base64ReverseTable_eq, List.getD_eq_getElem?_getD, List.getElem?_map,
      List.getElem?_range c.toNat_lt, Option.map_some, Option.getD_some, UInt8.ofNat_toNat]
  have hblank (h : sextet c = none) : Blank c ↔ c.toNat ∈ [9, 10, 13, 32] := by
    unfold Blank
    rw [htable, h, Option.map_none, Option.getD_none]
    split <;> simp_all
  rw [htable]
  cases h : sextet c with
  | some n => rfl
  | none => simp only [hblank h]

theorem base64Reverse_of_sextet {c : UInt8} {n : ℕ} (h : sextet c = some n) :
    base64Reverse c = n := by
  rw [base64Reverse_eq, h]
  rfl

theorem base64Reverse_of_none {c : UInt8} (h : sextet c = none) :
    base64Reverse c = if Blank c then -1 else -2 := by
  rw [base64Reverse_eq, h]
  rfl

/-! ## The steps of the loop -/

variable {strict : Bool} {c : UInt8} {t : List UInt8} {length : ℤ} {d : Decoding} {n : ℕ}

alias loop_cons := base64DecodeLoop.eq_2

theorem loop_nil : base64DecodeLoop strict [] length d = some (0, d) := by
  rw [base64DecodeLoop]

theorem sextet_zero : sextet 0 = none := by decide

theorem pad_ne_zero : pad ≠ 0 := by decide

theorem loop_sextet (h : sextet c = some n) (hlen : 0 < length) :
    base64DecodeLoop strict (c :: t) length d =
      base64DecodeLoop strict t (length - 1) (d.put n) := by
  have h0 : c ≠ 0 := by
    rintro rfl
    rw [sextet_zero] at h
    cases h
  have hp : c ≠ pad := by
    rintro rfl
    rw [sextet_pad] at h
    cases h
  rw [loop_cons, if_neg h0, if_neg (Int.not_le.mpr hlen), if_neg hp,
    base64Reverse_of_sextet h, Int.toNat_natCast, if_neg (by omega), if_neg (by omega)]

theorem loop_skip (h : sextet c = none) (h0 : c ≠ 0) (hp : c ≠ pad)
    (hs : strict = false ∨ Blank c) (hlen : 0 < length) :
    base64DecodeLoop strict (c :: t) length d = base64DecodeLoop strict t (length - 1) d := by
  have hneg : base64Reverse c < 0 := by
    rw [base64Reverse_of_none h]
    split_ifs <;> decide
  rw [loop_cons, if_neg h0, if_neg (Int.not_le.mpr hlen), if_neg hp, if_pos]
  exact hs.imp (fun hs => ⟨hs, hneg⟩) id

theorem loop_reject (h : sextet c = none) (h0 : c ≠ 0) (hp : c ≠ pad) (hs : strict = true)
    (hblank : ¬ Blank c) (hlen : 0 < length) :
    base64DecodeLoop strict (c :: t) length d = none := by
  have hreverse : base64Reverse c = -2 := by rw [base64Reverse_of_none h, if_neg hblank]
  rw [loop_cons, if_neg h0, if_neg (Int.not_le.mpr hlen), if_neg hp, hreverse, hs]
  rfl

theorem loop_pad (hlen : 0 < length)
    (h : t.headD 0 = pad ∨ d.i % 4 ≠ 1 ∧ (strict = false ∨ length = 1)) :
    base64DecodeLoop strict (pad :: t) length d = base64DecodeLoop strict t (length - 1) d := by
  rw [loop_cons, if_neg pad_ne_zero, if_neg (Int.not_le.mpr hlen), if_pos rfl, if_neg]
  rintro ⟨hne, hor⟩
  rcases h with hpad | ⟨hi, hs⟩
  · exact hne hpad
  · rcases hor with hi' | ⟨hstrict, hlt⟩
    · exact hi hi'
    · rcases hs with hs | hs
      · rw [hs] at hstrict
        cases hstrict
      · omega

theorem loop_pad_strict (hlen : 1 < length) (hne : t.headD 0 ≠ pad) :
    base64DecodeLoop true (pad :: t) length d =
      if d.i % 4 ≠ 1 ∧ ((t.drop 1).dropWhile isspace).headD 0 = 0 then some (0, d) else none := by
  rw [loop_cons, if_neg pad_ne_zero, if_neg (by omega), if_pos rfl,
    if_pos ⟨hne, Or.inr ⟨rfl, by omega⟩⟩]
  by_cases hi : d.i % 4 ≠ 1
  · rw [if_pos hi]
    by_cases hend : ((t.drop 1).dropWhile isspace).headD 0 = 0
    · rw [if_pos hend, if_pos ⟨hi, hend⟩]
      cases hrest : (t.drop 1).dropWhile isspace with
      | nil => exact loop_nil
      | cons c r =>
        rw [hrest, List.headD_cons] at hend
        rw [loop_cons, if_pos hend]
    · rw [if_neg hend, if_neg fun hno => hend hno.2]
  · rw [if_neg hi, if_neg fun hno => hi hno.1]

theorem loop_last {ch : UInt8} {d' : Decoding} (hlen : (t.length : ℤ) ≤ length)
    (h : base64DecodeLoop strict t length d = some (ch, d')) : ch = 0 := by
  fun_induction base64DecodeLoop strict t length d with
  | case1 => exact (Prod.mk.inj (Option.some.inj h)).1.symm
  | case2 => exact (Prod.mk.inj (Option.some.inj h)).1.symm
  | case3 length d ch t hne hle =>
    rw [List.length_cons] at hlen
    omega
  | case4 length d t _ _ _ _ _ ih =>
    refine ih ?_ h
    have hle := (List.dropWhile_suffix isspace (l := t.drop 1)).length_le
    rw [List.length_drop] at hle
    rw [List.length_cons] at hlen
    omega
  | case5 => cases h
  | case6 => cases h
  | case7 _ _ _ _ _ _ ih =>
    refine ih ?_ h
    rw [List.length_cons] at hlen
    omega
  | case8 _ _ _ _ _ _ _ _ ih =>
    refine ih ?_ h
    rw [List.length_cons] at hlen
    omega
  | case9 => cases h
  | case10 _ _ _ _ _ _ _ _ _ ih =>
    refine ih ?_ h
    rw [List.length_cons] at hlen
    omega

theorem base64DecodeEx_eq (strict : Bool) (s : List UInt8) :
    base64DecodeEx s s.length strict =
      .ok ((base64DecodeLoop strict s s.length ⟨[], 0, 0⟩).map fun r => r.2.result) := by
  rw [base64DecodeEx, if_neg (by omega)]
  cases h : base64DecodeLoop strict s s.length ⟨[], 0, 0⟩ with
  | none => rfl
  | some r =>
    have hlast : r.1 = 0 := loop_last (Int.le_refl _) h
    dsimp only
    rw [if_neg fun hno => pad_ne_zero (hno.1.symm.trans hlast)]
    rfl

theorem put_i (d : Decoding) (n : ℕ) : (d.put n).i = d.i + 1 := by
  rw [Decoding.put]
  split <;> rfl

end PhpRuntime.Text
