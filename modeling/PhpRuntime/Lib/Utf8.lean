import Mathlib.Data.List.Basic
import Mathlib.Data.Nat.Notation

/-!
# The UTF-8 sequences by their bytes

The bytes of the encoding of a character as quotients and remainders of its code point, and
the character back from bytes that lie in the ranges of the four lengths.
-/

set_option autoImplicit false

namespace PhpRuntime.Lib.Utf8

def Trail (b : UInt8) : Prop := 0x80 ≤ b.toNat ∧ b.toNat ≤ 0xBF

instance (b : UInt8) : Decidable (Trail b) := by unfold Trail; infer_instance

theorem exists_char {v : ℕ} (h : v < 0x110000) (hs : v < 0xD800 ∨ 0xDFFF < v) :
    ∃ c : Char, c.toNat = v := by
  refine ⟨⟨UInt32.ofNat v, ?_⟩, ?_⟩
  · show (UInt32.ofNat v).toNat.isValidChar
    rw [UInt32.toNat_ofNat', Nat.mod_eq_of_lt (by omega)]
    unfold Nat.isValidChar
    omega
  · show (UInt32.ofNat v).toNat = v
    rw [UInt32.toNat_ofNat', Nat.mod_eq_of_lt (by omega)]

theorem toNat_valid (c : Char) : c.toNat < 0x110000 ∧ (c.toNat < 0xD800 ∨ 0xDFFF < c.toNat) := by
  have h : c.toNat.isValidChar := c.valid
  unfold Nat.isValidChar at h
  omega

variable {c : Char}

/-! ## From the character to the bytes -/

theorem encode_one (h : c.toNat < 0x80) :
    String.utf8EncodeChar c = [UInt8.ofNat c.toNat] := if_pos (Nat.le_of_lt_succ h)

theorem encode_two (h : 0x80 ≤ c.toNat) (h' : c.toNat < 0x800) :
    String.utf8EncodeChar c =
      [UInt8.ofNat (c.toNat / 64 % 32 + 0xC0), UInt8.ofNat (c.toNat % 64 + 0x80)] := by
  unfold String.utf8EncodeChar
  exact (if_neg (Nat.not_le.mpr h)).trans (if_pos (Nat.le_of_lt_succ h'))

theorem encode_three (h : 0x800 ≤ c.toNat) (h' : c.toNat < 0x10000) :
    String.utf8EncodeChar c =
      [UInt8.ofNat (c.toNat / 4096 % 16 + 0xE0), UInt8.ofNat (c.toNat / 64 % 64 + 0x80),
        UInt8.ofNat (c.toNat % 64 + 0x80)] := by
  have h7f : 0x7f < c.toNat := by omega
  unfold String.utf8EncodeChar
  exact (if_neg (Nat.not_le.mpr h7f)).trans
    ((if_neg (Nat.not_le.mpr h)).trans (if_pos (Nat.le_of_lt_succ h')))

theorem encode_four (h : 0x10000 ≤ c.toNat) :
    String.utf8EncodeChar c =
      [UInt8.ofNat (c.toNat / 262144 % 8 + 0xF0), UInt8.ofNat (c.toNat / 4096 % 64 + 0x80),
        UInt8.ofNat (c.toNat / 64 % 64 + 0x80), UInt8.ofNat (c.toNat % 64 + 0x80)] := by
  have h7f : 0x7f < c.toNat := by omega
  have h7ff : 0x7ff < c.toNat := by omega
  unfold String.utf8EncodeChar
  exact (if_neg (Nat.not_le.mpr h7f)).trans
    ((if_neg (Nat.not_le.mpr h7ff)).trans (if_neg (Nat.not_le.mpr h)))

/-! ## From the bytes to the character -/

theorem ofNat_eq {b : UInt8} {n : ℕ} (h : n = b.toNat) : UInt8.ofNat n = b := by
  rw [h, UInt8.ofNat_toNat]

theorem exists_encode_one {a : UInt8} (h : a.toNat < 0x80) :
    ∃ c : Char, c.toNat = a.toNat ∧ String.utf8EncodeChar c = [a] := by
  obtain ⟨c, hc⟩ := exists_char (v := a.toNat) (by omega) (by omega)
  refine ⟨c, hc, ?_⟩
  rw [encode_one (by omega), ofNat_eq hc]

theorem exists_encode_two {a b : UInt8} (h : 0xC2 ≤ a.toNat) (h' : a.toNat < 0xE0)
    (hb : Trail b) :
    ∃ c : Char, c.toNat = a.toNat % 32 * 64 + b.toNat % 64 ∧
      String.utf8EncodeChar c = [a, b] := by
  unfold Trail at hb
  obtain ⟨c, hc⟩ := exists_char (v := a.toNat % 32 * 64 + b.toNat % 64) (by omega) (by omega)
  refine ⟨c, hc, ?_⟩
  rw [encode_two (by omega) (by omega), ofNat_eq (b := a) (by omega), ofNat_eq (b := b) (by omega)]

theorem exists_encode_three {a b d : UInt8} (h : 0xE0 ≤ a.toNat) (h' : a.toNat < 0xF0)
    (hb : Trail b) (hd : Trail d)
    (hshort : 0x800 ≤ a.toNat % 16 * 4096 + b.toNat % 64 * 64 + d.toNat % 64)
    (hs : a.toNat % 16 * 4096 + b.toNat % 64 * 64 + d.toNat % 64 < 0xD800 ∨
      0xDFFF < a.toNat % 16 * 4096 + b.toNat % 64 * 64 + d.toNat % 64) :
    ∃ c : Char, c.toNat = a.toNat % 16 * 4096 + b.toNat % 64 * 64 + d.toNat % 64 ∧
      String.utf8EncodeChar c = [a, b, d] := by
  unfold Trail at hb hd
  obtain ⟨c, hc⟩ :=
    exists_char (v := a.toNat % 16 * 4096 + b.toNat % 64 * 64 + d.toNat % 64) (by omega) hs
  refine ⟨c, hc, ?_⟩
  rw [encode_three (by omega) (by omega), ofNat_eq (b := a) (by omega),
    ofNat_eq (b := b) (by omega), ofNat_eq (b := d) (by omega)]

theorem exists_encode_four {a b d e : UInt8} (h : 0xF0 ≤ a.toNat) (h' : a.toNat < 0xF5)
    (hb : Trail b) (hd : Trail d) (he : Trail e)
    (hshort : 0x10000 ≤
      a.toNat % 8 * 262144 + b.toNat % 64 * 4096 + d.toNat % 64 * 64 + e.toNat % 64)
    (hmax : a.toNat % 8 * 262144 + b.toNat % 64 * 4096 + d.toNat % 64 * 64 + e.toNat % 64 ≤
      0x10FFFF) :
    ∃ c : Char, c.toNat =
        a.toNat % 8 * 262144 + b.toNat % 64 * 4096 + d.toNat % 64 * 64 + e.toNat % 64 ∧
      String.utf8EncodeChar c = [a, b, d, e] := by
  unfold Trail at hb hd he
  obtain ⟨c, hc⟩ := exists_char
    (v := a.toNat % 8 * 262144 + b.toNat % 64 * 4096 + d.toNat % 64 * 64 + e.toNat % 64)
    (by omega) (by omega)
  refine ⟨c, hc, ?_⟩
  rw [encode_four (by omega), ofNat_eq (b := a) (by omega), ofNat_eq (b := b) (by omega),
    ofNat_eq (b := d) (by omega), ofNat_eq (b := e) (by omega)]

/-! ## The well-formed sequences -/

/-- A sequence of bytes in one of the four ranges, in its shortest form and no surrogate, and
the code point it stands for. -/
inductive WellFormed : List UInt8 → ℕ → Prop
  | one {a : UInt8} (ha : a.toNat < 0x80) : WellFormed [a] a.toNat
  | two {a b : UInt8} (ha : 0xC2 ≤ a.toNat) (ha' : a.toNat < 0xE0) (hb : Trail b) :
      WellFormed [a, b] (a.toNat % 32 * 64 + b.toNat % 64)
  | three {a b d : UInt8} (ha : 0xE0 ≤ a.toNat) (ha' : a.toNat < 0xF0) (hb : Trail b)
      (hd : Trail d) (hshort : 0x800 ≤ a.toNat % 16 * 4096 + b.toNat % 64 * 64 + d.toNat % 64)
      (hs : a.toNat % 16 * 4096 + b.toNat % 64 * 64 + d.toNat % 64 < 0xD800 ∨
        0xDFFF < a.toNat % 16 * 4096 + b.toNat % 64 * 64 + d.toNat % 64) :
      WellFormed [a, b, d] (a.toNat % 16 * 4096 + b.toNat % 64 * 64 + d.toNat % 64)
  | four {a b d e : UInt8} (ha : 0xF0 ≤ a.toNat) (ha' : a.toNat < 0xF5) (hb : Trail b)
      (hd : Trail d) (he : Trail e)
      (hshort : 0x10000 ≤
        a.toNat % 8 * 262144 + b.toNat % 64 * 4096 + d.toNat % 64 * 64 + e.toNat % 64)
      (hmax : a.toNat % 8 * 262144 + b.toNat % 64 * 4096 + d.toNat % 64 * 64 + e.toNat % 64 ≤
        0x10FFFF) :
      WellFormed [a, b, d, e]
        (a.toNat % 8 * 262144 + b.toNat % 64 * 4096 + d.toNat % 64 * 64 + e.toNat % 64)

theorem WellFormed.exists_char {s : List UInt8} {v : ℕ} (h : WellFormed s v) :
    ∃ c : Char, c.toNat = v ∧ String.utf8EncodeChar c = s := by
  cases h with
  | one ha => exact exists_encode_one ha
  | two ha ha' hb => exact exists_encode_two ha ha' hb
  | three ha ha' hb hd hshort hs => exact exists_encode_three ha ha' hb hd hshort hs
  | four ha ha' hb hd he hshort hmax => exact exists_encode_four ha ha' hb hd he hshort hmax

theorem toNat_ofNat {n : ℕ} (h : n < 256) : (UInt8.ofNat n).toNat = n := by
  rw [UInt8.toNat_ofNat', Nat.mod_eq_of_lt h]

theorem trail_ofNat (n : ℕ) : Trail (UInt8.ofNat (n % 64 + 0x80)) := by
  unfold Trail
  rw [toNat_ofNat (by omega)]
  omega

theorem wellFormed_encode (c : Char) : WellFormed (String.utf8EncodeChar c) c.toNat := by
  obtain ⟨hmax, hs⟩ := toNat_valid c
  rcases Nat.lt_or_ge c.toNat 0x80 with h80 | h80
  · have ha : (UInt8.ofNat c.toNat).toNat = c.toNat := toNat_ofNat (by omega)
    have h := WellFormed.one (a := UInt8.ofNat c.toNat) (by omega)
    rw [ha] at h
    rwa [encode_one h80]
  rcases Nat.lt_or_ge c.toNat 0x800 with h800 | h800
  · have ha : (UInt8.ofNat (c.toNat / 64 % 32 + 0xC0)).toNat = c.toNat / 64 % 32 + 0xC0 :=
      toNat_ofNat (by omega)
    have hb : (UInt8.ofNat (c.toNat % 64 + 0x80)).toNat = c.toNat % 64 + 0x80 :=
      toNat_ofNat (by omega)
    have h := WellFormed.two (a := UInt8.ofNat (c.toNat / 64 % 32 + 0xC0)) (by omega) (by omega)
      (trail_ofNat c.toNat)
    rw [encode_two h80 h800]
    convert h using 1
    omega
  rcases Nat.lt_or_ge c.toNat 0x10000 with h10000 | h10000
  · have ha : (UInt8.ofNat (c.toNat / 4096 % 16 + 0xE0)).toNat = c.toNat / 4096 % 16 + 0xE0 :=
      toNat_ofNat (by omega)
    have hb : (UInt8.ofNat (c.toNat / 64 % 64 + 0x80)).toNat = c.toNat / 64 % 64 + 0x80 :=
      toNat_ofNat (by omega)
    have hd : (UInt8.ofNat (c.toNat % 64 + 0x80)).toNat = c.toNat % 64 + 0x80 :=
      toNat_ofNat (by omega)
    have h := WellFormed.three (a := UInt8.ofNat (c.toNat / 4096 % 16 + 0xE0)) (by omega)
      (by omega) (trail_ofNat (c.toNat / 64)) (trail_ofNat c.toNat) (by omega) (by omega)
    rw [encode_three h800 h10000]
    convert h using 1
    omega
  · have ha : (UInt8.ofNat (c.toNat / 262144 % 8 + 0xF0)).toNat = c.toNat / 262144 % 8 + 0xF0 :=
      toNat_ofNat (by omega)
    have hb : (UInt8.ofNat (c.toNat / 4096 % 64 + 0x80)).toNat = c.toNat / 4096 % 64 + 0x80 :=
      toNat_ofNat (by omega)
    have hd : (UInt8.ofNat (c.toNat / 64 % 64 + 0x80)).toNat = c.toNat / 64 % 64 + 0x80 :=
      toNat_ofNat (by omega)
    have he : (UInt8.ofNat (c.toNat % 64 + 0x80)).toNat = c.toNat % 64 + 0x80 :=
      toNat_ofNat (by omega)
    have h := WellFormed.four (a := UInt8.ofNat (c.toNat / 262144 % 8 + 0xF0)) (by omega)
      (by omega) (trail_ofNat (c.toNat / 4096)) (trail_ofNat (c.toNat / 64)) (trail_ofNat c.toNat)
      (by omega) (by omega)
    rw [encode_four h10000]
    convert h using 1
    omega

theorem decode_of_startsWith {c : Char} {rest : List UInt8} (h : String.utf8EncodeChar c <+: rest) :
    rest.toByteArray.utf8DecodeChar? 0 = some c := by
  obtain ⟨tail, rfl⟩ := h
  rw [List.toByteArray_append]
  exact ByteArray.utf8DecodeChar?_utf8EncodeChar_append

theorem prefix_unique {c d : Char} {rest : List UInt8} (hc : String.utf8EncodeChar c <+: rest)
    (hd : String.utf8EncodeChar d <+: rest) : c = d :=
  Option.some.inj ((decode_of_startsWith hc).symm.trans (decode_of_startsWith hd))

end PhpRuntime.Lib.Utf8
