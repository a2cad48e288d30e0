import PhpRuntime.Json.Parser

/-!
# The bytes of a string

`utf16_to_utf8` appends the encoding of the code points of the units: the three bytes it looks for
at the end of the buffer are there when the last code point is a high half, and only then.
-/

set_option autoImplicit false

namespace PhpRuntime.Json

open PhpRuntime.Lib.Utf16 (IsHigh IsLow join appendUnit encode encodePoint appendUnit_of_not
  appendUnit_concat)
open PhpRuntime.Lib.Utf8 (toNat_ofNat)
open PhpRuntime.Text (or_eq_add)

variable {cps : List ℕ} {buf : List UInt8} {a b c : UInt8} {u v h n : ℕ}

/-! ## Masks -/

theorem and_shifted (n k j : ℕ) : n &&& (2 ^ k - 1) * 2 ^ j = n / 2 ^ j % 2 ^ k * 2 ^ j := by
  apply Nat.eq_of_testBit_eq
  intro i
  rw [Nat.testBit_and, Nat.testBit_mul_two_pow, Nat.testBit_mul_two_pow,
    Nat.testBit_mod_two_pow, Nat.testBit_two_pow_sub_one, Nat.testBit_div_two_pow]
  by_cases h : j ≤ i
  · rw [Nat.sub_add_cancel h]
    cases n.testBit i <;> cases decide (i - j < k) <;> cases decide (j ≤ i) <;> rfl
  · rw [decide_eq_false h, Bool.false_and, Bool.false_and, Bool.and_false]

theorem and_0xf0 (hn : n < 256) : n &&& 0xf0 = n / 16 * 16 := by
  have hmask : n &&& 0xf0 = n / 16 % 16 * 16 := and_shifted n 4 4
  rw [hmask, Nat.mod_eq_of_lt (by omega)]

theorem and_0xc0 (hn : n < 256) : n &&& 0xc0 = n / 64 * 64 := by
  have hmask : n &&& 0xc0 = n / 64 % 4 * 64 := and_shifted n 2 6
  rw [hmask, Nat.mod_eq_of_lt (by omega)]

theorem and_0xfc00 (hn : n < 65536) : n &&& 0xfc00 = n / 1024 * 1024 := by
  have hmask : n &&& 0xfc00 = n / 1024 % 64 * 1024 := and_shifted n 6 10
  rw [hmask, Nat.mod_eq_of_lt (by omega)]

theorem trail_eq (n : ℕ) : 0x80 ||| n &&& 0x3f = n % 64 + 0x80 := by
  have hmask : n &&& 0x3f = n % 64 := Nat.and_two_pow_sub_one_eq_mod n 6
  have hor := @or_eq_add 2 (n % 64) 6 (Nat.mod_lt n (by decide))
  simp only [Nat.reducePow, Nat.reduceMul] at hor
  rw [hmask, hor, Nat.add_comm]

theorem lead_eq {m k : ℕ} (hn : n < 2 ^ k) : m * 2 ^ k ||| n = n + m * 2 ^ k := by
  rw [or_eq_add hn, Nat.add_comm]

theorem isLow_iff (hu : u < 65536) : u &&& 0xfc00 = 0xdc00 ↔ IsLow u := by
  rw [and_0xfc00 hu, IsLow]
  omega

/-! ## The end of the buffer -/

theorem fromEnd_append (tail : List UInt8) {k : ℕ} (hle : k ≤ tail.length) :
    fromEnd (buf ++ tail) k = fromEnd tail k := by
  have hlen : (buf ++ tail).length - k = buf.length + (tail.length - k) := by
    rw [List.length_append]
    omega
  rw [fromEnd, hlen, List.getD_eq_getElem?_getD, List.getElem?_append_right (Nat.le_add_right _ _),
    Nat.add_sub_cancel_left, ← List.getD_eq_getElem?_getD, fromEnd]

/-- The test of `utf16_to_utf8` for the three bytes of a high half. -/
def endsHigh (buf : List UInt8) : Prop :=
  3 ≤ buf.length ∧ fromEnd buf 3 = 0xed ∧ fromEnd buf 2 &&& 0xf0 = 0xa0 ∧
    fromEnd buf 1 &&& 0xc0 = 0x80

theorem endsHigh_three :
    endsHigh (buf ++ [a, b, c]) ↔
      a.toNat = 0xed ∧ b.toNat / 16 = 10 ∧ c.toNat / 64 = 2 := by
  have h1 := @fromEnd_append buf [a, b, c] 1 (by simp)
  have h2 := @fromEnd_append buf [a, b, c] 2 (by simp)
  have h3 := @fromEnd_append buf [a, b, c] 3 (by simp)
  have hlen : 3 ≤ (buf ++ [a, b, c]).length := by
    rw [List.length_append]
    exact Nat.le_add_left 3 _
  rw [endsHigh, h1, h2, h3]
  change _ ∧ a.toNat = 0xed ∧ b.toNat &&& 0xf0 = 0xa0 ∧ c.toNat &&& 0xc0 = 0x80 ↔ _
  rw [and_0xf0 b.toNat_lt, and_0xc0 c.toNat_lt]
  omega

theorem not_endsHigh_one (ha : a.toNat / 64 ≠ 2) : ¬ endsHigh (buf ++ [a]) := by
  rintro ⟨-, -, -, hlast⟩
  rw [fromEnd_append [a] (Nat.le_refl 1)] at hlast
  change a.toNat &&& 0xc0 = 0x80 at hlast
  rw [and_0xc0 a.toNat_lt] at hlast
  omega

theorem not_endsHigh_two (ha : a.toNat / 16 ≠ 10) : ¬ endsHigh (buf ++ [a, b]) := by
  rintro ⟨-, -, hlast, -⟩
  rw [fromEnd_append [a, b] (Nat.le_refl 2)] at hlast
  change a.toNat &&& 0xf0 = 0xa0 at hlast
  rw [and_0xf0 a.toNat_lt] at hlast
  omega

theorem encode_concat (cps : List ℕ) (v : ℕ) :
    encode (cps ++ [v]) = encode cps ++ encodePoint v := by
  rw [encode, encode, List.flatMap_append, List.flatMap_singleton]

theorem endsHigh_encode_iff (hcps : ∀ v ∈ cps, v < 0x110000) :
    endsHigh (encode cps) ↔ ∃ h, cps.getLast? = some h ∧ IsHigh h := by
  rcases List.eq_nil_or_concat cps with rfl | ⟨cps, v, rfl⟩
  · constructor
    · rintro ⟨hlen, -⟩
      exact absurd hlen (by decide)
    · rintro ⟨h, hlast, -⟩
      cases hlast
  rw [List.concat_eq_append] at *
  have hv : v < 0x110000 := hcps v (List.mem_append_right _ List.mem_cons_self)
  have hright : (∃ h, (cps ++ [v]).getLast? = some h ∧ IsHigh h) ↔ IsHigh v := by
    rw [List.getLast?_concat]
    constructor
    · rintro ⟨h, hlast, hhigh⟩
      cases hlast
      exact hhigh
    · exact fun hhigh => ⟨v, rfl, hhigh⟩
  rw [hright, encode_concat, encodePoint, IsHigh]
  split
  · have hbyte : (UInt8.ofNat v).toNat = v := toNat_ofNat (by omega)
    refine iff_of_false (not_endsHigh_one (by omega)) (by omega)
  split
  · have hbyte : (UInt8.ofNat (v / 64 % 32 + 0xC0)).toNat = v / 64 % 32 + 0xC0 :=
      toNat_ofNat (by omega)
    refine iff_of_false (not_endsHigh_two (by omega)) (by omega)
  split
  · have h1 : (UInt8.ofNat (v / 4096 % 16 + 0xE0)).toNat = v / 4096 % 16 + 0xE0 :=
      toNat_ofNat (by omega)
    have h2 : (UInt8.ofNat (v / 64 % 64 + 0x80)).toNat = v / 64 % 64 + 0x80 :=
      toNat_ofNat (by omega)
    have h3 : (UInt8.ofNat (v % 64 + 0x80)).toNat = v % 64 + 0x80 := toNat_ofNat (by omega)
    rw [endsHigh_three, h1, h2, h3]
    omega
  · have h1 : (UInt8.ofNat (v / 4096 % 64 + 0x80)).toNat = v / 4096 % 64 + 0x80 :=
      toNat_ofNat (by omega)
    rw [List.append_cons, endsHigh_three, h1]
    omega

/-! ## What is appended -/

theorem utf16ToUtf8_of_not (hu : u < 65536) (hnot : IsLow u → ¬ endsHigh buf) :
    utf16ToUtf8 buf u = buf ++ encodePoint u := by
  rw [utf16ToUtf8, encodePoint]
  split
  · rfl
  split
  · have hfirst : 0xc0 ||| u >>> 6 = u / 64 % 32 + 0xC0 := by
      rw [Nat.shiftRight_eq_div_pow]
      have hor := @lead_eq (u / 2 ^ 6) 3 6 (by omega)
      simp only [Nat.reducePow, Nat.reduceMul] at hor ⊢
      omega
    rw [hfirst, trail_eq]
  · have hlow : ¬ (u &&& 0xfc00 = 0xdc00 ∧ 3 ≤ buf.length ∧ fromEnd buf 3 = 0xed ∧
        fromEnd buf 2 &&& 0xf0 = 0xa0 ∧ fromEnd buf 1 &&& 0xc0 = 0x80) :=
      fun hpair => hnot ((isLow_iff hu).mp hpair.1) hpair.2
    have hfirst : 0xe0 ||| u >>> 12 = u / 4096 % 16 + 0xE0 := by
      rw [Nat.shiftRight_eq_div_pow]
      have hor := @lead_eq (u / 2 ^ 12) 14 4 (by omega)
      simp only [Nat.reducePow, Nat.reduceMul] at hor ⊢
      omega
    rw [if_neg hlow, hfirst, trail_eq, trail_eq, Nat.shiftRight_eq_div_pow]

theorem utf16ToUtf8_pair (hh : IsHigh h) (hu : IsLow u) :
    utf16ToUtf8 (buf ++ encodePoint h) u = buf ++ encodePoint (join h u) := by
  have hh' : 0xD800 ≤ h ∧ h ≤ 0xDBFF := hh
  have hu' : 0xDC00 ≤ u ∧ u ≤ 0xDFFF := hu
  have hbytes : encodePoint h = [UInt8.ofNat (h / 4096 % 16 + 0xE0),
      UInt8.ofNat (h / 64 % 64 + 0x80), UInt8.ofNat (h % 64 + 0x80)] := by
    rw [encodePoint, if_neg (by omega), if_neg (by omega), if_pos (by omega)]
  have h1 : (UInt8.ofNat (h / 4096 % 16 + 0xE0)).toNat = h / 4096 % 16 + 0xE0 :=
    toNat_ofNat (by omega)
  have h2 : (UInt8.ofNat (h / 64 % 64 + 0x80)).toNat = h / 64 % 64 + 0x80 := toNat_ofNat (by omega)
  have h3 : (UInt8.ofNat (h % 64 + 0x80)).toNat = h % 64 + 0x80 := toNat_ofNat (by omega)
  rw [hbytes]
  generalize UInt8.ofNat (h / 4096 % 16 + 0xE0) = a at h1
  generalize UInt8.ofNat (h / 64 % 64 + 0x80) = b at h2
  generalize UInt8.ofNat (h % 64 + 0x80) = c at h3
  have hends : endsHigh (buf ++ [a, b, c]) := endsHigh_three.mpr (by omega)
  have hsecond : fromEnd (buf ++ [a, b, c]) 2 = b.toNat :=
    fromEnd_append [a, b, c] (by simp)
  have hthird : fromEnd (buf ++ [a, b, c]) 1 = c.toNat :=
    fromEnd_append [a, b, c] (by simp)
  have htake : (buf ++ [a, b, c]).take ((buf ++ [a, b, c]).length - 3) = buf :=
    List.take_left' (by rw [List.length_append]; rfl)
  -- the ten bits of each half
  have hjoin : ((b.toNat &&& 0xf) <<< 16 ||| (c.toNat &&& 0x3f) <<< 10 ||| u &&& 0x3ff) + 0x10000 =
      join h u := by
    have hb : b.toNat &&& 0xf = h / 64 % 16 := by
      rw [show b.toNat &&& 0xf = b.toNat % 16 from Nat.and_two_pow_sub_one_eq_mod _ 4]
      omega
    have hc : c.toNat &&& 0x3f = h % 64 := by
      rw [show c.toNat &&& 0x3f = c.toNat % 64 from Nat.and_two_pow_sub_one_eq_mod _ 6]
      omega
    have hlow : u &&& 0x3ff = u % 1024 := Nat.and_two_pow_sub_one_eq_mod u 10
    have hhigh : (h / 64 % 16) <<< 16 ||| (h % 64) <<< 10 =
        (h / 64 % 16 * 64 + h % 64) * 2 ^ 10 := by
      rw [Nat.shiftLeft_eq, Nat.shiftLeft_eq, or_eq_add (by omega)]
      omega
    rw [hb, hc, hlow, hhigh, or_eq_add (by omega), join]
    omega
  have hrange : 0x10000 ≤ join h u ∧ join h u < 0x110000 := by
    rw [join]
    omega
  rw [utf16ToUtf8, if_neg (by omega), if_neg (by omega),
    if_pos ⟨(isLow_iff (by omega)).mpr hu, hends⟩, hsecond, hthird, htake, hjoin]
  generalize join h u = v at hrange
  have hfirst : 0xf0 ||| v >>> 18 = v / 262144 % 8 + 0xF0 := by
    rw [Nat.shiftRight_eq_div_pow]
    have hor := @lead_eq (v / 2 ^ 18) 30 3 (by omega)
    simp only [Nat.reducePow, Nat.reduceMul] at hor ⊢
    omega
  rw [encodePoint, if_neg (by omega), if_neg (by omega), if_neg (by omega)]
  dsimp only
  rw [hfirst, trail_eq, trail_eq, trail_eq, Nat.shiftRight_eq_div_pow, Nat.shiftRight_eq_div_pow]

/-- `utf16_to_utf8` on the bytes of code points. -/
theorem utf16ToUtf8_encode (hcps : ∀ v ∈ cps, v < 0x110000) (hu : u < 65536) :
    utf16ToUtf8 (encode cps) u = encode (appendUnit cps u) := by
  by_cases hpair : IsLow u ∧ ∃ h, cps.getLast? = some h ∧ IsHigh h
  · obtain ⟨hlow, h, hlast, hhigh⟩ := hpair
    obtain ⟨start, rfl⟩ := List.getLast?_eq_some_iff.mp hlast
    rw [appendUnit_concat hhigh hlow, encode_concat, encode_concat, utf16ToUtf8_pair hhigh hlow]
  · have hnot : ∀ h, cps.getLast? = some h → IsHigh h → ¬ IsLow u :=
      fun h hlast hhigh hlow => hpair ⟨hlow, h, hlast, hhigh⟩
    rw [appendUnit_of_not hnot, encode_concat, utf16ToUtf8_of_not hu]
    exact fun hlow hends => hpair ⟨hlow, (endsHigh_encode_iff hcps).mp hends⟩

end PhpRuntime.Json
