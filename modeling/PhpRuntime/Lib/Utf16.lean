import Mathlib.Data.List.Basic
import PhpRuntime.Lib.Utf8

/-!
# Code units of UTF-16

The code points that a sequence of code units denotes, read from the left and built unit by
unit, and their encoding, which is UTF-8 when no half of a pair stands alone.
-/

set_option autoImplicit false

namespace PhpRuntime.Lib.Utf16

open PhpRuntime.Lib.Utf8 (WellFormed wellFormed_encode encode_one encode_two encode_three
  encode_four prefix_unique exists_char)

def IsHigh (u : ℕ) : Prop := 0xD800 ≤ u ∧ u ≤ 0xDBFF

def IsLow (u : ℕ) : Prop := 0xDC00 ≤ u ∧ u ≤ 0xDFFF

instance (u : ℕ) : Decidable (IsHigh u) := by unfold IsHigh; infer_instance

instance (u : ℕ) : Decidable (IsLow u) := by unfold IsLow; infer_instance

def join (h l : ℕ) : ℕ := (h - 0xD800) * 1024 + (l - 0xDC00) + 0x10000

/-- The code points of a sequence of units. A half that stands alone is its own code point. -/
def codePoints : List ℕ → List ℕ
  | [] => []
  | [u] => [u]
  | u :: v :: rest =>
    if IsHigh u ∧ IsLow v then join u v :: codePoints rest else u :: codePoints (v :: rest)

def Paired (units : List ℕ) : Prop := ∀ v ∈ codePoints units, v < 0xD800 ∨ 0xDFFF < v

instance (units : List ℕ) : Decidable (Paired units) := by unfold Paired; infer_instance

def units (c : Char) : List UInt16 :=
  if c.toNat < 0x10000 then [UInt16.ofNat c.toNat]
  else
    [UInt16.ofNat (0xD800 + (c.toNat - 0x10000) / 1024),
      UInt16.ofNat (0xDC00 + (c.toNat - 0x10000) % 1024)]

/-! ## Unit by unit -/

/-- A low half behind a high half makes a pair of the two. -/
def appendUnit (cps : List ℕ) (u : ℕ) : List ℕ :=
  match cps.getLast? with
  | none => [u]
  | some h => if IsHigh h ∧ IsLow u then cps.dropLast ++ [join h u] else cps ++ [u]

variable {cps units : List ℕ} {u h l v : ℕ}

theorem appendUnit_of_not (hu : ∀ a, cps.getLast? = some a → IsHigh a → ¬ IsLow u) :
    appendUnit cps u = cps ++ [u] := by
  rw [appendUnit]
  cases hlast : cps.getLast? with
  | none =>
    rw [List.getLast?_eq_none_iff.mp hlast]
    rfl
  | some a => exact if_neg fun hpair => hu a hlast hpair.1 hpair.2

theorem appendUnit_concat (hh : IsHigh h) (hl : IsLow l) :
    appendUnit (cps ++ [h]) l = cps ++ [join h l] := by
  rw [appendUnit, List.getLast?_concat]
  dsimp only
  rw [if_pos ⟨hh, hl⟩, List.dropLast_concat]

theorem not_isHigh_join (h l : ℕ) : ¬ IsHigh (join h l) := by
  unfold IsHigh join
  omega

theorem foldl_appendUnit_append (hcps : ∀ a, cps.getLast? = some a → IsHigh a →
    ∀ b, units.head? = some b → ¬ IsLow b) :
    units.foldl appendUnit cps = cps ++ codePoints units := by
  fun_induction codePoints units generalizing cps with
  | case1 => exact (List.append_nil cps).symm
  | case2 u => exact appendUnit_of_not fun a ha hhigh => hcps a ha hhigh u rfl
  | case3 u v rest hpair ih =>
    have hnext : ∀ a, (cps ++ [join u v]).getLast? = some a → IsHigh a →
        ∀ b, rest.head? = some b → ¬ IsLow b := by
      intro a ha hhigh
      rw [List.getLast?_concat] at ha
      cases ha
      exact absurd hhigh (not_isHigh_join u v)
    rw [List.foldl_cons, List.foldl_cons,
      appendUnit_of_not fun a ha hhigh => hcps a ha hhigh u rfl,
      appendUnit_concat hpair.1 hpair.2, ih hnext, List.append_assoc]
    rfl
  | case4 u v rest hpair ih =>
    have hnext : ∀ a, (cps ++ [u]).getLast? = some a → IsHigh a →
        ∀ b, (v :: rest).head? = some b → ¬ IsLow b := by
      intro a ha hhigh b hb hlow
      rw [List.getLast?_concat] at ha
      cases ha
      cases hb
      exact hpair ⟨hhigh, hlow⟩
    rw [List.foldl_cons, appendUnit_of_not fun a ha hhigh => hcps a ha hhigh u rfl, ih hnext,
      List.append_assoc]
    rfl

theorem foldl_appendUnit (units : List ℕ) : units.foldl appendUnit [] = codePoints units :=
  foldl_appendUnit_append fun _ h => by cases h

theorem appendUnit_lt (hcps : ∀ v ∈ cps, v < 0x110000) (hu : u < 0x10000) :
    ∀ v ∈ appendUnit cps u, v < 0x110000 := by
  intro v hv
  rw [appendUnit] at hv
  split at hv
  · rw [List.mem_singleton] at hv
    omega
  · next h hlast =>
    split at hv
    · next hpair =>
      rcases List.mem_append.mp hv with hv | hv
      · exact hcps v (List.dropLast_subset _ hv)
      · rw [List.mem_singleton] at hv
        have hhigh := hpair.1
        have hlow := hpair.2
        unfold IsHigh at hhigh
        unfold IsLow at hlow
        rw [hv, join]
        omega
    · rcases List.mem_append.mp hv with hv | hv
      · exact hcps v hv
      · rw [List.mem_singleton] at hv
        omega

/-! ## The encoding -/

/-- The bytes of a code point, of a surrogate too. -/
def encodePoint (v : ℕ) : List UInt8 :=
  if v < 0x80 then [UInt8.ofNat v]
  else if v < 0x800 then [UInt8.ofNat (v / 64 % 32 + 0xC0), UInt8.ofNat (v % 64 + 0x80)]
  else if v < 0x10000 then
    [UInt8.ofNat (v / 4096 % 16 + 0xE0), UInt8.ofNat (v / 64 % 64 + 0x80),
      UInt8.ofNat (v % 64 + 0x80)]
  else
    [UInt8.ofNat (v / 262144 % 8 + 0xF0), UInt8.ofNat (v / 4096 % 64 + 0x80),
      UInt8.ofNat (v / 64 % 64 + 0x80), UInt8.ofNat (v % 64 + 0x80)]

def encode (cps : List ℕ) : List UInt8 := cps.flatMap encodePoint

/-- The bytes are the UTF-8 encoding of some characters. -/
def IsUtf8 (bytes : List UInt8) : Prop :=
  ∃ chars : List Char, bytes = chars.flatMap String.utf8EncodeChar

theorem encodePoint_char (c : Char) : encodePoint c.toNat = String.utf8EncodeChar c := by
  rw [encodePoint]
  split
  · next h => exact (encode_one h).symm
  split
  · next h h' => exact (encode_two (Nat.le_of_not_lt h) h').symm
  split
  · next h h' => exact (encode_three (Nat.le_of_not_lt h) h').symm
  · next h => exact (encode_four (Nat.le_of_not_lt h)).symm

theorem not_prefix_surrogate (hv : 0xD800 ≤ v ∧ v ≤ 0xDFFF) (c : Char) (tail : List UInt8) :
    ¬ String.utf8EncodeChar c <+: encodePoint v ++ tail := by
  have hbytes : encodePoint v = [0xED, UInt8.ofNat (v / 64 % 64 + 0x80),
      UInt8.ofNat (v % 64 + 0x80)] := by
    have hlead : v / 4096 % 16 + 0xE0 = 0xED := by omega
    rw [encodePoint, if_neg (by omega), if_neg (by omega), if_pos (by omega), hlead]
    rfl
  have hsecond : (UInt8.ofNat (v / 64 % 64 + 0x80)).toNat = v / 64 % 64 + 0x80 :=
    Lib.Utf8.toNat_ofNat (by omega)
  have hwf := wellFormed_encode c
  rw [hbytes]
  revert hwf
  generalize String.utf8EncodeChar c = s
  generalize c.toNat = w
  rintro hwf ⟨rest, hrest⟩
  cases hwf with
  | one ha =>
    injection hrest with ha' _
    rw [ha'] at ha
    exact absurd ha (by decide)
  | two _ ha =>
    injection hrest with ha' _
    rw [ha'] at ha
    exact absurd ha (by decide)
  | @three a b d _ _ _ hd _ hs =>
    injection hrest with ha' hrest
    injection hrest with hb' _
    have ha : a.toNat = 0xED := congrArg UInt8.toNat ha'
    have hb : b.toNat = v / 64 % 64 + 0x80 := (congrArg UInt8.toNat hb').trans hsecond
    omega
  | four ha =>
    injection hrest with ha' _
    rw [ha'] at ha
    exact absurd ha (by decide)

theorem isUtf8_encode_iff (hcps : ∀ v ∈ cps, v < 0x110000) :
    IsUtf8 (encode cps) ↔ ∀ v ∈ cps, v < 0xD800 ∨ 0xDFFF < v := by
  induction cps with
  | nil => exact ⟨fun _ v hv => absurd hv List.not_mem_nil, fun _ => ⟨[], rfl⟩⟩
  | cons v cps ih =>
    have ih := ih fun w hw => hcps w (List.mem_cons_of_mem v hw)
    constructor
    · rintro ⟨chars, hchars⟩
      have hscalar : v < 0xD800 ∨ 0xDFFF < v := by
        by_contra hsurrogate
        cases chars with
        | nil =>
          have hnil : encodePoint v ++ encode cps = [] := hchars
          have hbegin := congrArg List.length hnil
          rw [List.length_append, encodePoint, if_neg (by omega), if_neg (by omega),
            if_pos (by omega)] at hbegin
          simp only [List.length_cons, List.length_nil] at hbegin
          omega
        | cons c chars =>
          apply not_prefix_surrogate (v := v) (by omega) c (encode cps)
          exact ⟨chars.flatMap String.utf8EncodeChar, hchars.symm⟩
      obtain ⟨c, rfl⟩ := exists_char (hcps v List.mem_cons_self) hscalar
      have hcps' : encode (c.toNat :: cps) = String.utf8EncodeChar c ++ encode cps := by
        rw [encode, List.flatMap_cons, encodePoint_char]
        rfl
      rw [hcps'] at hchars
      have hrest : IsUtf8 (encode cps) := by
        cases chars with
        | nil =>
          exact absurd (List.append_eq_nil_iff.mp hchars).1 String.utf8EncodeChar_ne_nil
        | cons d chars =>
          have heq : d = c := @prefix_unique d c (encode (c.toNat :: cps))
            ⟨_, (hcps'.trans hchars).symm⟩ ⟨_, hcps'.symm⟩
          subst heq
          exact ⟨chars, List.append_cancel_left hchars⟩
      intro w hw
      rcases List.mem_cons.mp hw with rfl | hw
      · exact hscalar
      · exact ih.mp hrest w hw
    · intro hall
      obtain ⟨c, rfl⟩ := exists_char (hcps v List.mem_cons_self) (hall v List.mem_cons_self)
      obtain ⟨chars, hchars⟩ := ih.mpr fun w hw => hall w (List.mem_cons_of_mem _ hw)
      refine ⟨c :: chars, ?_⟩
      rw [List.flatMap_cons, ← hchars, ← encodePoint_char]
      rfl

end PhpRuntime.Lib.Utf16
