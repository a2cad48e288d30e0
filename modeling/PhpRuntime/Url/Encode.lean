import Mathlib.Data.List.Basic
import PhpRuntime.Text.CInt

/-!
# URL encoding

The two pairs of functions of `ext/standard/url.c`. The decoders give back what either encoder
made, whatever follows it, and the encoders write nothing that separates the parts of a query.
-/

set_option autoImplicit false

namespace PhpRuntime.Url

open PhpRuntime.Text

/-! ## The code -/

/-- `isxdigit` -/
def isxdigit (c : UInt8) : Bool := isdigit c ∨ 65 ≤ c ∧ c ≤ 70 ∨ 97 ≤ c ∧ c ≤ 102

/-- One digit in `php_htoi`. -/
def htoiDigit (c : UInt8) : UInt8 :=
  let c := tolower c
  if 48 ≤ c ∧ c ≤ 57 then c - 48 else c - 97 + 10

/-- `php_htoi`, as a `char` -/
def phpHtoi (c d : UInt8) : UInt8 := htoiDigit c * 16 + htoiDigit d

/-- `"0123456789ABCDEF"[n]` -/
def hexchars (n : UInt8) : UInt8 := if n < 10 then n + 48 else n - 10 + 65

/-- The test of both encoders, of which one leaves the tilde as it is. -/
def escaped (tilde : Bool) (c : UInt8) : Bool :=
  (c < 48 ∧ c ≠ 45 ∧ c ≠ 46) ∨ (c < 65 ∧ c > 57) ∨ (c > 90 ∧ c < 97 ∧ c ≠ 95) ∨
    (c > 122 ∧ ¬ (tilde = true ∧ c = 126))

def encodeByte (plus tilde : Bool) (c : UInt8) : List UInt8 :=
  if plus = true ∧ c = 32 then [43]
  else if escaped tilde c = true then [37, hexchars (c >>> 4), hexchars (c &&& 15)]
  else [c]

/-- `php_url_encode` -/
def phpUrlEncode (s : List UInt8) : List UInt8 := s.flatMap (encodeByte true false)

/-- `php_raw_url_encode` -/
def phpRawUrlEncode (s : List UInt8) : List UInt8 := s.flatMap (encodeByte false true)

/-- A byte that the decoders copy, of which one takes a plus for a space. -/
def copied (plus : Bool) (c : UInt8) : UInt8 := if plus = true ∧ c = 43 then 32 else c

def decode (plus : Bool) : List UInt8 → List UInt8
  | c :: d :: e :: rest =>
    if c = 37 ∧ isxdigit d = true ∧ isxdigit e = true then phpHtoi d e :: decode plus rest
    else copied plus c :: decode plus (d :: e :: rest)
  | c :: rest => copied plus c :: decode plus rest
  | [] => []

/-- `php_url_decode` -/
def phpUrlDecode (s : List UInt8) : List UInt8 := decode true s

/-- `php_raw_url_decode` -/
def phpRawUrlDecode (s : List UInt8) : List UInt8 := decode false s

/-! ## Single bytes -/

theorem decode_cons {c : UInt8} (hc : c ≠ 37) (plus : Bool) (t : List UInt8) :
    decode plus (c :: t) = copied plus c :: decode plus t := by
  rcases t with _ | ⟨d, _ | ⟨e, t⟩⟩
  · rfl
  · rfl
  · exact if_neg fun h => hc h.1

theorem decode_percent {d e : UInt8} (h : isxdigit d = true ∧ isxdigit e = true) (plus : Bool)
    (t : List UInt8) : decode plus (37 :: d :: e :: t) = phpHtoi d e :: decode plus t :=
  if_pos ⟨rfl, h⟩

/-- The bytes that the encoders write: letters, digits, and `-._~+%`. -/
def isPlain (c : UInt8) : Bool :=
  isalnum c ∨ c = 45 ∨ c = 46 ∨ c = 95 ∨ c = 126 ∨ c = 43 ∨ c = 37

theorem phpHtoi_hexchars (c : UInt8) :
    (isxdigit (hexchars (c >>> 4)) = true ∧ isxdigit (hexchars (c &&& 15)) = true) ∧
      phpHtoi (hexchars (c >>> 4)) (hexchars (c &&& 15)) = c := by
  have h : ∀ n < 256, (isxdigit (hexchars (UInt8.ofNat n >>> 4)) = true ∧
      isxdigit (hexchars (UInt8.ofNat n &&& 15)) = true) ∧
      phpHtoi (hexchars (UInt8.ofNat n >>> 4)) (hexchars (UInt8.ofNat n &&& 15)) =
        UInt8.ofNat n := by
    decide +kernel
  have hc := h c.toNat c.toNat_lt
  rwa [UInt8.ofNat_toNat] at hc

theorem isPlain_of_isxdigit {c : UInt8} (h : isxdigit c = true) : isPlain c = true := by
  simp only [isPlain, isalnum, isxdigit, decide_eq_true_eq] at h ⊢
  refine Or.inl (h.imp_right (Or.imp (fun h => ⟨h.1, ?_⟩) fun h => ⟨h.1, ?_⟩))
  · exact UInt8.le_trans h.2 (by decide)
  · exact UInt8.le_trans h.2 (by decide)

theorem kept_byte {tilde : Bool} {c : UInt8} (h : ¬ escaped tilde c = true) :
    isPlain c = true ∧ c ≠ 37 ∧ c ≠ 43 := by
  have htable : ∀ n < 256, (escaped true (UInt8.ofNat n) = true →
      escaped false (UInt8.ofNat n) = true) ∧
      (escaped true (UInt8.ofNat n) = false → isPlain (UInt8.ofNat n) = true ∧
        UInt8.ofNat n ≠ 37 ∧ UInt8.ofNat n ≠ 43) := by
    decide +kernel
  have hc := htable c.toNat c.toNat_lt
  rw [UInt8.ofNat_toNat] at hc
  refine hc.2 (Bool.eq_false_iff.mpr fun htrue => h ?_)
  cases tilde with
  | true => exact htrue
  | false => exact hc.1 htrue

theorem encodeByte_kept {c : UInt8} (h : c = 45 ∨ 48 ≤ c ∧ c ≤ 57) (plus tilde : Bool) :
    encodeByte plus tilde c = [c] := by
  have htable : ∀ n < 256, UInt8.ofNat n = 45 ∨ 48 ≤ UInt8.ofNat n ∧ UInt8.ofNat n ≤ 57 →
      UInt8.ofNat n ≠ 32 ∧ escaped false (UInt8.ofNat n) = false ∧
        escaped true (UInt8.ofNat n) = false := by
    decide +kernel
  have hc := htable c.toNat c.toNat_lt
  rw [UInt8.ofNat_toNat] at hc
  obtain ⟨hspace, hfalse, htrue⟩ := hc h
  unfold encodeByte
  rw [if_neg fun hplus => hspace hplus.2, if_neg]
  cases tilde with
  | true => exact Bool.eq_false_iff.mp htrue
  | false => exact Bool.eq_false_iff.mp hfalse

theorem isPlain_encodeByte (plus tilde : Bool) (c : UInt8) :
    ∀ x ∈ encodeByte plus tilde c, isPlain x = true := by
  intro x hx
  unfold encodeByte at hx
  split at hx
  · rw [List.mem_singleton.mp hx]
    rfl
  · split at hx
    · obtain ⟨⟨hhigh, hlow⟩, -⟩ := phpHtoi_hexchars c
      rcases List.mem_cons.mp hx with rfl | hx
      · rfl
      · rcases List.mem_cons.mp hx with rfl | hx
        · exact isPlain_of_isxdigit hhigh
        · rw [List.mem_singleton.mp hx]
          exact isPlain_of_isxdigit hlow
    · next h =>
      rw [List.mem_singleton.mp hx]
      exact (kept_byte h).1

theorem decode_encodeByte {plus plus' : Bool} (hplus : plus = true → plus' = true) (tilde : Bool)
    (c : UInt8) (t : List UInt8) :
    decode plus' (encodeByte plus tilde c ++ t) = c :: decode plus' t := by
  unfold encodeByte
  split
  · next h =>
    have hne : (43 : UInt8) ≠ 37 := by decide
    rw [List.singleton_append, decode_cons hne, copied, if_pos ⟨hplus h.1, rfl⟩, h.2]
  · split
    · obtain ⟨hdigits, hvalue⟩ := phpHtoi_hexchars c
      rw [List.cons_append, List.cons_append, List.cons_append, List.nil_append,
        decode_percent hdigits, hvalue]
    · next h =>
      obtain ⟨-, hpercent, hne⟩ := kept_byte h
      rw [List.singleton_append, decode_cons hpercent, copied, if_neg fun h => hne h.2]

theorem decode_encode {plus plus' : Bool} (hplus : plus = true → plus' = true) (tilde : Bool)
    (s t : List UInt8) :
    decode plus' (s.flatMap (encodeByte plus tilde) ++ t) = s ++ decode plus' t := by
  induction s with
  | nil => rfl
  | cons c s ih =>
    rw [List.flatMap_cons, List.append_assoc, decode_encodeByte hplus, ih]
    rfl

theorem isPlain_encode {plus tilde : Bool} {s : List UInt8} :
    ∀ x ∈ s.flatMap (encodeByte plus tilde), isPlain x = true := by
  intro x hx
  obtain ⟨c, -, hxc⟩ := List.mem_flatMap.mp hx
  exact isPlain_encodeByte plus tilde c x hxc

/-! ## Strings -/

end PhpRuntime.Url
