import Mathlib.Data.Nat.Digits.Lemmas

/-!
# Positional numerals

The numeral of a number in base `b`, most significant digit first, and the value of a list
of digits. A list of digits is canonical when no digit reaches the base and only the
numeral of zero begins with a zero; canonical lists and numbers correspond one to one.
-/

set_option autoImplicit false

namespace PhpRuntime.Lib.Positional

variable {b n : ℕ} {l : List ℕ}

/-- The value of a list of digits, most significant digit first. -/
def value (b : ℕ) (l : List ℕ) : ℕ := l.foldl (fun v d => v * b + d) 0

def numeral (b n : ℕ) : List ℕ := if n = 0 then [0] else (Nat.digits b n).reverse

/-- No digit reaches the base, and no numeral but that of zero begins with a zero. -/
structure Canonical (b : ℕ) (l : List ℕ) : Prop where
  lt : ∀ d ∈ l, d < b
  ne : l ≠ []
  lead : l.head? = some 0 → l = [0]

theorem le_foldl (hb : 1 ≤ b) (l : List ℕ) (v : ℕ) : v ≤ l.foldl (fun v d => v * b + d) v := by
  induction l generalizing v with
  | nil => exact le_rfl
  | cons n l ih =>
    have hmul : v * 1 ≤ v * b := Nat.mul_le_mul_left v hb
    rw [List.foldl_cons]
    exact le_trans (by omega) (ih (v * b + n))

theorem mul_pow_le_foldl (b : ℕ) (l : List ℕ) (v : ℕ) :
    v * b ^ l.length ≤ l.foldl (fun v d => v * b + d) v := by
  induction l generalizing v with
  | nil => simp
  | cons n l ih =>
    have hmul : v * b * b ^ l.length ≤ (v * b + n) * b ^ l.length :=
      Nat.mul_le_mul_right _ (Nat.le_add_right _ _)
    rw [List.length_cons, pow_succ', List.foldl_cons, ← mul_assoc]
    exact hmul.trans (ih (v * b + n))

theorem value_eq_ofDigits (b : ℕ) (l : List ℕ) : value b l = Nat.ofDigits b l.reverse := by
  rw [value, Nat.ofDigits_eq_foldr, List.foldr_reverse]
  congr 1
  funext v d
  simp only [Nat.cast_id]
  ring

theorem value_numeral (b n : ℕ) : value b (numeral b n) = n := by
  unfold numeral
  split
  · rename_i h0
    simp [value, h0]
  · rw [value_eq_ofDigits, List.reverse_reverse, Nat.ofDigits_digits]

theorem value_lt (hb : 1 < b) (hl : ∀ d ∈ l, d < b) : value b l < b ^ l.length := by
  rw [value_eq_ofDigits, ← List.length_reverse]
  exact Nat.ofDigits_lt_base_pow_length hb fun d hd => hl d (List.mem_reverse.mp hd)

theorem value_append (b : ℕ) (l l' : List ℕ) :
    value b (l ++ l') = value b l * b ^ l'.length + value b l' := by
  rw [value_eq_ofDigits, List.reverse_append, Nat.ofDigits_append, List.length_reverse,
    ← value_eq_ofDigits, ← value_eq_ofDigits, Nat.add_comm, Nat.mul_comm]

theorem eq_of_value_eq {l' : List ℕ} (hb : 1 < b) (hlen : l.length = l'.length)
    (hl : ∀ d ∈ l, d < b) (hl' : ∀ d ∈ l', d < b) (h : value b l = value b l') : l = l' := by
  rw [value_eq_ofDigits, value_eq_ofDigits] at h
  refine List.reverse_injective (Nat.ofDigits_inj_of_len_eq hb ?_ ?_ ?_ h)
  · rw [List.length_reverse, List.length_reverse, hlen]
  · exact fun d hd => hl d (List.mem_reverse.mp hd)
  · exact fun d hd => hl' d (List.mem_reverse.mp hd)

theorem value_div_pow (hb : 1 < b) (l l' : List ℕ) (hl' : ∀ d ∈ l', d < b) :
    value b (l ++ l') / b ^ l'.length = value b l := by
  have hpos : 0 < b ^ l'.length := Nat.pow_pos (by omega)
  rw [value_append, Nat.mul_comm, Nat.mul_add_div hpos, Nat.div_eq_of_lt (value_lt hb hl'),
    Nat.add_zero]

theorem canonical_numeral (hb : 1 < b) (n : ℕ) : Canonical b (numeral b n) := by
  unfold numeral
  split
  · exact ⟨fun d hd => by rw [List.mem_singleton.mp hd]; omega, by simp, fun _ => rfl⟩
  · rename_i h0
    have hne : Nat.digits b n ≠ [] := fun h => h0 (Nat.digits_eq_nil_iff_eq_zero.mp h)
    refine ⟨fun d hd => Nat.digits_lt_base hb (List.mem_reverse.mp hd), by simpa using hne, ?_⟩
    rw [List.head?_reverse, List.getLast?_eq_some_getLast hne]
    intro hz
    exact absurd (Option.some.inj hz) (Nat.getLast_digit_ne_zero b h0)

theorem Canonical.numeral_value (hb : 1 < b) (h : Canonical b l) : numeral b (value b l) = l := by
  by_cases hz : l.head? = some 0
  · simp [h.lead hz, value, numeral]
  · have hdigits : Nat.digits b (value b l) = l.reverse := by
      rw [value_eq_ofDigits]
      refine Nat.digits_ofDigits b hb _ (fun d hd => h.lt d (List.mem_reverse.mp hd)) ?_
      intro hne hlast
      rw [List.getLast_reverse] at hlast
      exact hz (by rw [List.head?_eq_some_head h.ne, hlast])
    have hpos : value b l ≠ 0 := by
      intro h0
      rw [h0, Nat.digits_zero] at hdigits
      exact h.ne (by simpa using hdigits.symm)
    rw [numeral, if_neg hpos, hdigits, List.reverse_reverse]

theorem numeral_of_lt (hn : n < b) : numeral b n = [n] := by
  unfold numeral
  split
  · next h0 => rw [h0]
  · next h0 => rw [Nat.digits_of_lt b n h0 hn, List.reverse_singleton]

theorem numeral_of_le (hb : 1 < b) (hn : b ≤ n) : numeral b n = numeral b (n / b) ++ [n % b] := by
  have hquot : n / b ≠ 0 := (Nat.div_pos hn (by omega)).ne'
  rw [numeral, if_neg (by omega), numeral, if_neg hquot, Nat.digits_def' hb (by omega),
    List.reverse_cons]

theorem value_replicate_zero (b n : ℕ) (l : List ℕ) :
    value b (List.replicate n 0 ++ l) = value b l := by
  induction n with
  | zero => rfl
  | succ n ih => simpa [value, List.replicate_succ] using ih

theorem numeral_injective (b : ℕ) : Function.Injective (numeral b) := fun m n h => by
  rw [← value_numeral b m, h, value_numeral]

theorem length_numeral_le {k : ℕ} (hb : 1 < b) (hk : 0 < k) (hn : n < b ^ k) :
    (numeral b n).length ≤ k := by
  unfold numeral
  split
  · exact hk
  · rw [List.length_reverse]
    exact (Nat.digits_length_le_iff hb n).mpr hn

end PhpRuntime.Lib.Positional
