import PhpRuntime.Text.Base64

/-!
# Strict decoding

Which bytes make the strict decoder return `NULL`. It stops reading at a `NUL`, and behind the last
padding character it looks at no more than one byte, which is not the next one.
-/

set_option autoImplicit false

namespace PhpRuntime.Text

open PhpRuntime.Lib.Base64

/-- A byte that is not in the alphabet, no padding character and no marked white space. -/
def Foreign (c : UInt8) : Prop := sextet c = none ∧ c ≠ pad ∧ ¬ Blank c

instance (c : UInt8) : Decidable (Foreign c) :=
  inferInstanceAs (Decidable (sextet c = none ∧ c ≠ pad ∧ ¬ Blank c))

/-- The text begins with a foreign byte or with a padding character that no other one follows. -/
def StopsHere : List UInt8 → Prop
  | [] => False
  | c :: t => Foreign c ∨ c = pad ∧ t.headD 0 ≠ pad

instance : DecidablePred StopsHere := fun s =>
  match s with
  | [] => inferInstanceAs (Decidable False)
  | c :: t => inferInstanceAs (Decidable (Foreign c ∨ c = pad ∧ t.headD 0 ≠ pad))

def fromStop : List UInt8 → List UInt8
  | [] => []
  | c :: t => if StopsHere (c :: t) then c :: t else fromStop t

def symbolsBefore : List UInt8 → ℕ
  | [] => 0
  | c :: t => if StopsHere (c :: t) then 0 else symbolsBefore t + if sextet c = none then 0 else 1

/-- That byte is foreign and no `NUL`, or it is a padding character behind a number of symbols that
leaves the remainder 1 when divided by 4, or one with a byte other than a `NUL` behind the byte that
follows it and behind white space. -/
def RejectedAt (n : ℕ) : List UInt8 → Prop
  | [] => False
  | c :: t => if c = pad then n % 4 = 1 ∨ ((t.drop 1).dropWhile isspace).headD 0 ≠ 0 else c ≠ 0

def Rejected (s : List UInt8) : Prop := RejectedAt (symbolsBefore s) (fromStop s)

variable {s t : List UInt8} {c : UInt8} {d : Decoding}

theorem stopsHere_cons : StopsHere (c :: t) ↔ Foreign c ∨ c = pad ∧ t.headD 0 ≠ pad := Iff.rfl

theorem foreign_zero : Foreign 0 := by decide

/-- **The loop of the strict decoder.** -/
theorem loop_strict (s : List UInt8) (d : Decoding) :
    base64DecodeLoop true s s.length d = none ↔
      RejectedAt (d.i + symbolsBefore s) (fromStop s) := by
  induction s generalizing d with
  | nil =>
    rw [loop_nil]
    exact iff_of_false (Option.some_ne_none _) not_false
  | cons c t ih =>
    have hlen : (0 : ℤ) < ((c :: t).length : ℤ) := by
      rw [List.length_cons]
      omega
    have hrest : ((c :: t).length : ℤ) - 1 = t.length := by
      rw [List.length_cons]
      omega
    rw [fromStop, symbolsBefore]
    by_cases hstop : StopsHere (c :: t)
    · rw [if_pos hstop, if_pos hstop, Nat.add_zero, RejectedAt]
      rcases stopsHere_cons.mp hstop with hc | ⟨rfl, hne⟩
      · rw [if_neg hc.2.1]
        by_cases h0 : c = 0
        · rw [base64DecodeLoop, if_pos h0]
          exact iff_of_false (Option.some_ne_none _) fun hno => hno h0
        · exact iff_of_true (loop_reject hc.1 h0 hc.2.1 rfl hc.2.2 hlen) h0
      · rw [if_pos rfl]
        cases t with
        | nil =>
          -- the last byte of the text
          by_cases hi : d.i % 4 = 1
          · refine iff_of_true ?_ (Or.inl hi)
            rw [base64DecodeLoop, if_neg pad_ne_zero, if_neg (Int.not_le.mpr hlen), if_pos rfl,
              if_pos ⟨hne, Or.inl hi⟩, if_neg (not_not.mpr hi)]
          · rw [loop_pad hlen (Or.inr ⟨hi, Or.inr rfl⟩), loop_nil]
            exact iff_of_false (Option.some_ne_none _) (not_or.mpr ⟨hi, fun hno => hno rfl⟩)
        | cons c' t =>
          have hlong : (1 : ℤ) < ((pad :: c' :: t).length : ℤ) := by
            rw [List.length_cons, List.length_cons]
            omega
          rw [loop_pad_strict hlong hne]
          split_ifs with h
          · exact iff_of_false not_false (not_or.mpr ⟨h.1, not_not.mpr h.2⟩)
          · refine iff_of_true rfl ?_
            by_contra hno
            exact h ⟨fun hi => hno (Or.inl hi), not_not.mp fun hne => hno (Or.inr hne)⟩
    · rw [if_neg hstop, if_neg hstop]
      rw [stopsHere_cons, not_or] at hstop
      cases hc : sextet c with
      | some n =>
        rw [loop_sextet hc hlen, hrest, ih, put_i, if_neg (Option.some_ne_none n), Nat.add_right_comm, Nat.add_assoc]
      | none =>
        rw [if_pos rfl, Nat.add_zero]
        by_cases hp : c = pad
        · subst hp
          have hnext : t.headD 0 = pad := not_not.mp fun hne => hstop.2 ⟨rfl, hne⟩
          rw [loop_pad hlen (Or.inl hnext), hrest, ih]
        · have hblank : Blank c := not_not.mp fun hb => hstop.1 ⟨hc, hp, hb⟩
          have h0 : c ≠ 0 := by
            rintro rfl
            exact hstop.1 foreign_zero
          rw [loop_skip hc h0 hp (Or.inr hblank) hlen, hrest, ih]

theorem base64DecodeEx_strict (s : List UInt8) :
    base64DecodeEx s s.length true = .ok none ↔ Rejected s := by
  have hloop := loop_strict s ⟨[], 0, 0⟩
  rw [Nat.zero_add] at hloop
  rw [base64DecodeEx_eq, Rejected, ← hloop, Except.ok.injEq, Option.map_eq_none_iff]

/-- **Strict decoding rejects a text with foreign bytes** exactly when it comes to one of them, or
to other bytes, before it has stopped looking. -/
theorem strict_rejects_foreign (s : List UInt8) :
    ((∃ c ∈ s, Foreign c) → base64DecodeEx s s.length true = .ok none) ↔
      ((∃ c ∈ s, Foreign c) → Rejected s) := by
  rw [base64DecodeEx_strict]

/-- The exclamation mark in `QQ=!` is not seen. -/
theorem not_strict_rejects_foreign :
    ¬ ∀ s : List UInt8, (∃ c ∈ s, Foreign c) → base64DecodeEx s s.length true = .ok none := by
  intro h
  have hrejected := (base64DecodeEx_strict _).mp (h [81, 81, 61, 33] ⟨33, by decide, by decide⟩)
  have hfrom : fromStop [81, 81, 61, 33] = [61, 33] := by decide
  rw [Rejected, hfrom] at hrejected
  rcases hrejected with hcount | hnext
  · exact absurd hcount (by decide)
  · exact absurd rfl hnext

end PhpRuntime.Text
