import Mathlib.Data.Nat.Notation

/-!
# Computations that succeed

A rule for each way to put computations that can fail together: the whole succeeds with a value
that has a property when the parts do.
-/

set_option autoImplicit false

namespace PhpRuntime.Lib

variable {ε α β : Type} {x : Except ε α} {Q Q' : α → Prop}

theorem ok_bind {a : α} {f : α → Except ε β} : ((.ok a : Except ε α) >>= f) = f a := rfl

theorem error_bind {e : ε} {f : α → Except ε β} :
    ((.error e : Except ε α) >>= f) = .error e := rfl

theorem bind_eq_ok {f : α → Except ε β} {b : β} (h : (x >>= f) = .ok b) :
    ∃ a, x = .ok a ∧ f a = .ok b := by
  cases x with
  | error e => cases h
  | ok a => exact ⟨a, rfl, h⟩

/-- The computation succeeds, and its value has the property. -/
def Returns (x : Except ε α) (Q : α → Prop) : Prop := ∃ a, x = .ok a ∧ Q a

namespace Returns

theorem ok {a : α} (h : Q a) : Returns (.ok a : Except ε α) Q := ⟨a, rfl, h⟩

theorem bind {f : α → Except ε β} {R : β → Prop} (hx : Returns x Q)
    (hf : ∀ a, Q a → Returns (f a) R) : Returns (x >>= f) R := by
  obtain ⟨a, rfl, ha⟩ := hx
  exact hf a ha

theorem mono (hx : Returns x Q) (h : ∀ a, Q a → Q' a) : Returns x Q' := by
  obtain ⟨a, rfl, ha⟩ := hx
  exact ⟨a, rfl, h a ha⟩

theorem ite {p : Prop} [Decidable p] {y : Except ε α} (hx : p → Returns x Q)
    (hy : ¬ p → Returns y Q) : Returns (if p then x else y) Q := by
  split
  · next h => exact hx h
  · next h => exact hy h

theorem error_iff {e : ε} : Returns (.error e : Except ε α) Q ↔ False := by
  constructor
  · rintro ⟨a, h, -⟩
    cases h
  · exact False.elim

end Returns

/-- The computation succeeds with a value that has the one property, or fails with an error that
has the other. -/
def Ends (x : Except ε α) (Q : α → Prop) (E : ε → Prop) : Prop :=
  match x with
  | .ok a => Q a
  | .error e => E e

namespace Ends

variable {E : ε → Prop}

theorem bind {f : α → Except ε β} {R : β → Prop} (hx : Ends x Q E)
    (hf : ∀ a, Q a → Ends (f a) R E) : Ends (x >>= f) R E := by
  cases x with
  | error e => exact hx
  | ok a => exact hf a hx

theorem mono (hx : Ends x Q E) (h : ∀ a, Q a → Q' a) : Ends x Q' E := by
  cases x with
  | error e => exact hx
  | ok a => exact h a hx

theorem ite {p : Prop} [Decidable p] {y : Except ε α} (hx : p → Ends x Q E)
    (hy : ¬ p → Ends y Q E) : Ends (if p then x else y) Q E := by
  split
  · next h => exact hx h
  · next h => exact hy h

theorem of_error {e : ε} (hx : Ends x Q E) (h : x = .error e) : E e := by
  subst h
  exact hx

theorem of_ok {a : α} (hx : Ends x Q E) (h : x = .ok a) : Q a := by
  subst h
  exact hx

end Ends

end PhpRuntime.Lib
