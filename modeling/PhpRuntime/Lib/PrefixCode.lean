import Mathlib.Data.List.Basic
import Mathlib.Data.Nat.Notation

/-!
# Prefix codes

A code says which words stand for an item. When no word is the beginning of another, and
none is empty, a sequence of words is read in one way only, and cutting it between two
words cuts the sequence of items.
-/

set_option autoImplicit false

namespace PhpRuntime.Lib

variable {A B : Type*}

/-- Words that begin the same sequence are the same and stand for the same item, and none
is empty. -/
structure PrefixCode (code : A → List B → Prop) : Prop where
  unique : ∀ {a b : A} {s t x y : List B}, code a s → code b t → s ++ x = t ++ y →
    a = b ∧ s = t ∧ x = y
  nonempty : ∀ {a : A} {s : List B}, code a s → s ≠ []

/-- A sequence of items and the words that stand for them, one after the other. -/
inductive Coded (code : A → List B → Prop) : List A → List B → Prop
  | nil : Coded code [] []
  | cons {a : A} {s t : List B} {as : List A} (head : code a s) (tail : Coded code as t) :
      Coded code (a :: as) (s ++ t)

namespace Coded

variable {code : A → List B → Prop} {as bs : List A} {s t : List B} {a : A}

theorem append (h : Coded code as s) (h' : Coded code bs t) : Coded code (as ++ bs) (s ++ t) := by
  induction h with
  | nil => exact h'
  | cons head _ ih =>
    rw [List.append_assoc]
    exact .cons head ih

theorem unique (hc : PrefixCode code) (h : Coded code as s) (h' : Coded code bs s) : as = bs := by
  induction h generalizing bs with
  | nil =>
    generalize hs : ([] : List B) = r at h'
    cases h' with
    | nil => rfl
    | cons head tail => exact absurd (List.append_eq_nil_iff.mp hs.symm).1 (hc.nonempty head)
  | @cons a s t as head _ ih =>
    generalize hs : s ++ t = r at h'
    cases h' with
    | nil => exact absurd (List.append_eq_nil_iff.mp hs).1 (hc.nonempty head)
    | cons head' tail' =>
      obtain ⟨rfl, -, rfl⟩ := hc.unique head head' hs
      rw [ih tail']

theorem flatten {pieces : List (List A × List B)} (h : ∀ p ∈ pieces, Coded code p.1 p.2) :
    Coded code (pieces.flatMap Prod.fst) (pieces.flatMap Prod.snd) := by
  induction pieces with
  | nil => exact .nil
  | cons p rest ih =>
    apply (h p List.mem_cons_self).append
    exact ih fun q hq => h q (List.mem_cons_of_mem _ hq)

end Coded

end PhpRuntime.Lib
