import Mathlib.Data.List.Basic
import Mathlib.Data.Nat.Notation

/-!
# Decoding in place

A buffer that is read at one index and written at another one that is not in front of it. What is
written never reaches what is still ahead of the reader.
-/

set_option autoImplicit false

namespace PhpRuntime.Lib

variable {α : Type} {buffer written read ahead : List α} {target source : ℕ} {a : α}

/-- `written` is in front of the writer, and `ahead` begins at the reader. -/
structure InPlace (buffer : List α) (target source : ℕ) (written ahead : List α) : Prop where
  take : buffer.take target = written
  drop : buffer.drop source = ahead
  behind : target ≤ source
  inside : source ≤ buffer.length

namespace InPlace

theorem start (buffer : List α) : InPlace buffer 0 0 [] buffer :=
  ⟨rfl, rfl, Nat.le_refl _, Nat.zero_le _⟩

theorem length_ahead (h : InPlace buffer target source written ahead) :
    source + ahead.length = buffer.length := by
  have hinside := h.inside
  rw [← h.drop, List.length_drop]
  omega

theorem getD (h : InPlace buffer target source written ahead) (i : ℕ) (d : α) :
    buffer.getD (source + i) d = ahead.getD i d := by
  rw [← h.drop, List.getD_eq_getElem?_getD, List.getD_eq_getElem?_getD, List.getElem?_drop]

theorem skip (h : InPlace buffer target source written (read ++ ahead)) :
    InPlace buffer target (source + read.length) written ahead := by
  have hlength := h.length_ahead
  rw [List.length_append] at hlength
  refine ⟨h.take, ?_, Nat.le_trans h.behind (Nat.le_add_right _ _), by omega⟩
  rw [← List.drop_drop, h.drop, List.drop_left]

theorem put (h : InPlace buffer target source written (read ++ ahead)) (hread : read ≠ []) (a : α) :
    InPlace (buffer.set target a) (target + 1) (source + read.length) (written ++ [a]) ahead := by
  have hpos := List.length_pos_iff.mpr hread
  have hskip := h.skip
  have hbehind := h.behind
  have hinside := hskip.inside
  refine ⟨?_, ?_, by omega, by rwa [List.length_set]⟩
  · rw [List.take_add_one, List.take_set_of_le (Nat.le_refl _), h.take,
      List.getElem?_set_self (by omega)]
    rfl
  · rw [List.drop_set_of_lt (by omega), hskip.drop]

end InPlace

end PhpRuntime.Lib
