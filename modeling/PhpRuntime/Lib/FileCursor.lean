import Mathlib.Data.List.Basic

/-!
# A file with a position

The contents of a file, a position in it, and what reading, writing and seeking do. A write
behind the end fills the gap.
-/

set_option autoImplicit false

namespace PhpRuntime.Lib

variable {α : Type}

/-- The contents of a file after `bytes` are written at a position. -/
def overwrite (gap : α) (contents : List α) (position : ℕ) (bytes : List α) : List α :=
  contents.take position ++ List.replicate (position - contents.length) gap ++ bytes ++
    contents.drop (position + bytes.length)

@[simp] theorem length_overwrite (gap : α) (contents : List α) (position : ℕ) (bytes : List α) :
    (overwrite gap contents position bytes).length =
      max contents.length (position + bytes.length) := by
  unfold overwrite
  simp only [List.length_append, List.length_take, List.length_replicate, List.length_drop]
  omega

theorem overwrite_append (gap : α) (contents : List α) (position : ℕ) (a b : List α) :
    overwrite gap (overwrite gap contents position a) (position + a.length) b =
      overwrite gap contents position (a ++ b) := by
  have hlen : position + a.length - (overwrite gap contents position a).length = 0 := by
    rw [length_overwrite]
    omega
  have hhead : (contents.take position ++ List.replicate (position - contents.length) gap ++
      a).length = position + a.length := by
    simp only [List.length_append, List.length_take, List.length_replicate]
    omega
  have htake : (overwrite gap contents position a).take (position + a.length) =
      contents.take position ++ List.replicate (position - contents.length) gap ++ a := by
    unfold overwrite
    rw [← hhead, List.take_left']
    rfl
  have hdrop : (overwrite gap contents position a).drop (position + a.length + b.length) =
      contents.drop (position + (a ++ b).length) := by
    unfold overwrite
    rw [List.drop_append, List.drop_eq_nil_of_le (by omega), List.nil_append, List.drop_drop, hhead,
      List.length_append]
    congr 1
    omega
  rw [overwrite, htake, hlen, hdrop, overwrite]
  simp

/-- The contents of a file and a position. -/
structure FileCursor (α : Type) where
  contents : List α
  position : ℕ

namespace FileCursor

def ahead (f : FileCursor α) : List α := f.contents.drop f.position

def advance (f : FileCursor α) (n : ℕ) : FileCursor α := { f with position := f.position + n }

def seek (f : FileCursor α) (position : ℕ) : FileCursor α := { f with position := position }

/-- Bytes are written at the position, which moves behind them. -/
def write (gap : α) (f : FileCursor α) (bytes : List α) : FileCursor α where
  contents := overwrite gap f.contents f.position bytes
  position := f.position + bytes.length

@[simp] theorem advance_zero (f : FileCursor α) : f.advance 0 = f := rfl

@[simp] theorem advance_advance (f : FileCursor α) (m n : ℕ) :
    (f.advance m).advance n = f.advance (m + n) := by
  unfold advance
  rw [Nat.add_assoc]

theorem ahead_advance (f : FileCursor α) (n : ℕ) : (f.advance n).ahead = f.ahead.drop n := by
  unfold ahead advance
  rw [List.drop_drop]

theorem write_append (gap : α) (f : FileCursor α) (a b : List α) :
    (f.write gap a).write gap b = f.write gap (a ++ b) := by
  unfold write
  rw [overwrite_append, List.length_append, Nat.add_assoc]

theorem write_nil (gap : α) (f : FileCursor α) (h : f.position ≤ f.contents.length) :
    f.write gap [] = f := by
  unfold write overwrite
  have hgap : f.position - f.contents.length = 0 := by omega
  rw [hgap]
  simp

theorem prefix_ahead_append {f : FileCursor α} {a b : List α} (ha : a <+: f.ahead)
    (hb : b <+: (f.advance a.length).ahead) : a ++ b <+: f.ahead := by
  obtain ⟨t, ht⟩ := ha
  rw [ahead_advance, ← ht, List.drop_left] at hb
  rw [← ht]
  exact List.prefix_append_right_inj a |>.mpr hb

end FileCursor

end PhpRuntime.Lib
