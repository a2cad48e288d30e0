import Mathlib.Data.Nat.Notation

/-!
# Byte buffers

The memory of a buffer as a function of the index, with a bound of the indices written so far.
-/

set_option autoImplicit false

namespace PhpRuntime.Lib

/-- A buffer: its bytes, and a number that all the indices written so far are below. -/
structure ByteBuffer where
  cell : ℕ → UInt8
  written : ℕ

namespace ByteBuffer

/-- The `n` bytes from index `i` on. -/
def bytes (buffer : ByteBuffer) (i n : ℕ) : List UInt8 :=
  (List.range n).map fun k => buffer.cell (i + k)

/-- What a C function reads of the first `n` bytes: it stops at a NUL. -/
def cstring (buffer : ByteBuffer) (n : ℕ) : List UInt8 :=
  (buffer.bytes 0 n).takeWhile (· ≠ 0)

/-- The byte `c` is stored at an index. -/
def set (buffer : ByteBuffer) (i : ℕ) (c : UInt8) : ByteBuffer where
  cell k := if k = i then c else buffer.cell k
  written := max buffer.written (i + 1)

/-- `memcpy` or `memmove` to an index. -/
def copy (buffer : ByteBuffer) (i : ℕ) (source : List UInt8) : ByteBuffer where
  cell k := if i ≤ k ∧ k < i + source.length then source.getD (k - i) 0 else buffer.cell k
  written := if source = [] then buffer.written else max buffer.written (i + source.length)

@[simp] theorem length_bytes (buffer : ByteBuffer) (i n : ℕ) : (buffer.bytes i n).length = n := by
  simp [bytes]

@[simp] theorem getElem_bytes (buffer : ByteBuffer) (i n k : ℕ)
    (h : k < (buffer.bytes i n).length) : (buffer.bytes i n)[k] = buffer.cell (i + k) := by
  simp [bytes]

@[simp] theorem bytes_zero_right (buffer : ByteBuffer) (i : ℕ) : buffer.bytes i 0 = [] := by
  simp [bytes]

theorem bytes_add (buffer : ByteBuffer) (i m n : ℕ) :
    buffer.bytes i (m + n) = buffer.bytes i m ++ buffer.bytes (i + m) n := by
  apply List.ext_getElem (by simp)
  intro k hk _
  rw [getElem_bytes, List.getElem_append]
  split
  · simp
  · rename_i h
    rw [getElem_bytes, length_bytes]
    rw [length_bytes] at h
    congr 1
    omega

theorem bytes_succ (buffer : ByteBuffer) (i n : ℕ) :
    buffer.bytes i (n + 1) = buffer.cell i :: buffer.bytes (i + 1) n := by
  rw [Nat.add_comm, bytes_add]
  simp [bytes]

theorem bytes_eq_append {buffer : ByteBuffer} {i n : ℕ} {a b : List UInt8}
    (h : buffer.bytes i n = a ++ b) :
    buffer.bytes i a.length = a ∧ buffer.bytes (i + a.length) b.length = b := by
  have hn : n = a.length + b.length := by
    rw [← length_bytes buffer i n, h, List.length_append]
  rw [hn, bytes_add] at h
  exact List.append_inj h (by simp)

theorem bytes_congr {buffer other : ByteBuffer} {i n : ℕ}
    (h : ∀ k, k < n → buffer.cell (i + k) = other.cell (i + k)) :
    buffer.bytes i n = other.bytes i n := by
  apply List.ext_getElem (by simp)
  intro k hk _
  rw [getElem_bytes, getElem_bytes, h k (by simpa using hk)]

theorem cell_set (buffer : ByteBuffer) (i : ℕ) (c : UInt8) (k : ℕ) :
    (buffer.set i c).cell k = if k = i then c else buffer.cell k := rfl

@[simp] theorem cell_set_self (buffer : ByteBuffer) (i : ℕ) (c : UInt8) :
    (buffer.set i c).cell i = c := by
  simp [cell_set]

theorem cell_set_ne (buffer : ByteBuffer) {i k : ℕ} (c : UInt8) (h : k ≠ i) :
    (buffer.set i c).cell k = buffer.cell k := by
  simp [cell_set, h]

@[simp] theorem written_set (buffer : ByteBuffer) (i : ℕ) (c : UInt8) :
    (buffer.set i c).written = max buffer.written (i + 1) := rfl

theorem bytes_set_of_le (buffer : ByteBuffer) {i n k : ℕ} (c : UInt8) (h : i + n ≤ k) :
    (buffer.set k c).bytes i n = buffer.bytes i n :=
  bytes_congr fun x hx => cell_set_ne buffer c (by omega)

theorem bytes_copy_of_le (buffer : ByteBuffer) {i n k : ℕ} (source : List UInt8) (h : i + n ≤ k) :
    (buffer.copy k source).bytes i n = buffer.bytes i n := by
  apply bytes_congr
  intro x hx
  simp only [copy]
  rw [if_neg (by omega)]

theorem bytes_copy_of_ge (buffer : ByteBuffer) {i n k : ℕ} (source : List UInt8)
    (h : k + source.length ≤ i) : (buffer.copy k source).bytes i n = buffer.bytes i n := by
  apply bytes_congr
  intro x hx
  simp only [copy]
  rw [if_neg (by omega)]

theorem bytes_copy_self (buffer : ByteBuffer) (k : ℕ) (source : List UInt8) {n : ℕ}
    (h : n ≤ source.length) : (buffer.copy k source).bytes k n = source.take n := by
  apply List.ext_getElem (by simp only [length_bytes, List.length_take]; omega)
  intro x hx _
  rw [getElem_bytes, List.getElem_take]
  rw [length_bytes] at hx
  simp only [copy]
  rw [if_pos (by omega), Nat.add_sub_cancel_left, List.getD_eq_getElem?_getD,
    List.getElem?_eq_getElem (by omega), Option.getD_some]

theorem written_copy_le (buffer : ByteBuffer) (k : ℕ) (source : List UInt8) :
    (buffer.copy k source).written ≤ max buffer.written (k + source.length) := by
  simp only [copy]
  split <;> omega

theorem cell_of_bytes_eq {buffer : ByteBuffer} {base : ℕ} {name : List UInt8}
    (h : buffer.bytes base name.length = name) (x : ℕ) (hx : x < name.length) :
    buffer.cell (base + x) = name[x] := by
  have hget := buffer.getElem_bytes base name.length x (by simpa using hx)
  simp only [h] at hget
  exact hget.symm

end ByteBuffer

end PhpRuntime.Lib
