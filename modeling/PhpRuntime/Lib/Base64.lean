import Mathlib.Algebra.Group.Nat.Defs
import Mathlib.Data.List.Basic
import Mathlib.Data.Nat.Notation
import Mathlib.Tactic.Common

/-!
# Base64

The standard text of a string of bytes: three bytes are written as four symbols of six bits
each, a shorter rest is padded. The text may be broken into lines between such groups. A reader
keeps the bits that do not yet make a byte, skips what is no symbol, and gives the bytes back.
-/

set_option autoImplicit false

namespace PhpRuntime.Lib.Base64

/-- `=` -/
def pad : UInt8 := 61

/-- The code of the symbol of six bits: `A` to `Z`, `a` to `z`, `0` to `9`, `+` and `/`. -/
def code (n : ℕ) : ℕ :=
  if n < 26 then n + 65 else if n < 52 then n + 71 else if n < 62 then n - 4
  else if n = 62 then 43 else 47

def symbol (n : ℕ) : UInt8 := UInt8.ofNat (code n)

def sextet (c : UInt8) : Option ℕ :=
  let c := c.toNat
  if 65 ≤ c ∧ c ≤ 90 then some (c - 65)
  else if 97 ≤ c ∧ c ≤ 122 then some (c - 71)
  else if 48 ≤ c ∧ c ≤ 57 then some (c + 4)
  else if c = 43 then some 62
  else if c = 47 then some 63
  else none

theorem sextet_symbol : ∀ n < 64, sextet (symbol n) = some n := by decide

theorem sextet_pad : sextet pad = none := by decide

theorem sextet_lt {c : UInt8} {n : ℕ} (h : sextet c = some n) : n < 64 := by
  unfold sextet at h
  dsimp only at h
  split_ifs at h <;> cases h <;> omega

/-- The bits of one, two or three bytes in symbols. -/
def group : List UInt8 → List UInt8
  | [a] => [symbol (a.toNat / 4), symbol (a.toNat % 4 * 16), pad, pad]
  | [a, b] => [symbol (a.toNat / 4), symbol (a.toNat % 4 * 16 + b.toNat / 16),
      symbol (b.toNat % 16 * 4), pad]
  | [a, b, c] => [symbol (a.toNat / 4), symbol (a.toNat % 4 * 16 + b.toNat / 16),
      symbol (b.toNat % 16 * 4 + c.toNat / 64), symbol (c.toNat % 64)]
  | _ => []

def groups : List UInt8 → List (List UInt8)
  | a :: b :: c :: x => group [a, b, c] :: groups x
  | [a, b] => [group [a, b]]
  | [a] => [group [a]]
  | [] => []

/-- A line break before each group that would overrun its line. `left` columns of the line are
left, and without line breaks there is one line only. -/
def breakLines (lineBreak : Option (List UInt8)) (width : ℕ) : ℕ → List (List UInt8) → List UInt8
  | _, [] => []
  | left, g :: gs =>
    match lineBreak with
    | none => g ++ breakLines lineBreak width left gs
    | some b =>
      if left < 4 then b ++ g ++ breakLines lineBreak width (width - 4) gs
      else g ++ breakLines lineBreak width (left - 4) gs

/-- The standard text in lines of the given width. -/
def text (lineBreak : Option (List UInt8)) (width : ℕ) (x : List UInt8) : List UInt8 :=
  breakLines lineBreak width width (groups x)

/-! ### Reading -/

/-- What is read from a text when `n` bits are left over from before it, with the value `v`. -/
def read : ℕ → ℕ → List UInt8 → Option (List UInt8)
  | n, _, [] => if n = 0 then some [] else none
  | n, v, c :: t =>
    match sextet c with
    | some d =>
      if n < 2 then read (n + 6) (v * 64 + d) t
      else (read (n - 2) ((v * 64 + d) % 2 ^ (n - 2)) t).map
        (UInt8.ofNat ((v * 64 + d) / 2 ^ (n - 2)) :: ·)
    | none =>
      if c = pad then
        -- behind the padding there is nothing but padding and what is skipped
        if (n = 2 ∨ n = 4) ∧ t.all (fun c => (sextet c).isNone) then some [] else none
      else read n v t

/-- Reading on with `n` bits left over, eight of which are a byte already. -/
def readFrom (n v : ℕ) (t : List UInt8) : Option (List UInt8) :=
  if n < 8 then read n v t
  else (read (n - 8) (v % 2 ^ (n - 8)) t).map (UInt8.ofNat (v / 2 ^ (n - 8)) :: ·)

def Skipped (c : UInt8) : Prop := sextet c = none ∧ c ≠ pad

variable {n v d : ℕ} {c : UInt8} {t : List UInt8}

alias read_cons := read.eq_2

theorem read_of_sextet (hn : n < 8) (h : sextet c = some d) :
    read n v (c :: t) = readFrom (n + 6) (v * 2 ^ 6 + d) t := by
  have hmul : v * 2 ^ 6 + d = v * 64 + d := rfl
  simp only [read_cons, h, readFrom, hmul]
  by_cases h2 : n < 2
  · rw [if_pos h2, if_pos (by omega)]
  · rw [if_neg h2, if_neg (by omega), show n + 6 - 8 = n - 2 by omega]

theorem read_of_skipped (h : Skipped c) : read n v (c :: t) = read n v t := by
  simp only [read_cons, h.1, if_neg h.2]

theorem read_pad : read n v (pad :: t) =
    if (n = 2 ∨ n = 4) ∧ t.all (fun c => (sextet c).isNone) then some [] else none := by
  simp only [read_cons, sextet_pad, reduceIte]

theorem read_symbol (h : d < 64) :
    read n v (symbol d :: t) =
      if n < 2 then read (n + 6) (v * 64 + d) t
      else (read (n - 2) ((v * 64 + d) % 2 ^ (n - 2)) t).map
        (UInt8.ofNat ((v * 64 + d) / 2 ^ (n - 2)) :: ·) := by
  simp only [read_cons, sextet_symbol d h]

theorem read_skipped {b : List UInt8} (hb : ∀ c ∈ b, Skipped c) :
    read n v (b ++ t) = read n v t := by
  induction b with
  | nil => rfl
  | cons c b ih =>
    rw [List.cons_append, read_of_skipped (hb c (by simp))]
    exact ih fun c hc => hb c (List.mem_cons_of_mem _ hc)

theorem read_pads {p : List UInt8} (hn : n = 2 ∨ n = 4) (hp : p.all fun c => (sextet c).isNone) :
    read n v (pad :: p) = some [] := by
  rw [read_pad, if_pos (And.intro hn hp)]

theorem read_group (a b c : UInt8) :
    read 0 0 (group [a, b, c] ++ t) = (read 0 0 t).map ([a, b, c] ++ ·) := by
  have ha := a.toNat_lt
  have hb := b.toNat_lt
  have hc := c.toNat_lt
  have h1 : (a.toNat / 4 * 64 + (a.toNat % 4 * 16 + b.toNat / 16)) / 2 ^ 4 = a.toNat := by omega
  have h2 : (a.toNat / 4 * 64 + (a.toNat % 4 * 16 + b.toNat / 16)) % 2 ^ 4 = b.toNat / 16 := by
    omega
  have h3 : (b.toNat / 16 * 64 + (b.toNat % 16 * 4 + c.toNat / 64)) / 2 ^ 2 = b.toNat := by omega
  have h4 : (b.toNat / 16 * 64 + (b.toNat % 16 * 4 + c.toNat / 64)) % 2 ^ 2 = c.toNat / 64 := by
    omega
  have h5 : (c.toNat / 64 * 64 + c.toNat % 64) / 2 ^ 0 = c.toNat := by omega
  have h6 : (c.toNat / 64 * 64 + c.toNat % 64) % 2 ^ 0 = 0 := by omega
  simp only [group, List.cons_append, List.nil_append]
  rw [read_symbol (by omega), if_pos (by omega), read_symbol (by omega), if_neg (by omega),
    read_symbol (by omega), if_neg (by omega), read_symbol (by omega), if_neg (by omega)]
  simp only [Nat.zero_add, Nat.zero_mul, Nat.reduceSub, h1, h2, h3, h4, h5, h6,
    UInt8.ofNat_toNat, Option.map_map]
  rfl

theorem read_group_one (a : UInt8) : read 0 0 (group [a]) = some [a] := by
  have ha := a.toNat_lt
  have h1 : (a.toNat / 4 * 64 + a.toNat % 4 * 16) / 2 ^ 4 = a.toNat := by omega
  simp only [group]
  rw [read_symbol (by omega), if_pos (by omega), read_symbol (by omega), if_neg (by omega),
    read_pads (by simp) (by decide)]
  simp only [Nat.zero_add, Nat.zero_mul, Nat.reduceSub, h1, UInt8.ofNat_toNat, Option.map_some]

theorem read_group_two (a b : UInt8) : read 0 0 (group [a, b]) = some [a, b] := by
  have ha := a.toNat_lt
  have hb := b.toNat_lt
  have h1 : (a.toNat / 4 * 64 + (a.toNat % 4 * 16 + b.toNat / 16)) / 2 ^ 4 = a.toNat := by omega
  have h2 : (a.toNat / 4 * 64 + (a.toNat % 4 * 16 + b.toNat / 16)) % 2 ^ 4 = b.toNat / 16 := by
    omega
  have h3 : (b.toNat / 16 * 64 + b.toNat % 16 * 4) / 2 ^ 2 = b.toNat := by omega
  simp only [group]
  rw [read_symbol (by omega), if_pos (by omega), read_symbol (by omega), if_neg (by omega),
    read_symbol (by omega), if_neg (by omega), read_pads (by simp) (by decide)]
  simp only [Nat.zero_add, Nat.zero_mul, Nat.reduceSub, h1, h2, h3, UInt8.ofNat_toNat,
    Option.map_some]

theorem read_breakLines {lineBreak : Option (List UInt8)} (width left : ℕ) (g : List UInt8)
    (gs : List (List UInt8)) (hb : ∀ b ∈ lineBreak, ∀ c ∈ b, Skipped c) :
    ∃ left', read 0 0 (breakLines lineBreak width left (g :: gs)) =
      read 0 0 (g ++ breakLines lineBreak width left' gs) := by
  cases lineBreak with
  | none => exact ⟨left, rfl⟩
  | some b =>
    by_cases hleft : left < 4
    · refine ⟨width - 4, ?_⟩
      rw [breakLines, if_pos hleft, List.append_assoc, read_skipped (hb b rfl)]
    · refine ⟨left - 4, ?_⟩
      rw [breakLines, if_neg hleft]

/-- **The text is read back.** -/
theorem read_text {lineBreak : Option (List UInt8)} (width left : ℕ) (x : List UInt8)
    (hb : ∀ b ∈ lineBreak, ∀ c ∈ b, Skipped c) :
    read 0 0 (breakLines lineBreak width left (groups x)) = some x := by
  induction x using groups.induct generalizing left with
  | case1 a b c x ih =>
    obtain ⟨left', hread⟩ := read_breakLines width left (group [a, b, c]) (groups x) hb
    rw [groups, hread, read_group, ih]
    rfl
  | case2 a b =>
    obtain ⟨left', hread⟩ := read_breakLines width left (group [a, b]) [] hb
    rw [groups, hread, breakLines, List.append_nil, read_group_two]
  | case3 a =>
    obtain ⟨left', hread⟩ := read_breakLines width left (group [a]) [] hb
    rw [groups, hread, breakLines, List.append_nil, read_group_one]
  | case4 => rfl

end PhpRuntime.Lib.Base64
