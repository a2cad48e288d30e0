import PhpRuntime.Alloc.Rings
import PhpRuntime.Alloc.TreeInsert

/-!
# The invariant of the free lists

The trees, the lists and the bitmap of the trees belong to the same blocks. What a function does
to the lists is told by the homes of the blocks.
-/

set_option autoImplicit false

namespace PhpRuntime.Alloc

open BinaryTree PhpRuntime.Lib.DigitalTree

/-! ### Bits -/

theorem getLsbD_set (w : BitVec 64) {i j : ℕ} (hi : i < 64) :
    (w ||| (1#64 <<< j)).getLsbD i = (w.getLsbD i || decide (i = j)) := by
  rw [BitVec.getLsbD_or]
  congr 1
  simp only [BitVec.getLsbD_shiftLeft, hi, decide_true, Bool.true_and, BitVec.getLsbD_one]
  by_cases hij : i < j
  · simp [hij, Nat.ne_of_lt hij]
  · have hiff : i - j = 0 ↔ i = j := by omega
    simp [hij, hiff]

theorem getLsbD_clear (w : BitVec 64) {i j : ℕ} (hi : i < 64) :
    (w &&& ~~~(1#64 <<< j)).getLsbD i = (w.getLsbD i && decide (i ≠ j)) := by
  rw [BitVec.getLsbD_and]
  congr 1
  simp only [BitVec.getLsbD_not, BitVec.getLsbD_shiftLeft, hi, decide_true, Bool.true_and,
    BitVec.getLsbD_one]
  by_cases hij : i < j
  · simp [hij, Nat.ne_of_lt hij]
  · have hiff : i - j = 0 ↔ i = j := by omega
    simp [hij, hiff]

/-! ### The invariant -/

/-- The free blocks are where the heap has them. -/
structure Indexed (v : View) (G : Lists) (T : ℕ → BinaryTree ℕ) : Prop where
  rings : Rings v G
  stored : ∀ k < 64, Stored v (.bucket k) (T k)
  digital : ∀ k < 64, IsDigital v.size k 1 (T k)
  nodes : ∀ b, G.home b = .block b ↔ ∃ k < 64, b ∈ members (T k)
  bitmap : ∀ k < 64, v.largeFreeBitmap.getLsbD k = true ↔ T k ≠ nil
  ringSize : ∀ b c, G.home b = .block c → v.size b = v.size c
  ringParent : ∀ b c, G.home b = .block c → b ≠ c → v.parent b = .null
  large : ∀ b c, G.home b = .block c → ¬ SmallSize (v.size b)
  small : ∀ b i, G.home b = .smallBucket i → SmallSize (v.size b) ∧ bucketIndex (v.size b) = i
  rest : ∀ b, G.home b = .restBucket → ¬ SmallSize (v.size b) → v.parent b = .restBlock
  restCount : v.restCount = (G.list .restBucket).countP fun b => ¬ SmallSize (v.size b)

variable {v v' : View} {G : Lists} {T : ℕ → BinaryTree ℕ} {b c x k : ℕ}

theorem log2_of_div {n : ℕ} (h : n / 2 ^ k = 1) : Nat.log2 n = k := by
  have hpos : n ≠ 0 := by
    rintro rfl
    rw [Nat.zero_div] at h
    exact absurd h Nat.zero_ne_one
  rw [Nat.log2_eq_iff hpos]
  have hk := Nat.two_pow_pos k
  constructor
  · exact (Nat.one_le_div_iff hk).mp (le_of_eq h.symm)
  · rw [pow_succ, Nat.mul_comm]
    exact (Nat.div_lt_iff_lt_mul hk).mp (by omega)

theorem div_of_log2 {n : ℕ} (h : n ≠ 0) : n / 2 ^ Nat.log2 n = 1 := by
  obtain ⟨hle, hlt⟩ := (Nat.log2_eq_iff h).mp rfl
  rw [pow_succ, Nat.mul_comm] at hlt
  have hk := Nat.two_pow_pos (Nat.log2 n)
  have h1 := (Nat.one_le_div_iff hk).mpr hle
  have h2 := (Nat.div_lt_iff_lt_mul hk).mpr hlt
  omega

namespace Indexed

theorem log2_eq (h : Indexed v G T) (hk : k < 64) (hb : b ∈ members (T k)) :
    Nat.log2 (v.size b) = k := log2_of_div ((h.digital k hk).div_eq hb)

theorem nodup (h : Indexed v G T) (hk : k < 64) : (members (T k)).Nodup := (h.digital k hk).nodup

theorem home_of_mem (h : Indexed v G T) (hk : k < 64) (hb : b ∈ members (T k)) :
    G.home b = .block b := (h.nodes b).mpr ⟨k, hk, hb⟩

theorem notMem (h : Indexed v G T) (hb : G.home b ≠ .block b) (hk : k < 64) :
    b ∉ members (T k) := fun hin => hb (h.home_of_mem hk hin)

theorem eq_of_mem {k' : ℕ} (h : Indexed v G T) (hk : k < 64) (hk' : k' < 64)
    (hb : b ∈ members (T k)) (hb' : b ∈ members (T k')) : k = k' :=
  (h.log2_eq hk hb).symm.trans (h.log2_eq hk' hb')

end Indexed

end PhpRuntime.Alloc
