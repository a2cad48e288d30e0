import Mathlib.Algebra.Group.End
import Mathlib.Data.List.Nodup
import Mathlib.Data.List.Perm.Basic
import Mathlib.Logic.Equiv.Basic

/-!
# Segments of a sequence

Sequences that are indexed by the integers, the permutations of one that only move what is in a
segment, and segments that are in order or divided by one of their elements.
-/

set_option autoImplicit false

namespace PhpRuntime.Lib

variable {α : Type*} {lo hi lo' hi' p : ℤ} {a b c : ℤ → α}

/-! ### Permutations inside a segment -/

/-- `b` is `a` with the elements from `lo` to `hi` permuted. -/
def PermutedOn (lo hi : ℤ) (a b : ℤ → α) : Prop :=
  ∃ π : Equiv.Perm ℤ, (∀ i, ¬ (lo ≤ i ∧ i ≤ hi) → π i = i) ∧ ∀ i, b i = a (π i)

theorem PermutedOn.refl (lo hi : ℤ) (a : ℤ → α) : PermutedOn lo hi a a :=
  ⟨Equiv.refl ℤ, fun _ _ => rfl, fun _ => rfl⟩

theorem PermutedOn.trans (hab : PermutedOn lo hi a b) (hbc : PermutedOn lo hi b c) :
    PermutedOn lo hi a c := by
  obtain ⟨π, hπ, hb⟩ := hab
  obtain ⟨ρ, hρ, hc⟩ := hbc
  refine ⟨ρ.trans π, fun i hi => ?_, fun i => ?_⟩
  · rw [Equiv.trans_apply, hρ i hi, hπ i hi]
  · rw [Equiv.trans_apply, hc, hb]

theorem PermutedOn.mono (h : PermutedOn lo hi a b) (hlo : lo' ≤ lo) (hhi : hi ≤ hi') :
    PermutedOn lo' hi' a b := by
  obtain ⟨π, hπ, hb⟩ := h
  exact ⟨π, fun i hi => hπ i (by omega), hb⟩

theorem permutedOn_swap {i j : ℤ} (hilo : lo ≤ i) (hihi : i ≤ hi) (hjlo : lo ≤ j) (hjhi : j ≤ hi)
    (hb : ∀ k, b k = a (Equiv.swap i j k)) : PermutedOn lo hi a b := by
  refine ⟨Equiv.swap i j, fun k hk => Equiv.swap_apply_of_ne_of_ne ?_ ?_, hb⟩
  · rintro rfl
    exact hk ⟨hilo, hihi⟩
  · rintro rfl
    exact hk ⟨hjlo, hjhi⟩

theorem PermutedOn.outside (h : PermutedOn lo hi a b) {i : ℤ} (hi : ¬ (lo ≤ i ∧ i ≤ hi)) :
    b i = a i := by
  obtain ⟨π, hπ, hb⟩ := h
  rw [hb, hπ i hi]

theorem PermutedOn.inside (h : PermutedOn lo hi a b) {P : α → Prop}
    (ha : ∀ i, lo ≤ i → i ≤ hi → P (a i)) : ∀ i, lo ≤ i → i ≤ hi → P (b i) := by
  obtain ⟨π, hπ, hb⟩ := h
  intro i hlo hhi
  rw [hb]
  have hin : lo ≤ π i ∧ π i ≤ hi := by
    by_contra hout
    have hfix := π.injective (hπ (π i) hout)
    rw [hfix] at hout
    exact hout ⟨hlo, hhi⟩
  exact ha (π i) hin.1 hin.2

theorem PermutedOn.perm {n : ℕ} (h : PermutedOn 0 (n - 1) a b) :
    ((List.range n).map fun i : ℕ => b i).Perm ((List.range n).map fun i : ℕ => a i) := by
  obtain ⟨π, hπ, hb⟩ := h
  have hnodup : ((List.range n).map fun i : ℕ => (i : ℤ)).Nodup :=
    List.nodup_range.map fun _ _ h => Int.ofNat_inj.mp h
  have hmem : ∀ i, i ∈ ((List.range n).map fun i : ℕ => (i : ℤ)) ↔ 0 ≤ i ∧ i ≤ n - 1 := by
    intro i
    rw [List.mem_map]
    constructor
    · rintro ⟨k, hk, rfl⟩
      rw [List.mem_range] at hk
      omega
    · intro hi
      exact ⟨i.toNat, List.mem_range.mpr (by omega), Int.toNat_of_nonneg hi.1⟩
  have hperm : (((List.range n).map fun i : ℕ => (i : ℤ)).map π).Perm
      ((List.range n).map fun i : ℕ => (i : ℤ)) := by
    rw [List.perm_ext_iff_of_nodup (hnodup.map π.injective) hnodup]
    intro i
    rw [List.mem_map, hmem]
    constructor
    · rintro ⟨j, hj, rfl⟩
      rw [hmem] at hj
      by_contra hout
      have hfix := π.injective (hπ (π j) hout)
      rw [hfix] at hout
      exact hout hj
    · intro hi
      refine ⟨π.symm i, (hmem _).mpr ?_, π.apply_symm_apply i⟩
      by_contra hout
      have hfix := hπ (π.symm i) hout
      rw [π.apply_symm_apply] at hfix
      rw [← hfix] at hout
      exact hout hi
  have hmap := hperm.map a
  rw [List.map_map, List.map_map, List.map_map] at hmap
  refine List.Perm.trans (List.Perm.of_eq ?_) hmap
  exact List.map_congr_left fun i _ => hb i

/-! ### Segments in order -/

/-- The elements from `lo` to `hi` are in order. -/
def SortedOn (le : α → α → Prop) (lo hi : ℤ) (a : ℤ → α) : Prop :=
  ∀ i j, lo ≤ i → i < j → j ≤ hi → le (a i) (a j)

/-- The elements from `lo` to `hi` are divided by the one at `p`. -/
structure DividedAt (le : α → α → Prop) (lo p hi : ℤ) (a : ℤ → α) : Prop where
  below : ∀ i, lo ≤ i → i ≤ p - 1 → le (a i) (a p)
  above : ∀ i, p + 1 ≤ i → i ≤ hi → le (a p) (a i)

variable {le : α → α → Prop}

theorem sortedOn_of_le (h : hi ≤ lo) : SortedOn le lo hi a := fun i j hi hij hj => by omega

theorem SortedOn.congr (h : SortedOn le lo hi a) (hb : ∀ i, lo ≤ i → i ≤ hi → b i = a i) :
    SortedOn le lo hi b := by
  intro i j hi hij hj
  rw [hb i hi (by omega), hb j (by omega) hj]
  exact h i j hi hij hj

theorem DividedAt.permute_below (h : DividedAt le lo p hi a) (hb : PermutedOn lo (p - 1) a b) :
    DividedAt le lo p hi b := by
  have hp : b p = a p := hb.outside (by omega)
  constructor
  · rw [hp]
    exact hb.inside (P := fun x => le x (a p)) h.below
  · intro i hpi hi
    rw [hp, hb.outside (by omega)]
    exact h.above i hpi hi

theorem DividedAt.permute_above (h : DividedAt le lo p hi a) (hb : PermutedOn (p + 1) hi a b) :
    DividedAt le lo p hi b := by
  have hp : b p = a p := hb.outside (by omega)
  constructor
  · intro i hi hip
    rw [hp, hb.outside (by omega)]
    exact h.below i hi hip
  · rw [hp]
    exact hb.inside (P := le (a p)) h.above

theorem DividedAt.sortedOn (h : DividedAt le lo p hi a)
    (htrans : ∀ x y z, le x y → le y z → le x z)
    (hbelow : SortedOn le lo (p - 1) a) (habove : SortedOn le (p + 1) hi a) :
    SortedOn le lo hi a := by
  intro i j hi hij hj
  rcases lt_trichotomy j p with hjp | rfl | hjp
  · exact hbelow i j hi hij (by omega)
  · exact h.below i hi (by omega)
  rcases lt_trichotomy i p with hip | rfl | hip
  · exact htrans _ _ _ (h.below i hi (by omega)) (h.above j (by omega) hj)
  · exact h.above j (by omega) hj
  · exact habove i j (by omega) hij hj

theorem SortedOn.pairwise {n : ℕ} (h : SortedOn le 0 (n - 1) a) :
    ((List.range n).map fun i : ℕ => a i).Pairwise le := by
  rw [List.pairwise_map]
  refine List.Pairwise.imp_of_mem ?_ List.pairwise_lt_range
  intro i j _ hj hij
  rw [List.mem_range] at hj
  exact h i j (by omega) (by omega) (by omega)

end PhpRuntime.Lib
