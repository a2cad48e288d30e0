import Mathlib.Logic.Function.Basic
import PhpRuntime.Lib.EditDistance
import PhpRuntime.Text.CInt

/-!
# Levenshtein distance

The table of the distances of the beginnings of two texts is computed row by row, with two rows in
memory. The entries are `int` values.
-/

set_option autoImplicit false

namespace PhpRuntime.Text

open PhpRuntime.Lib

/-! ## The source -/

/-- `cost_ins`, `cost_rep` and `cost_del` -/
structure Costs where
  ins : ℤ
  rep : ℤ
  del : ℤ

/-- `LEVENSHTEIN_MAX_LENGTH` -/
def levenshteinMaxLength : ℕ := 255

/-- The body of the loop over `i2`: what is stored at `p2[i2 + 1]`. -/
def levCell (cost : Costs) (x y : UInt8) (p1 p2 : ℕ → ℤ) (i2 : ℕ) : Except Undefined ℤ := do
  let c0 ← intValue (p1 i2 + if x = y then 0 else cost.rep)
  let c1 ← intValue (p1 (i2 + 1) + cost.del)
  let c0 := if c1 < c0 then c1 else c0
  let c2 ← intValue (p2 i2 + cost.ins)
  .ok (if c2 < c0 then c2 else c0)

/-- The loop over `i2`, with what is left of `s2` -/
def levRow (cost : Costs) (x : UInt8) (p1 : ℕ → ℤ) :
    List UInt8 → ℕ → (ℕ → ℤ) → Except Undefined (ℕ → ℤ)
  | [], _, p2 => .ok p2
  | y :: s2, i2, p2 => do
    let c0 ← levCell cost x y p1 p2 i2
    levRow cost x p1 s2 (i2 + 1) (Function.update p2 (i2 + 1) c0)

/-- The loop over `i1`, with what is left of `s1`. The rows are swapped at the end of each turn. -/
def levRows (cost : Costs) (s2 : List UInt8) :
    List UInt8 → (ℕ → ℤ) → (ℕ → ℤ) → Except Undefined (ℕ → ℤ)
  | [], p1, _ => .ok p1
  | x :: s1, p1, p2 => do
    let first ← intValue (p1 0 + cost.del)
    let p2 ← levRow cost x p1 s2 0 (Function.update p2 0 first)
    levRows cost s2 s1 p2 p1

/-- The loop that fills the first row, up to the entry of the index `i2` -/
def levFirst (cost : Costs) (p1 : ℕ → ℤ) : ℕ → Except Undefined (ℕ → ℤ)
  | 0 => .ok (Function.update p1 0 0)
  | i2 + 1 => do
    let p1 ← levFirst cost p1 i2
    let c ← intValue ((i2 + 1 : ℕ) * cost.ins)
    .ok (Function.update p1 (i2 + 1) c)

/-- `reference_levdist`. `p1` and `p2` are what the memory of the rows holds in the beginning. -/
def referenceLevdist (cost : Costs) (p1 p2 : ℕ → ℤ) (s1 s2 : List UInt8) : Except Undefined ℤ :=
  if s1.length = 0 then intValue (s2.length * cost.ins)
  else if s2.length = 0 then intValue (s1.length * cost.del)
  else if levenshteinMaxLength < s1.length ∨ levenshteinMaxLength < s2.length then .ok (-1)
  else do
    let p1 ← levFirst cost p1 s2.length
    let p1 ← levRows cost s2 s1 p1 p2
    .ok (p1 s2.length)

/-! ## The rows -/

def Costs.toEdit (cost : Costs) : EditCosts := ⟨cost.ins.toNat, cost.rep.toNat, cost.del.toNat⟩

/-- Prices that are not negative and that an `int` has room for `k` times. -/
structure Costs.Fits (cost : Costs) (k : ℤ) : Prop where
  ins : 0 ≤ cost.ins ∧ cost.ins * k ≤ INT_MAX
  rep : 0 ≤ cost.rep ∧ cost.rep * k ≤ INT_MAX
  del : 0 ≤ cost.del ∧ cost.del * k ≤ INT_MAX

/-- The distance of two beginnings, which are given with the last byte first. -/
def beginDistance (cost : Costs) (u v : List UInt8) : ℕ := editDistance cost.toEdit u v

/-- The first entries of a row, for the beginning `u` of `s1`. -/
def IsRow (cost : Costs) (u s2 : List UInt8) (p : ℕ → ℤ) (n : ℕ) : Prop :=
  ∀ j < n, p j = beginDistance cost u (s2.take j).reverse

variable {cost : Costs} {s1 s2 u v w : List UInt8} {x y : UInt8} {p1 p2 p : ℕ → ℤ} {n : ℕ}

def Costs.max (cost : Costs) : ℕ := Max.max cost.ins.toNat (Max.max cost.rep.toNat cost.del.toNat)

theorem Costs.ins_le_max (cost : Costs) : cost.toEdit.ins ≤ cost.max := le_max_left _ _

theorem Costs.rep_le_max (cost : Costs) : cost.toEdit.rep ≤ cost.max :=
  (le_max_left _ _).trans (le_max_right _ _)

theorem Costs.del_le_max (cost : Costs) : cost.toEdit.del ≤ cost.max :=
  (le_max_right _ _).trans (le_max_right _ _)

theorem Costs.Fits.max_le (h : cost.Fits 256) : cost.max * 256 ≤ 2147483647 := by
  obtain ⟨⟨hi, hi'⟩, ⟨hr, hr'⟩, ⟨hd, hd'⟩⟩ := h
  rw [INT_MAX] at hi' hr' hd'
  rw [Costs.max]
  omega

theorem beginDistance_le (hu : u.length ≤ 255) (hv : v.length ≤ 255) :
    beginDistance cost u v ≤ 255 * cost.max := by
  have hle := editDistance_le_max (c := cost.toEdit) cost.ins_le_max cost.rep_le_max
    cost.del_le_max u v
  exact hle.trans (Nat.mul_le_mul_right _ (Nat.max_le.mpr ⟨hu, hv⟩))

theorem intValue_beginDistance (h : cost.Fits 256) (hu : u.length ≤ 255) (hv : v.length ≤ 255)
    {c : ℕ} (hc : c ≤ cost.max) :
    intValue ((beginDistance cost u v : ℤ) + c) = .ok ((beginDistance cost u v + c : ℕ) : ℤ) := by
  have hle : beginDistance cost u v ≤ 255 * cost.max := beginDistance_le hu hv
  have hmax := h.max_le
  rw [← Int.natCast_add]
  exact intValue_eq (Int.natCast_nonneg _) (by rw [INT_MAX]; omega)

theorem Costs.Fits.cast (h : cost.Fits n) :
    cost.ins = (cost.toEdit.ins : ℤ) ∧ cost.rep = (cost.toEdit.rep : ℤ) ∧
      cost.del = (cost.toEdit.del : ℤ) :=
  ⟨(Int.toNat_of_nonneg h.ins.1).symm, (Int.toNat_of_nonneg h.rep.1).symm,
    (Int.toNat_of_nonneg h.del.1).symm⟩

/-- **One entry.** -/
theorem levCell_eq (h : cost.Fits 256) (hu : (x :: u).length ≤ 255) (hv : (y :: v).length ≤ 255)
    {i2 : ℕ} (h0 : p1 i2 = beginDistance cost u v)
    (h1 : p1 (i2 + 1) = beginDistance cost u (y :: v))
    (h2 : p2 i2 = beginDistance cost (x :: u) v) :
    levCell cost x y p1 p2 i2 = .ok (beginDistance cost (x :: u) (y :: v) : ℤ) := by
  obtain ⟨hins, hrep, hdel⟩ := Costs.Fits.cast (n := 256) h
  have hu' : u.length ≤ 255 := (Nat.le_succ _).trans hu
  have hv' : v.length ≤ 255 := (Nat.le_succ _).trans hv
  have hif : (if x = y then 0 else cost.rep) =
      ((if x = y then 0 else cost.toEdit.rep : ℕ) : ℤ) := by
    split_ifs
    · rfl
    · exact hrep
  have hle : (if x = y then 0 else cost.toEdit.rep) ≤ cost.max := by
    split_ifs
    · exact Nat.zero_le _
    · exact cost.rep_le_max
  rw [levCell, h0, h1, h2, hif, hins, hdel, intValue_beginDistance h hu' hv' hle, ok_bind,
    intValue_beginDistance h hu' hv cost.del_le_max, ok_bind]
  dsimp only
  rw [intValue_beginDistance h hu hv' cost.ins_le_max, ok_bind]
  congr 1
  have hmin : beginDistance cost (x :: u) (y :: v) = _ := editDistance_cons_cons
  rw [hmin]
  change _ = ((min (beginDistance cost u v + _)
    (min (beginDistance cost u (y :: v) + _) (beginDistance cost (x :: u) v + _)) : ℕ) : ℤ)
  generalize (if x = y then 0 else cost.toEdit.rep) = r
  split_ifs <;> omega

theorem levRow_eq (h : cost.Fits 256) (hu : (x :: u).length ≤ 255) (hv : (v ++ w).length ≤ 255)
    (hp1 : IsRow cost u (v ++ w) p1 ((v ++ w).length + 1))
    (hp2 : IsRow cost (x :: u) (v ++ w) p2 (v.length + 1)) :
    ∃ p, levRow cost x p1 w v.length p2 = .ok p ∧
      IsRow cost (x :: u) (v ++ w) p ((v ++ w).length + 1) := by
  induction w generalizing v p2 with
  | nil =>
    rw [List.append_nil] at hp2 ⊢
    exact ⟨p2, rfl, hp2⟩
  | cons y w ih =>
    have hsplit : v ++ y :: w = (v ++ [y]) ++ w := by
      rw [List.append_assoc, List.singleton_append]
    have hlen : (v ++ y :: w).length = v.length + (w.length + 1) := by
      rw [List.length_append, List.length_cons]
    have htake : (v ++ y :: w).take v.length = v := List.take_left
    have htake' : (v ++ y :: w).take (v.length + 1) = v ++ [y] := by
      rw [hsplit]
      exact List.take_left' (by rw [List.length_append, List.length_singleton])
    have hcell : levCell cost x y p1 p2 v.length =
        .ok (beginDistance cost (x :: u) (y :: v.reverse) : ℤ) := by
      refine levCell_eq h hu ?_ ?_ ?_ ?_
      · rw [List.length_cons, List.length_reverse]
        omega
      · rw [hp1 _ (by omega), htake]
      · rw [hp1 _ (by omega), htake', List.reverse_append, List.reverse_singleton,
          List.singleton_append]
      · rw [hp2 _ (by omega), htake]
    have hnext : IsRow cost (x :: u) (v ++ y :: w)
        (Function.update p2 (v.length + 1) (beginDistance cost (x :: u) (y :: v.reverse) : ℤ))
        ((v ++ [y]).length + 1) := by
      intro j hj
      rw [List.length_append, List.length_singleton] at hj
      rw [Function.update_apply]
      split_ifs with hjv
      · rw [hjv, htake', List.reverse_append, List.reverse_singleton, List.singleton_append]
      · exact hp2 j (by omega)
    rw [hsplit] at hv hp1 hnext ⊢
    obtain ⟨p, hrow, hp⟩ := ih hv hp1 hnext
    refine ⟨p, ?_, hp⟩
    rw [levRow, hcell, ok_bind]
    rwa [List.length_append, List.length_singleton] at hrow

theorem levRows_eq (h : cost.Fits 256) (s1 : List UInt8) (p2 : ℕ → ℤ) (hs2 : s2.length ≤ 255) (hs1 : u.length + s1.length ≤ 255)
    (hp1 : IsRow cost u s2 p1 (s2.length + 1)) :
    ∃ p, levRows cost s2 s1 p1 p2 = .ok p ∧
      IsRow cost (s1.reverse ++ u) s2 p (s2.length + 1) := by
  induction s1 generalizing u p1 p2 with
  | nil => exact ⟨p1, rfl, hp1⟩
  | cons x s1 ih =>
    obtain ⟨-, -, hdel⟩ := Costs.Fits.cast (n := 256) h
    rw [List.length_cons] at hs1
    have hfirst : intValue (p1 0 + cost.del) = .ok ((beginDistance cost (x :: u) [] : ℕ) : ℤ) := by
      have hcons : beginDistance cost (x :: u) [] = beginDistance cost u [] + cost.toEdit.del :=
        editDistance_cons_nil
      rw [hp1 0 (Nat.succ_pos _), List.take_zero, List.reverse_nil, hdel, hcons]
      exact intValue_beginDistance h (by omega) (Nat.zero_le _) cost.del_le_max
    have hstart : IsRow cost (x :: u) ([] ++ s2)
        (Function.update p2 0 ((beginDistance cost (x :: u) [] : ℕ) : ℤ)) (([] : List UInt8).length + 1) := by
      intro j hj
      rw [List.length_nil, Nat.zero_add, Nat.lt_one_iff] at hj
      rw [hj, Function.update_self, List.take_zero, List.reverse_nil]
    obtain ⟨p, hrow, hp⟩ := levRow_eq (v := []) (w := s2) h
      (by rw [List.length_cons]; omega) hs2 hp1 hstart
    obtain ⟨p', hrows, hp'⟩ := ih (u := x :: u) p1 (by rw [List.length_cons]; omega) hp
    refine ⟨p', ?_, ?_⟩
    · rw [levRows, hfirst, ok_bind]
      exact (congrArg (· >>= _) hrow).trans hrows
    · rwa [List.reverse_cons, List.append_assoc, List.singleton_append]

theorem levFirst_eq (h : cost.Fits 256) (hs2 : s2.length ≤ 255) (p1 : ℕ → ℤ)
    (hn : n ≤ s2.length) :
    ∃ p, levFirst cost p1 n = .ok p ∧ IsRow cost [] s2 p (n + 1) := by
  obtain ⟨hins, -, -⟩ := Costs.Fits.cast (n := 256) h
  have hentry (j : ℕ) (hj : j ≤ s2.length) :
      beginDistance cost [] (s2.take j).reverse = j * cost.toEdit.ins := by
    rw [beginDistance, editDistance_nil_left, List.length_reverse, List.length_take,
      Nat.min_eq_left hj]
  induction n with
  | zero =>
    refine ⟨_, rfl, fun j hj => ?_⟩
    rw [Nat.zero_add, Nat.lt_one_iff] at hj
    rw [hj, Function.update_self, hentry 0 (Nat.zero_le _), Nat.zero_mul]
    rfl
  | succ n ih =>
    obtain ⟨p, hfirst, hp⟩ := ih (by omega)
    have hvalue : intValue (((n + 1 : ℕ) : ℤ) * cost.ins) =
        .ok (((n + 1) * cost.toEdit.ins : ℕ) : ℤ) := by
      have hmax := h.max_le
      have hmul : (n + 1) * cost.toEdit.ins ≤ 255 * cost.max :=
        Nat.mul_le_mul (by omega) cost.ins_le_max
      rw [hins, ← Int.natCast_mul]
      exact intValue_eq (Int.natCast_nonneg _) (by rw [INT_MAX]; omega)
    refine ⟨Function.update p (n + 1) (((n + 1) * cost.toEdit.ins : ℕ) : ℤ), ?_, fun j hj => ?_⟩
    · rw [levFirst, hfirst, ok_bind, hvalue, ok_bind]
    · rw [Function.update_apply]
      split_ifs with hjn
      · rw [hjn, hentry _ hn]
      · exact hp j (by omega)

/-- **The distance is the least price** of an edit script, when the prices leave room for one more
than the longest text. -/
theorem referenceLevdist_optimal (cost : Costs) (h : cost.Fits 256) (p1 p2 : ℕ → ℤ)
    (s1 s2 : List UInt8) (hs1 : s1.length ≤ 255) (hs2 : s2.length ≤ 255) :
    ∃ n : ℕ, referenceLevdist cost p1 p2 s1 s2 = .ok (n : ℤ) ∧
      IsLeast {m | EditScript cost.toEdit s1 s2 m} n := by
  obtain ⟨hins, -, hdel⟩ := Costs.Fits.cast (n := 256) h
  refine ⟨_, ?_, editDistance_reverse_isLeast s1 s2⟩
  have hmax := h.max_le
  rw [referenceLevdist]
  by_cases h1 : s1.length = 0
  · rw [if_pos h1, List.eq_nil_of_length_eq_zero h1, List.reverse_nil, editDistance_nil_left,
      List.length_reverse, hins, ← Int.natCast_mul]
    have hle : s2.length * cost.toEdit.ins ≤ 255 * cost.max :=
      Nat.mul_le_mul hs2 cost.ins_le_max
    exact intValue_eq (Int.natCast_nonneg _) (by rw [INT_MAX]; omega)
  by_cases h2 : s2.length = 0
  · rw [if_neg h1, if_pos h2, List.eq_nil_of_length_eq_zero h2, List.reverse_nil,
      editDistance_nil_right, List.length_reverse, hdel, ← Int.natCast_mul]
    have hle : s1.length * cost.toEdit.del ≤ 255 * cost.max :=
      Nat.mul_le_mul hs1 cost.del_le_max
    exact intValue_eq (Int.natCast_nonneg _) (by rw [INT_MAX]; omega)
  · have hlong : ¬ (levenshteinMaxLength < s1.length ∨ levenshteinMaxLength < s2.length) := by
      rw [levenshteinMaxLength]
      omega
    obtain ⟨p, hfirst, hp⟩ := levFirst_eq h hs2 p1 le_rfl
    obtain ⟨p', hrows, hp'⟩ := levRows_eq (u := []) h s1 p2 hs2
      (by rw [List.length_nil]; omega) hp
    have hlast := hp' s2.length (Nat.lt_succ_self _)
    rw [List.append_nil, List.take_length] at hlast
    rw [if_neg h1, if_neg h2, if_neg hlong, hfirst, ok_bind, hrows, ok_bind, hlast]
    rfl

theorem referenceLevdist_optimal_dear :
    ∃ n : ℕ, referenceLevdist ⟨1, 5, 2⟩ (fun _ => 0) (fun _ => 0) [107, 105] [107, 111] =
        .ok (n : ℤ) ∧
      IsLeast {m | EditScript (Costs.toEdit ⟨1, 5, 2⟩) ([107, 105] : List UInt8) [107, 111] m} n :=
  referenceLevdist_optimal ⟨1, 5, 2⟩ ⟨by decide, by decide, by decide⟩ _ _ [107, 105] [107, 111]
    (by decide) (by decide)

/-- Prices that fit 255 times only: the last entry of a row of 255 leaves no room for one more. -/
theorem not_referenceLevdist_optimal :
    ¬ ∀ (cost : Costs) (p1 p2 : ℕ → ℤ) (s1 s2 : List UInt8), cost.Fits 255 →
      s1.length ≤ 255 → s2.length ≤ 255 →
      ∃ n : ℕ, referenceLevdist cost p1 p2 s1 s2 = .ok (n : ℤ) ∧
        IsLeast {m | EditScript cost.toEdit s1 s2 m} n := by
  intro h
  have hoverflow : referenceLevdist ⟨8421504, 8421504, 8421504⟩ (fun _ => 0) (fun _ => 0) [97]
      (List.replicate 255 98) = .error .overflow := by
    decide +kernel
  obtain ⟨n, hn, -⟩ := h ⟨8421504, 8421504, 8421504⟩ (fun _ => 0) (fun _ => 0) [97]
    (List.replicate 255 98) ⟨by decide, by decide, by decide⟩ (by decide)
    (by rw [List.length_replicate])
  rw [hoverflow] at hn
  cases hn

end PhpRuntime.Text
