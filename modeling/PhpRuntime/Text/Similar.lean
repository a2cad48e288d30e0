import PhpRuntime.Lib.CommonSubsequence

/-!
# Similarity of texts

The first longest common block of two texts is counted, and what is in front of it and behind it
in both texts is compared in the same way.
-/

set_option autoImplicit false

namespace PhpRuntime.Text

open PhpRuntime.Lib

/-! ## The source -/

/-- `*pos1`, `*pos2` and `*max` -/
structure Block where
  pos1 : ℕ
  pos2 : ℕ
  max : ℕ
  deriving DecidableEq, Repr

/-- The loop over `q`. `p` and `q` are the rests of the texts, at the positions `i` and `j`. The
loop over `l` is `agreement`. -/
def similarInner (p : List UInt8) (i : ℕ) : List UInt8 → ℕ → Block → Block
  | [], _, best => best
  | c :: q, j, best =>
    let l := agreement p (c :: q)
    similarInner p i q (j + 1) (if best.max < l then ⟨i, j, l⟩ else best)

/-- The loop over `p` -/
def similarOuter (txt2 : List UInt8) : List UInt8 → ℕ → Block → Block
  | [], _, best => best
  | c :: p, i, best => similarOuter txt2 p (i + 1) (similarInner (c :: p) i txt2 0 best)

/-- `php_similar_str`. The positions are not set when there is no common block. -/
def similarStr (txt1 txt2 : List UInt8) : Block := similarOuter txt2 txt1 0 ⟨0, 0, 0⟩

/-! ## The longest common block -/

variable {txt1 txt2 p q : List UInt8} {i j : ℕ} {best best' : Block}

/-- The block is one of the two texts, if it is not empty. -/
structure IsBlock (txt1 txt2 : List UInt8) (best : Block) : Prop where
  agree : best.max ≤ agreement (txt1.drop best.pos1) (txt2.drop best.pos2)

theorem IsBlock.pos1_le (h : IsBlock txt1 txt2 best) (hmax : best.max ≠ 0) :
    best.pos1 + best.max ≤ txt1.length := by
  have hle := h.agree.trans (agreement_le_left _ _)
  rw [List.length_drop] at hle
  omega

theorem similarInner_spec (hi : txt1.drop i = p) (hq : txt2.drop j = q)
    (h : IsBlock txt1 txt2 best) :
    IsBlock txt1 txt2 (similarInner p i q j best) ∧ best.max ≤ (similarInner p i q j best).max ∧
      ∀ k, agreement p (q.drop k) ≤ (similarInner p i q j best).max := by
  induction q generalizing j best with
  | nil =>
    refine ⟨h, le_rfl, fun k => ?_⟩
    have hle := agreement_le_right p ([].drop k)
    rw [List.drop_nil, List.length_nil] at hle
    rw [List.drop_nil]
    exact hle.trans (Nat.zero_le _)
  | cons c q ih =>
    have hq' : txt2.drop (j + 1) = q := by
      rw [← List.drop_drop, hq, List.drop_one, List.tail_cons]
    have hstep : IsBlock txt1 txt2
        (if best.max < agreement p (c :: q) then ⟨i, j, agreement p (c :: q)⟩ else best) := by
      split_ifs
      · refine ⟨?_⟩
        rw [hi, hq]
      · exact h
    obtain ⟨hblock, hle, hall⟩ := ih hq' hstep
    refine ⟨hblock, le_trans ?_ hle, fun k => ?_⟩
    · split_ifs with hlt
      · exact hlt.le
      · exact le_rfl
    · cases k with
      | zero =>
        refine le_trans ?_ hle
        split_ifs with hlt
        · exact le_rfl
        · exact not_lt.mp hlt
      | succ k => exact hall k

theorem similarOuter_spec (hi : txt1.drop i = p) (h : IsBlock txt1 txt2 best) :
    IsBlock txt1 txt2 (similarOuter txt2 p i best) ∧ best.max ≤ (similarOuter txt2 p i best).max ∧
      ∀ k j, agreement (p.drop k) (txt2.drop j) ≤ (similarOuter txt2 p i best).max := by
  induction p generalizing i best with
  | nil =>
    refine ⟨h, le_rfl, fun k j => ?_⟩
    rw [List.drop_nil]
    exact (agreement_le_left [] _).trans (Nat.zero_le _)
  | cons c p ih =>
    have hi' : txt1.drop (i + 1) = p := by
      rw [← List.drop_drop, hi, List.drop_one, List.tail_cons]
    obtain ⟨hinner, hmax, hall⟩ := similarInner_spec (j := 0) hi List.drop_zero h
    obtain ⟨hblock, hle, hrest⟩ := ih hi' hinner
    refine ⟨hblock, hmax.trans hle, fun k j => ?_⟩
    cases k with
    | zero => exact (hall j).trans hle
    | succ k => exact hrest k j

/-- **The block is a longest one.** -/
theorem similarStr_spec (txt1 txt2 : List UInt8) :
    IsBlock txt1 txt2 (similarStr txt1 txt2) ∧
      ∀ i j, agreement (txt1.drop i) (txt2.drop j) ≤ (similarStr txt1 txt2).max := by
  have hempty : IsBlock txt1 txt2 ⟨0, 0, 0⟩ := ⟨Nat.zero_le _⟩
  obtain ⟨hblock, -, hall⟩ := similarOuter_spec (List.drop_zero (l := txt1)) hempty
  exact ⟨hblock, hall⟩

/-! ## The recursion -/

/-- `php_similar_char` -/
def similarChar (txt1 txt2 : List UInt8) : ℕ :=
  let best := similarStr txt1 txt2
  if h : best.max = 0 then 0
  else
    best.max +
      (if best.pos1 ≠ 0 ∧ best.pos2 ≠ 0 then
        similarChar (txt1.take best.pos1) (txt2.take best.pos2) else 0) +
      (if best.pos1 + best.max < txt1.length ∧ best.pos2 + best.max < txt2.length then
        similarChar (txt1.drop (best.pos1 + best.max)) (txt2.drop (best.pos2 + best.max)) else 0)
termination_by txt1.length
decreasing_by
  · have hle : best.pos1 + best.max ≤ txt1.length := (similarStr_spec txt1 txt2).1.pos1_le h
    change (txt1.take best.pos1).length < txt1.length
    rw [List.length_take]
    omega
  · have hle : best.pos1 + best.max ≤ txt1.length := (similarStr_spec txt1 txt2).1.pos1_le h
    change (txt1.drop (best.pos1 + best.max)).length < txt1.length
    rw [List.length_drop]
    omega

/-- **What is counted is a common subsequence.** -/
theorem similarChar_common (txt1 txt2 : List UInt8) :
    ∃ l, CommonSubsequence l txt1 txt2 ∧ l.length = similarChar txt1 txt2 := by
  fun_induction similarChar txt1 txt2 with
  | case1 txt1 txt2 best h => exact ⟨[], CommonSubsequence.nil _ _, rfl⟩
  | case2 txt1 txt2 best h ihl ihr =>
    have hblock := (similarStr_spec txt1 txt2).1
    obtain ⟨l, hl, hllen⟩ : ∃ l, CommonSubsequence l (txt1.take best.pos1) (txt2.take best.pos2) ∧
        l.length = if best.pos1 ≠ 0 ∧ best.pos2 ≠ 0 then
          similarChar (txt1.take best.pos1) (txt2.take best.pos2) else 0 := by
      split_ifs with hl
      · exact ihl hl
      · exact ⟨[], CommonSubsequence.nil _ _, rfl⟩
    obtain ⟨r, hr, hrlen⟩ : ∃ r, CommonSubsequence r (txt1.drop (best.pos1 + best.max))
        (txt2.drop (best.pos2 + best.max)) ∧
        r.length = if best.pos1 + best.max < txt1.length ∧ best.pos2 + best.max < txt2.length then
          similarChar (txt1.drop (best.pos1 + best.max)) (txt2.drop (best.pos2 + best.max))
          else 0 := by
      split_ifs with hr
      · exact ihr hr
      · exact ⟨[], CommonSubsequence.nil _ _, rfl⟩
    refine ⟨_, hl.around hblock.agree hr, ?_⟩
    have hlen : ((txt1.drop best.pos1).take best.max).length = best.max := by
      rw [List.length_take, List.length_drop]
      have hle : best.pos1 + best.max ≤ txt1.length := hblock.pos1_le h
      exact Nat.min_eq_left (by omega)
    rw [List.length_append, List.length_append, hlen, hllen, hrlen]
    omega

/-- **similar_text counts a common subsequence.** It is not shorter than a common block, and of
equal texts it is all. -/
theorem similarChar_counts (txt1 txt2 : List UInt8) :
    (∃ f g, Matching txt1 txt2 (similarChar txt1 txt2) f g) ∧
      (∃ l, CommonSubsequence l txt1 txt2 ∧ l.length = similarChar txt1 txt2) ∧
      similarChar txt1 txt2 ≤ min txt1.length txt2.length ∧
      (∀ w, w <:+: txt1 → w <:+: txt2 → w.length ≤ similarChar txt1 txt2) ∧
      similarChar txt1 txt1 = txt1.length := by
  have hmax_le (txt1 txt2 : List UInt8) :
      (similarStr txt1 txt2).max ≤ similarChar txt1 txt2 := by
    rw [similarChar]
    split
    · exact le_of_eq (by assumption)
    · rw [Nat.add_assoc]
      exact Nat.le_add_right _ _
  obtain ⟨l, hl, hlen⟩ := similarChar_common txt1 txt2
  refine ⟨?_, ⟨l, hl, hlen⟩, ?_, fun w hw hw' => ?_, ?_⟩
  · rw [← hlen]
    exact hl.matching
  · rw [← hlen]
    exact le_min hl.length_le_left hl.length_le_right
  · obtain ⟨a, b, rfl⟩ := hw
    obtain ⟨a', b', rfl⟩ := hw'
    have hprefix {a b : List UInt8} : w <+: (a ++ w ++ b).drop a.length := by
      rw [List.append_assoc, List.drop_left]
      exact List.prefix_append w b
    exact (length_le_agreement hprefix hprefix).trans
      (((similarStr_spec _ _).2 a.length a'.length).trans (hmax_le _ _))
  · refine le_antisymm ?_ ?_
    · obtain ⟨l, hl, hlen⟩ := similarChar_common txt1 txt1
      rw [← hlen]
      exact hl.length_le_left
    · have hall := (similarStr_spec txt1 txt1).2 0 0
      rw [List.drop_zero, agreement_self] at hall
      exact hall.trans (hmax_le txt1 txt1)

end PhpRuntime.Text
