import Mathlib.Data.List.NodupEquivFin
import Mathlib.Data.List.Infix
import Mathlib.Tactic.Common

/-!
# Common subsequences

A list that is a sublist of two lists pairs off positions of the two that hold the same, in
increasing order. Two common subsequences and a common block between them make up one.
-/

set_option autoImplicit false

namespace PhpRuntime.Lib

variable {α : Type*} {s t l w : List α}

/-- Increasing positions in `s` and in `t` where the two lists have the same elements. -/
structure Matching (s t : List α) (n : ℕ) (f g : Fin n → ℕ) : Prop where
  left : StrictMono f
  right : StrictMono g
  same : ∀ k, ∃ a, s[f k]? = some a ∧ t[g k]? = some a

/-- `l` is a subsequence of both. -/
structure CommonSubsequence (l s t : List α) : Prop where
  left : l.Sublist s
  right : l.Sublist t

namespace CommonSubsequence

theorem nil (s t : List α) : CommonSubsequence [] s t := ⟨List.nil_sublist s, List.nil_sublist t⟩

theorem length_le_left (h : CommonSubsequence l s t) : l.length ≤ s.length := h.left.length_le

theorem length_le_right (h : CommonSubsequence l s t) : l.length ≤ t.length := h.right.length_le

/-- **The matching of a common subsequence.** -/
theorem matching (h : CommonSubsequence l s t) : ∃ f g, Matching s t l.length f g := by
  obtain ⟨f, hf⟩ := List.sublist_iff_exists_fin_orderEmbedding_get_eq.mp h.left
  obtain ⟨g, hg⟩ := List.sublist_iff_exists_fin_orderEmbedding_get_eq.mp h.right
  refine ⟨fun k => f k, fun k => g k, fun i j hij => f.strictMono hij, fun i j hij =>
    g.strictMono hij, fun k => ⟨l.get k, ?_, ?_⟩⟩
  · rw [hf k]
    exact List.getElem?_eq_getElem (f k).isLt
  · rw [hg k]
    exact List.getElem?_eq_getElem (g k).isLt

theorem append {l' : List α} {i j : ℕ} (h : CommonSubsequence l (s.take i) (t.take j))
    (h' : CommonSubsequence l' (s.drop i) (t.drop j)) : CommonSubsequence (l ++ l') s t := by
  constructor
  · have hsub := h.left.append h'.left
    rwa [List.take_append_drop] at hsub
  · have hsub := h.right.append h'.right
    rwa [List.take_append_drop] at hsub

end CommonSubsequence

/-! ### Common blocks -/

variable [DecidableEq α]

/-- How far two lists agree from their beginnings on. -/
def agreement : List α → List α → ℕ
  | a :: s, b :: t => if a = b then agreement s t + 1 else 0
  | _, _ => 0

alias agreement_cons_cons := agreement.eq_1

theorem agreement_le_left (s t : List α) : agreement s t ≤ s.length := by
  fun_induction agreement s t with
  | case1 a s t ih => exact Nat.succ_le_succ ih
  | case2 => exact Nat.zero_le _
  | case3 => exact Nat.zero_le _

theorem agreement_self (s : List α) : agreement s s = s.length := by
  induction s with
  | nil => rfl
  | cons a s ih => rw [agreement_cons_cons, if_pos rfl, ih, List.length_cons]

theorem take_agreement (s t : List α) :
    s.take (agreement s t) = t.take (agreement s t) := by
  fun_induction agreement s t with
  | case1 a s t ih => rw [List.take_succ_cons, List.take_succ_cons, ih]
  | case2 => rw [List.take_zero, List.take_zero]
  | case3 => rw [List.take_zero, List.take_zero]

theorem agreement_le_right (s t : List α) : agreement s t ≤ t.length := by
  have hlen := congrArg List.length (take_agreement s t)
  rw [List.length_take, List.length_take, Nat.min_eq_left (agreement_le_left s t)] at hlen
  omega

theorem length_le_agreement (hs : w <+: s) (ht : w <+: t) : w.length ≤ agreement s t := by
  induction w generalizing s t with
  | nil => exact Nat.zero_le _
  | cons a w ih =>
    obtain ⟨s, rfl⟩ := hs
    obtain ⟨t, rfl⟩ := ht
    rw [List.cons_append, List.cons_append, agreement_cons_cons, if_pos rfl, List.length_cons]
    exact Nat.succ_le_succ (ih (List.prefix_append w s) (List.prefix_append w t))

theorem CommonSubsequence.around {l' : List α} {i j n : ℕ}
    (hl : CommonSubsequence l (s.take i) (t.take j))
    (hn : n ≤ agreement (s.drop i) (t.drop j))
    (hr : CommonSubsequence l' (s.drop (i + n)) (t.drop (j + n))) :
    CommonSubsequence (l ++ ((s.drop i).take n ++ l')) s t := by
  refine hl.append (CommonSubsequence.append (i := n) (j := n) ?_ ?_)
  · have heq := congrArg (List.take n) (take_agreement (s.drop i) (t.drop j))
    rw [List.take_take, List.take_take, Nat.min_eq_left hn] at heq
    exact ⟨List.Sublist.refl _, heq ▸ List.Sublist.refl _⟩
  · rwa [List.drop_drop, List.drop_drop]

end PhpRuntime.Lib
