import Mathlib.Data.List.Basic
import Mathlib.Data.List.Infix
import Mathlib.Data.List.Nodup
import Mathlib.Data.Nat.Notation
import Mathlib.Tactic.Ring

/-!
# Naive replacement

A text is read from the left. Where a rule picks something to replace, its value is put in its
place and the reading goes on behind it, and every other symbol is copied.
-/

set_option autoImplicit false

namespace PhpRuntime.Lib.Replacement

variable {α : Type}

/-- The replacement by a rule, which gives for the rest of a text how much of it is replaced, at
least a symbol, and by what. -/
def replaceAll (pick : List α → Option (ℕ × List α)) : List α → List α
  | [] => []
  | c :: s =>
    match pick (c :: s) with
    | none => c :: replaceAll pick s
    | some (n, v) => v ++ replaceAll pick (s.drop (n - 1))
termination_by s => s.length
decreasing_by
  · exact Nat.lt_succ_self _
  · rw [List.length_drop, List.length_cons]
    omega

def countAll (pick : List α → Option (ℕ × List α)) : List α → ℕ
  | [] => 0
  | c :: s =>
    match pick (c :: s) with
    | none => countAll pick s
    | some (n, _) => countAll pick (s.drop (n - 1)) + 1
termination_by s => s.length
decreasing_by
  · exact Nat.lt_succ_self _
  · rw [List.length_drop, List.length_cons]
    omega

variable {pick : List α → Option (ℕ × List α)} {s v : List α} {c : α} {i n : ℕ}

alias replaceAll_cons := replaceAll.eq_2
alias countAll_cons := countAll.eq_2

theorem replaceAll_nil : replaceAll pick [] = [] := by
  rw [replaceAll]

theorem countAll_nil : countAll pick [] = 0 := by
  rw [countAll]

theorem replaceAll_none (h : pick (c :: s) = none) :
    replaceAll pick (c :: s) = c :: replaceAll pick s := by
  rw [replaceAll_cons, h]

theorem countAll_none (h : pick (c :: s) = none) :
    countAll pick (c :: s) = countAll pick s := by
  rw [countAll_cons, h]

theorem replaceAll_some (h : pick s = some (n, v)) (hs : s ≠ []) (hn : 0 < n) :
    replaceAll pick s = v ++ replaceAll pick (s.drop n) := by
  cases s with
  | nil => exact absurd rfl hs
  | cons c s =>
    cases n with
    | zero => exact absurd hn (lt_irrefl 0)
    | succ n =>
      rw [replaceAll_cons, h, List.drop_succ_cons]
      rfl

theorem countAll_some (h : pick s = some (n, v)) (hs : s ≠ []) (hn : 0 < n) :
    countAll pick s = countAll pick (s.drop n) + 1 := by
  cases s with
  | nil => exact absurd rfl hs
  | cons c s =>
    cases n with
    | zero => exact absurd hn (lt_irrefl 0)
    | succ n =>
      rw [countAll_cons, h, List.drop_succ_cons]
      rfl

theorem replaceAll_skip (hi : i ≤ s.length) (h : ∀ j < i, pick (s.drop j) = none) :
    replaceAll pick s = s.take i ++ replaceAll pick (s.drop i) := by
  induction s generalizing i with
  | nil => rw [List.take_nil, List.drop_nil, List.nil_append]
  | cons c s ih =>
    cases i with
    | zero => rw [List.take_zero, List.drop_zero, List.nil_append]
    | succ i =>
      have h0 : pick (c :: s) = none := h 0 (Nat.succ_pos _)
      have hrest := ih (Nat.le_of_succ_le_succ hi) fun j hj => h (j + 1) (Nat.succ_lt_succ hj)
      rw [replaceAll_none h0, List.take_succ_cons, List.drop_succ_cons, hrest, List.cons_append]

theorem countAll_skip (hi : i ≤ s.length) (h : ∀ j < i, pick (s.drop j) = none) :
    countAll pick s = countAll pick (s.drop i) := by
  induction s generalizing i with
  | nil => rw [List.drop_nil]
  | cons c s ih =>
    cases i with
    | zero => rw [List.drop_zero]
    | succ i =>
      have h0 : pick (c :: s) = none := h 0 (Nat.succ_pos _)
      have hrest := ih (Nat.le_of_succ_le_succ hi) fun j hj => h (j + 1) (Nat.succ_lt_succ hj)
      rw [countAll_none h0, List.drop_succ_cons, hrest]

theorem replaceAll_of_none (h : ∀ j < s.length, pick (s.drop j) = none) :
    replaceAll pick s = s := by
  rw [replaceAll_skip le_rfl h, List.take_length, List.drop_length, replaceAll_nil,
    List.append_nil]

theorem countAll_of_none (h : ∀ j < s.length, pick (s.drop j) = none) : countAll pick s = 0 := by
  rw [countAll_skip le_rfl h, List.drop_length, countAll_nil]

theorem replaceAll_of_count (h : countAll pick s = 0) : replaceAll pick s = s := by
  induction s with
  | nil => exact replaceAll_nil
  | cons c s ih =>
    cases hpick : pick (c :: s) with
    | none =>
      rw [countAll_none hpick] at h
      rw [replaceAll_none hpick, ih h]
    | some m =>
      rw [countAll, hpick] at h
      cases h

theorem replaceAll_first (hi : i < s.length) (h : ∀ j < i, pick (s.drop j) = none)
    (hpick : pick (s.drop i) = some (n, v)) (hn : 0 < n) :
    replaceAll pick s = s.take i ++ (v ++ replaceAll pick (s.drop (i + n))) := by
  have hne : s.drop i ≠ [] := List.ne_nil_of_length_pos (by rw [List.length_drop]; omega)
  rw [replaceAll_skip (le_of_lt hi) h, replaceAll_some hpick hne hn, List.drop_drop]

theorem countAll_first (hi : i < s.length) (h : ∀ j < i, pick (s.drop j) = none)
    (hpick : pick (s.drop i) = some (n, v)) (hn : 0 < n) :
    countAll pick s = countAll pick (s.drop (i + n)) + 1 := by
  have hne : s.drop i ≠ [] := List.ne_nil_of_length_pos (by rw [List.length_drop]; omega)
  rw [countAll_skip (le_of_lt hi) h, countAll_some hpick hne hn, List.drop_drop]

/-! ### One pattern -/

variable {β : Type} [DecidableEq β]

/-- The rule that replaces a needle, compared through `fold`. -/
def needleRule (fold : α → β) (needle v : List α) (s : List α) : Option (ℕ × List α) :=
  if needle.map fold <+: s.map fold then some (needle.length, v) else none

variable {fold : α → β} {needle : List α}

theorem needleRule_pos (h : needle.map fold <+: s.map fold) :
    needleRule fold needle v s = some (needle.length, v) := if_pos h

theorem needleRule_neg (h : ¬ needle.map fold <+: s.map fold) :
    needleRule fold needle v s = none := if_neg h

theorem length_replaceAll (fold : α → β) (v : List α) (hne : needle ≠ []) (s : List α) :
    (replaceAll (needleRule fold needle v) s).length
        + countAll (needleRule fold needle v) s * needle.length =
      s.length + countAll (needleRule fold needle v) s * v.length := by
  induction hlen : s.length using Nat.strong_induction_on generalizing s with
  | h m ih =>
    cases s with
    | nil => rw [replaceAll_nil, countAll_nil, ← hlen, Nat.zero_mul, Nat.zero_mul]
    | cons c s =>
      by_cases h : needle.map fold <+: (c :: s).map fold
      · have hpos : 0 < needle.length := List.length_pos_of_ne_nil hne
        have hle : needle.length ≤ (c :: s).length := by
          have := h.length_le
          rwa [List.length_map, List.length_map] at this
        have hrest := ih ((c :: s).drop needle.length).length
          (by rw [List.length_drop]; omega) _ rfl
        rw [replaceAll_some (needleRule_pos h) (List.cons_ne_nil _ _) hpos,
          countAll_some (needleRule_pos h) (List.cons_ne_nil _ _) hpos, List.length_append]
        rw [List.length_drop] at hrest
        rw [Nat.succ_mul, Nat.succ_mul, ← hlen]
        omega
      · have hrest := ih s.length (by rw [← hlen]; exact Nat.lt_succ_self _) s rfl
        rw [replaceAll_none (needleRule_neg h), countAll_none (needleRule_neg h), ← hlen,
          List.length_cons, List.length_cons]
        omega

/-! ### A table of patterns -/

variable {γ : Type} [DecidableEq γ]

/-- The rule that replaces the longest key of a table by its value. Of equal keys the first one
counts. -/
def longestRule : List (List γ × List γ) → List γ → Option (ℕ × List γ)
  | [], _ => none
  | (k, v) :: table, s =>
    match longestRule table s with
    | none => if k <+: s then some (k.length, v) else none
    | some (n, w) => if k <+: s ∧ n ≤ k.length then some (k.length, v) else some (n, w)

variable {table : List (List γ × List γ)} {t : List γ}

theorem longestRule_none (h : ∀ kv ∈ table, ¬ kv.1 <+: t) : longestRule table t = none := by
  induction table with
  | nil => rfl
  | cons kv table ih =>
    rw [longestRule, ih fun x hx => h x (List.mem_cons_of_mem _ hx)]
    exact if_neg (h kv List.mem_cons_self)

theorem longestRule_spec (table : List (List γ × List γ)) (t : List γ) :
    (longestRule table t = none ∧ ∀ kv ∈ table, ¬ kv.1 <+: t) ∨
      ∃ kv ∈ table, longestRule table t = some (kv.1.length, kv.2) ∧ kv.1 <+: t ∧
        ∀ kv' ∈ table, kv'.1 <+: t → kv'.1.length ≤ kv.1.length := by
  induction table with
  | nil => exact Or.inl ⟨rfl, fun kv hkv => by cases hkv⟩
  | cons kv table ih =>
    obtain ⟨k, v⟩ := kv
    rcases ih with ⟨hnone, hall⟩ | ⟨⟨k', v'⟩, hmem, hsome, hpre, hmax⟩
    · rw [longestRule, hnone]
      by_cases hk : k <+: t
      · refine Or.inr ⟨(k, v), List.mem_cons_self, if_pos hk, hk, fun kv' hkv' hpre' => ?_⟩
        rcases List.mem_cons.mp hkv' with rfl | hin
        · exact le_rfl
        · exact absurd hpre' (hall kv' hin)
      · refine Or.inl ⟨if_neg hk, fun kv' hkv' => ?_⟩
        rcases List.mem_cons.mp hkv' with rfl | hin
        · exact hk
        · exact hall kv' hin
    · rw [longestRule, hsome]
      by_cases hk : k <+: t ∧ k'.length ≤ k.length
      · refine Or.inr ⟨(k, v), List.mem_cons_self, if_pos hk, hk.1, fun kv' hkv' hpre' => ?_⟩
        rcases List.mem_cons.mp hkv' with rfl | hin
        · exact le_rfl
        · exact (hmax kv' hin hpre').trans hk.2
      · refine Or.inr ⟨(k', v'), List.mem_cons_of_mem _ hmem, if_neg hk, hpre,
          fun kv' hkv' hpre' => ?_⟩
        rcases List.mem_cons.mp hkv' with rfl | hin
        · exact le_of_not_ge fun hge => hk ⟨hpre', hge⟩
        · exact hmax kv' hin hpre'

theorem longestRule_some {before after : List (List γ × List γ)} {k v : List γ} (hk : k <+: t)
    (hbefore : ∀ kv ∈ before, ¬ kv.1 <+: t)
    (hafter : ∀ kv ∈ after, kv.1 <+: t → kv.1.length ≤ k.length) :
    longestRule (before ++ (k, v) :: after) t = some (k.length, v) := by
  induction before with
  | nil =>
    rw [List.nil_append, longestRule]
    rcases longestRule_spec after t with ⟨hnone, -⟩ | ⟨kv, hmem, hsome, hpre, -⟩
    · rw [hnone]
      exact if_pos hk
    · rw [hsome]
      exact if_pos ⟨hk, hafter kv hmem hpre⟩
  | cons kv before ih =>
    rw [List.cons_append, longestRule, ih fun x hx => hbefore x (List.mem_cons_of_mem _ hx)]
    exact if_neg fun h => hbefore kv List.mem_cons_self h.1

theorem longestRule_perm {table' : List (List γ × List γ)} (hperm : table.Perm table')
    (hnodup : (table.map Prod.fst).Nodup) : longestRule table = longestRule table' := by
  funext t
  rcases longestRule_spec table t with ⟨hnone, hall⟩ | ⟨kv, hmem, hsome, hpre, hmax⟩
  · rw [hnone, longestRule_none fun kv hkv => hall kv (hperm.mem_iff.mpr hkv)]
  · rcases longestRule_spec table' t with ⟨-, hall'⟩ | ⟨kv', hmem', hsome', hpre', hmax'⟩
    · exact absurd hpre (hall' kv (hperm.mem_iff.mp hmem))
    · have hlen : kv.1.length = kv'.1.length :=
        le_antisymm (hmax' kv (hperm.mem_iff.mp hmem) hpre)
          (hmax kv' (hperm.mem_iff.mpr hmem') hpre')
      have hkey : kv.1 = kv'.1 := by
        rw [List.prefix_iff_eq_take.mp hpre, List.prefix_iff_eq_take.mp hpre', hlen]
      have heq : kv = kv' :=
        List.inj_on_of_nodup_map hnodup hmem (hperm.mem_iff.mpr hmem') hkey
      rw [hsome, hsome', heq]

end PhpRuntime.Lib.Replacement
