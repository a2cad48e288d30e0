import Mathlib.Data.List.Basic
import Mathlib.Data.List.Infix
import Mathlib.Data.Nat.Notation

/-!
# Splitting at a delimiter

A text is read from the left. At an occurrence of the delimiter a piece ends, and the next one
begins behind the occurrence.
-/

set_option autoImplicit false

namespace PhpRuntime.Lib.Splitting

variable {α : Type} {d s : List α} {i : ℕ}

theorem not_infix_take (hd : d ≠ []) (hbefore : ∀ j < i, ¬ d <+: s.drop j) :
    ¬ d <:+: s.take i := by
  rintro ⟨a, b, hab⟩
  have hlen := congrArg List.length hab
  have hpos := List.length_pos_iff.mpr hd
  rw [List.length_append, List.length_append, List.length_take] at hlen
  refine hbefore a.length (by omega) ⟨b ++ s.drop i, ?_⟩
  have hs : s = a ++ (d ++ (b ++ s.drop i)) := by
    conv => lhs; rw [← List.take_append_drop i s, ← hab]
    simp only [List.append_assoc]
  conv => rhs; rw [hs]
  rw [List.drop_left]

def starts (d : List α) : ℕ → List (List α) → List ℕ
  | _, [] => []
  | p, q :: qs => p :: starts d (p + q.length + d.length) qs

theorem intercalate_pieces_first {q : List α} {qs : List (List α)} (hqs : qs ≠ []) {p : ℕ}
    (h : d.intercalate (q :: qs) = s.drop p) :
    (s.drop p).take q.length = q ∧
      d.intercalate qs = s.drop (p + q.length + d.length) := by
  rw [List.intercalate_cons_of_ne_nil hqs, List.append_assoc] at h
  constructor
  · rw [← h, List.take_left]
  · rw [Nat.add_assoc, ← List.drop_drop, ← h, ← List.drop_drop, List.drop_left, List.drop_left]

variable [DecidableEq α]

def pieces (d : List α) : List α → List (List α)
  | [] => [[]]
  | c :: s =>
    if d <+: c :: s then [] :: pieces d (s.drop (d.length - 1))
    else (c :: (pieces d s).headD []) :: (pieces d s).tail
termination_by s => s.length
decreasing_by
  · rw [List.length_drop, List.length_cons]
    omega
  · exact Nat.lt_succ_self _

theorem pieces_ne_nil (d s : List α) : pieces d s ≠ [] := by
  cases s with
  | nil =>
    rw [pieces]
    exact List.cons_ne_nil _ _
  | cons c s =>
    rw [pieces]
    split <;> exact List.cons_ne_nil _ _

theorem pieces_cons_found (hd : d ≠ []) (h : d <+: s) :
    pieces d s = [] :: pieces d (s.drop d.length) := by
  cases s with
  | nil => exact absurd (List.prefix_nil.mp h) hd
  | cons c s =>
    have hpos := List.length_pos_iff.mpr hd
    rw [pieces, if_pos h]
    congr 2
    rw [← Nat.succ_pred_eq_of_pos hpos, List.drop_succ_cons]
    rfl

theorem pieces_cons_copied {c : α} (h : ¬ d <+: c :: s) :
    pieces d (c :: s) = (c :: (pieces d s).headD []) :: (pieces d s).tail := by
  rw [pieces, if_neg h]

theorem pieces_first (hd : d ≠ []) (h : d <+: s.drop i) (hbefore : ∀ j < i, ¬ d <+: s.drop j) :
    pieces d s = s.take i :: pieces d (s.drop (i + d.length)) := by
  induction i generalizing s with
  | zero =>
    rw [List.drop_zero] at h
    rw [pieces_cons_found hd h, List.take_zero, Nat.zero_add]
  | succ i ih =>
    cases s with
    | nil =>
      rw [List.drop_nil] at h
      exact absurd (List.prefix_nil.mp h) hd
    | cons c s =>
      rw [List.drop_succ_cons] at h
      have hrest := ih h fun j hj => hbefore (j + 1) (Nat.succ_lt_succ hj)
      rw [pieces_cons_copied (hbefore 0 (Nat.succ_pos _)), hrest, List.take_succ_cons,
        Nat.add_right_comm, List.drop_succ_cons]
      rfl

theorem pieces_of_none (h : ∀ j, ¬ d <+: s.drop j) : pieces d s = [s] := by
  induction s with
  | nil => rw [pieces]
  | cons c s ih =>
    rw [pieces_cons_copied (h 0), ih fun j => h (j + 1)]
    rfl

/-- **The pieces make up the text.** -/
theorem intercalate_pieces (hd : d ≠ []) (s : List α) : d.intercalate (pieces d s) = s := by
  induction hn : s.length using Nat.strong_induction_on generalizing s with
  | h n ih =>
    cases s with
    | nil =>
      rw [pieces]
      exact List.intercalate_singleton
    | cons c s =>
      have hpos := List.length_pos_iff.mpr hd
      rw [List.length_cons] at hn
      by_cases h : d <+: c :: s
      · have hrest := ih ((c :: s).drop d.length).length
          (by rw [List.length_drop, List.length_cons]; omega) _ rfl
        obtain ⟨t, ht⟩ := h
        rw [pieces_cons_found hd ⟨t, ht⟩, List.intercalate_cons_of_ne_nil (pieces_ne_nil _ _),
          hrest, ← ht, List.drop_left]
        rfl
      · have hrest := ih s.length (by omega) s rfl
        rw [pieces_cons_copied h, List.intercalate_cons_cons_left]
        congr 1
        have hne := pieces_ne_nil d s
        generalize pieces d s = qs at hrest hne ⊢
        cases qs with
        | nil => exact absurd rfl hne
        | cons q qs => exact hrest

/-! ### A single symbol -/

variable {e : α} {t : List α}

theorem singleton_not_at_cons {c : α} (h : e ≠ c) : ¬ [e] <+: c :: t := by
  rintro ⟨r, hr⟩
  exact h (List.cons.inj hr).1

theorem pieces_of_not_mem (h : e ∉ s) : pieces [e] s = [s] := by
  induction s with
  | nil => rw [pieces]
  | cons c s ih =>
    rw [List.mem_cons, not_or] at h
    rw [pieces_cons_copied (singleton_not_at_cons h.1), ih h.2]
    rfl

theorem pieces_append_cons (h : e ∉ s) (t : List α) :
    pieces [e] (s ++ e :: t) = s :: pieces [e] t := by
  induction s with
  | nil => exact pieces_cons_found (List.cons_ne_nil _ _) ⟨t, rfl⟩
  | cons c s ih =>
    rw [List.mem_cons, not_or] at h
    rw [List.cons_append, pieces_cons_copied (singleton_not_at_cons h.1), ih h.2]
    rfl

theorem length_pieces_replicate (c : α) (n : ℕ) :
    (pieces [c] (List.replicate n c)).length = n + 1 := by
  induction n with
  | zero => simp [pieces]
  | succ n ih =>
    have hpre : [c] <+: c :: List.replicate n c := ⟨_, rfl⟩
    rw [List.replicate_succ, pieces_cons_found (List.cons_ne_nil _ _) hpre, List.length_cons]
    exact congrArg (· + 1) ih

/-! ### Readers -/

section Readers

variable {S T β : Type} {call : S → β × S} {call' : T → β × T} {R : S → T → Prop}

/-- What the first `n` calls of a reader return. -/
def results (call : S → β × S) : ℕ → S → List β
  | 0, _ => []
  | n + 1, s => (call s).1 :: results call n (call s).2

theorem results_eq_of_related
    (hcall : ∀ s t, R s t → (call s).1 = (call' t).1 ∧ R (call s).2 (call' t).2) (n : ℕ) :
    ∀ {s : S} {t : T}, R s t → results call n s = results call' n t := by
  induction n with
  | zero => exact fun _ => rfl
  | succ n ih =>
    intro s t h
    obtain ⟨hfirst, hrest⟩ := hcall s t h
    unfold results
    rw [hfirst, ih hrest]

end Readers

end PhpRuntime.Lib.Splitting
