import Mathlib.Data.List.Chain
import Mathlib.Data.List.Nodup

/-!
# Circular doubly linked lists

A record `a` and the records of `l` are linked in a circle by two functions. As for the lists
with two ends, an edit gives new functions, and the lemmas ask what these return at the records
that stay.
-/

set_option autoImplicit false

namespace PhpRuntime.Lib

variable {A : Type*}

/-- `b` follows `a`. -/
def Linked (next prev : A → A) (a b : A) : Prop := next a = b ∧ prev b = a

/-- `a` and, behind it, the records of `l` are linked in a circle. -/
def Ring (next prev : A → A) (a : A) (l : List A) : Prop :=
  List.IsChain (Linked next prev) (a :: (l ++ [a]))

variable {next prev next' prev' : A → A} {a b x : A} {l s t : List A}

theorem isChain_linked_congr (h : List.IsChain (Linked next prev) l)
    (hn : ∀ y ∈ l.dropLast, next' y = next y) (hp : ∀ y ∈ l.tail, prev' y = prev y) :
    List.IsChain (Linked next' prev') l := by
  induction l with
  | nil => exact List.IsChain.nil
  | cons y l ih =>
    cases l with
    | nil => exact List.IsChain.singleton y
    | cons z l =>
      rw [List.isChain_cons_cons] at h ⊢
      refine ⟨⟨?_, ?_⟩, ih h.2 (fun w hw => hn w ?_) fun w hw => hp w ?_⟩
      · rw [hn y (by rw [List.dropLast_cons_cons]; exact List.mem_cons_self)]
        exact h.1.1
      · rw [hp z List.mem_cons_self]
        exact h.1.2
      · rw [List.dropLast_cons_cons]
        exact List.mem_cons_of_mem _ hw
      · exact List.mem_cons_of_mem _ hw

namespace Ring

theorem nil_iff : Ring next prev a [] ↔ next a = a ∧ prev a = a := by
  rw [Ring, List.nil_append, List.isChain_cons_cons]
  exact and_iff_left (List.IsChain.singleton a)

theorem congr (h : Ring next prev a l) (hn : ∀ y ∈ a :: l, next' y = next y)
    (hp : ∀ y ∈ a :: l, prev' y = prev y) : Ring next' prev' a l := by
  refine isChain_linked_congr h (fun y hy => hn y ?_) fun y hy => hp y ?_
  · rwa [← List.cons_append, List.dropLast_concat] at hy
  · rcases List.mem_append.mp hy with hl | ha
    · exact List.mem_cons_of_mem _ hl
    · rw [List.mem_singleton.mp ha]
      exact List.mem_cons_self

theorem rotate : Ring next prev a (s ++ b :: t) ↔ Ring next prev b (t ++ a :: s) := by
  have hleft : a :: (s ++ b :: t ++ [a]) = (a :: s) ++ b :: (t ++ [a]) := by
    rw [List.append_assoc, List.cons_append, List.cons_append]
  have hright : b :: (t ++ a :: s ++ [b]) = (b :: t) ++ a :: (s ++ [b]) := by
    rw [List.append_assoc, List.cons_append, List.cons_append]
  rw [Ring, Ring, hleft, hright]
  refine List.isChain_split.trans (and_comm.trans ?_)
  rw [← List.cons_append]
  exact List.isChain_split.symm

theorem next_eq (h : Ring next prev a l) : next a = l.headD a := by
  cases l with
  | nil => exact (nil_iff.mp h).1
  | cons y l => exact (List.isChain_cons_cons.mp h).1.1

theorem prev_eq (h : Ring next prev a l) : prev a = l.getLastD a := by
  rcases List.eq_nil_or_concat l with rfl | ⟨l, y, rfl⟩
  · exact (nil_iff.mp h).2
  · have hrot : Ring next prev y (a :: l) := by
      rw [List.concat_eq_append] at h
      exact rotate.mp h
    rw [List.concat_eq_append, List.getLastD_concat]
    exact (List.isChain_cons_cons.mp hrot).1.2

theorem next_mem (h : Ring next prev a l) : next a ∈ a :: l := by
  rw [h.next_eq]
  cases l with
  | nil => exact List.mem_cons_self
  | cons y l => exact List.mem_cons_of_mem _ List.mem_cons_self

theorem prev_mem (h : Ring next prev a l) : prev a ∈ a :: l := by
  rw [h.prev_eq]
  rcases List.eq_nil_or_concat l with rfl | ⟨l, y, rfl⟩
  · exact List.mem_cons_self
  · rw [List.concat_eq_append, List.getLastD_concat]
    exact List.mem_cons_of_mem _ (List.mem_append_right _ List.mem_cons_self)

theorem remove_first (h : Ring next prev x (b :: l)) (hnodup : (b :: l).Nodup)
    (hn : next' (prev x) = b) (hp : prev' b = prev x)
    (hn' : ∀ y ∈ b :: l, y ≠ prev x → next' y = next y)
    (hp' : ∀ y ∈ b :: l, y ≠ b → prev' y = prev y) : Ring next' prev' b l := by
  obtain ⟨s, p, hs⟩ : ∃ s p, b :: l = s ++ [p] := by
    rcases List.eq_nil_or_concat (b :: l) with hnil | ⟨s, p, hs⟩
    · cases hnil
    · exact ⟨s, p, by rw [hs, List.concat_eq_append]⟩
  have hlast : prev x = p := by
    have hprev := h.prev_eq
    rwa [hs, List.getLastD_concat] at hprev
  have hchain : List.IsChain (Linked next prev) (s ++ [p]) := by
    rw [Ring, List.cons_append, List.isChain_cons_cons, ← List.cons_append, hs] at h
    exact h.2.left_of_append
  rw [hs] at hnodup hn' hp'
  rw [hlast] at hn hp hn'
  have hp_notin : p ∉ s := fun hin => (List.nodup_append.mp hnodup).2.2 p hin p
    List.mem_cons_self rfl
  have hchain' : List.IsChain (Linked next' prev') (s ++ [p]) := by
    refine isChain_linked_congr hchain (fun y hy => ?_) fun y hy => ?_
    · rw [List.dropLast_concat] at hy
      exact hn' y (List.mem_append_left _ hy) fun heq => hp_notin (heq ▸ hy)
    · refine hp' y (List.mem_of_mem_tail hy) fun heq => ?_
      rw [← hs] at hnodup hy
      exact (List.nodup_cons.mp hnodup).1 (heq ▸ hy)
  have hclosed : List.IsChain (Linked next' prev') [p, b] :=
    List.isChain_cons_cons.mpr ⟨⟨hn, hp⟩, List.IsChain.singleton b⟩
  rw [Ring, ← List.cons_append, hs, List.append_assoc]
  exact List.isChain_split.mpr ⟨hchain', hclosed⟩

/-- **Unlinking.** -/
theorem remove (h : Ring next prev a (s ++ x :: t)) (hnodup : (a :: (s ++ t)).Nodup)
    (hn : next' (prev x) = next x) (hp : prev' (next x) = prev x)
    (hn' : ∀ y ∈ a :: (s ++ t), y ≠ prev x → next' y = next y)
    (hp' : ∀ y ∈ a :: (s ++ t), y ≠ next x → prev' y = prev y) : Ring next' prev' a (s ++ t) := by
  have hrot := rotate.mp h
  have hnext := hrot.next_eq
  have hperm : (t ++ a :: s).Perm (a :: (s ++ t)) :=
    List.perm_middle.trans (List.perm_append_comm.cons a)
  cases t with
  | nil =>
    rw [List.append_nil] at hnodup hn' hp' ⊢
    rw [show next x = a from hnext] at hn hp hp'
    exact hrot.remove_first hnodup hn hp hn' hp'
  | cons b t =>
    rw [show next x = b from hnext] at hn hp hp'
    refine rotate.mpr (remove_first hrot (hperm.nodup_iff.mpr hnodup) hn hp ?_ ?_)
    · exact fun y hy => hn' y (hperm.mem_iff.mp hy)
    · exact fun y hy => hp' y (hperm.mem_iff.mp hy)

theorem insert_before (h : Ring next prev a l) (hnodup : (a :: l).Nodup)
    (hxn : next' x = a) (hxp : prev' x = prev a) (hn : next' (prev a) = x) (hp : prev' a = x)
    (hn' : ∀ y ∈ a :: l, y ≠ prev a → next' y = next y)
    (hp' : ∀ y ∈ l, prev' y = prev y) : Ring next' prev' a (l ++ [x]) := by
  obtain ⟨s, p, hs⟩ : ∃ s p, a :: l = s ++ [p] := by
    rcases List.eq_nil_or_concat (a :: l) with hnil | ⟨s, p, hs⟩
    · cases hnil
    · exact ⟨s, p, by rw [hs, List.concat_eq_append]⟩
  have hlast : prev a = p := by
    have hprev := h.prev_eq
    rwa [← List.getLastD_cons (a := a), hs, List.getLastD_concat] at hprev
  have hchain : List.IsChain (Linked next prev) (s ++ [p]) := by
    rw [Ring, ← List.cons_append, hs] at h
    exact h.left_of_append
  rw [hlast] at hxp hn hn'
  have hp_notin : p ∉ s := fun hin => (List.nodup_append.mp (hs ▸ hnodup)).2.2 p hin p
    List.mem_cons_self rfl
  have hchain' : List.IsChain (Linked next' prev') (s ++ [p]) := by
    refine isChain_linked_congr hchain (fun y hy => ?_) fun y hy => ?_
    · rw [List.dropLast_concat] at hy
      exact hn' y (hs ▸ List.mem_append_left _ hy) fun heq => hp_notin (heq ▸ hy)
    · rw [← hs] at hy
      exact hp' y hy
  have hclosed : List.IsChain (Linked next' prev') [p, x, a] :=
    List.isChain_cons_cons.mpr ⟨⟨hn, hxp⟩,
      List.isChain_cons_cons.mpr ⟨⟨hxn, hp⟩, List.IsChain.singleton a⟩⟩
  rw [Ring, ← List.cons_append, ← List.cons_append, hs, List.append_assoc, List.append_assoc]
  exact List.isChain_split.mpr ⟨hchain', hclosed⟩

theorem insert_after (h : Ring next prev a l) (hnodup : (a :: l).Nodup)
    (hxn : next' x = next a) (hxp : prev' x = a) (hn : next' a = x) (hp : prev' (next a) = x)
    (hn' : ∀ y ∈ l, next' y = next y)
    (hp' : ∀ y ∈ a :: l, y ≠ next a → prev' y = prev y) : Ring next' prev' a (x :: l) := by
  have hnext := h.next_eq
  cases l with
  | nil =>
    rw [show next a = a from hnext] at hxn hp
    have hprev : prev a = a := h.prev_eq
    refine insert_before h hnodup hxn (hxp.trans hprev.symm) (hprev.symm ▸ hn) hp
      (fun y hy hne => ?_) fun y hy => by cases hy
    exact absurd (List.mem_singleton.mp hy) (hprev ▸ hne)
  | cons b l =>
    rw [show next a = b from hnext] at hxn hp hp'
    have hrot : Ring next prev b (l ++ [a]) := (rotate (s := []) (b := b) (t := l)).mp h
    have hprev : prev b = a := hrot.prev_eq.trans List.getLastD_concat
    have hperm : (b :: (l ++ [a])).Perm (a :: b :: l) :=
      ((List.perm_append_singleton a l).cons b).trans (List.Perm.swap a b l)
    have hin := insert_before hrot
      (hperm.nodup_iff.mpr hnodup) hxn (hxp.trans hprev.symm) (hprev.symm ▸ hn) hp
      (fun y hy hne => ?_) fun y hy => ?_
    · rw [List.append_assoc] at hin
      exact (rotate (s := [x])).mpr hin
    · rcases List.mem_cons.mp (hperm.mem_iff.mp hy) with rfl | hl
      · exact absurd hprev.symm hne
      · exact hn' y hl
    · have hyb : y ≠ b := fun heq =>
        (List.nodup_cons.mp (hperm.nodup_iff.mpr hnodup)).1 (heq ▸ hy)
      exact hp' y (hperm.mem_iff.mp (List.mem_cons_of_mem _ hy)) hyb

end Ring

end PhpRuntime.Lib
