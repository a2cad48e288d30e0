import PhpRuntime.Lib.TrialDeletion

/-!
# What a collection by trial deletion does

The three walks one after the other, from a buffer of candidates. Let `M` be the nodes that
can be reached from the purple candidates. A node of `M` is garbage when no node of `M` with
a count beyond its edges from `M` reaches it. The walks put every listed garbage node on the
list once, give every other listed node its count back, take the edges of the garbage off
the counts of the nodes that are not listed, and leave nothing in the buffer.
-/

set_option autoImplicit false

namespace PhpRuntime.Lib.TrialDeletion

variable {V A : Type*} [DecidableEq V] [CommRing A]

/-- Of the references counted in `x`, those that are no edges from `M`. -/
def Graph.external (G : Graph V) (M : Finset V) (rc : V → A) (x : V) : A :=
  rc x - G.edgesFrom M (fun _ => true) x

/-- A node of `M` that nothing outside `M` holds on to, through whatever path. -/
def Graph.Garbage (G : Graph V) (M : Finset V) (rc : V → A) (n : V) : Prop :=
  n ∈ M ∧ G.pinned n = false ∧
    ∀ y ∈ M, G.pinned y = false → G.external M rc y ≠ 0 → ¬ G.Reach y n

/-- A buffer `R` of candidates before a collection, and the nodes `M` that can be reached
from the purple ones. -/
structure Buffered (G : Graph V) (M : Finset V) (R : List V) (s : State V A) : Prop where
  nodup : R.Nodup
  buffered : ∀ n ∈ M, s.buffered n = true ↔ n ∈ R
  color : ∀ n ∈ M, s.color n = .black ∨ s.color n = .purple
  roots : ∀ r ∈ R, s.color r = .purple → r ∈ M
  closed : ∀ v ∈ M, ∀ c ∈ G.succ v, c ∈ M
  reached : ∀ n ∈ M, ∃ r ∈ R, s.color r = .purple ∧ G.Reach r n
  freed : s.freed = 0

/-- The state after a collection. -/
structure Outcome (G : Graph V) (M : Finset V) (s s' : State V A) : Prop where
  freed : ∀ n, s'.freed.count n ≤ 1 ∧
    (n ∈ s'.freed ↔ G.listed n = true ∧ G.Garbage M s.rc n)
  listed : ∀ x, G.listed x = true → s'.rc x = s.rc x + s'.freed.count x
  unlisted : ∀ x, G.listed x = false → G.pinned x = false → ∀ p : V → Bool,
    (∀ n ∈ M, p n = true ↔ G.Garbage M s.rc n) → s'.rc x = s.rc x - G.edgesFrom M p x
  pinned : ∀ x, G.pinned x = true → s'.rc x = s.rc x
  color : ∀ n ∈ M, ¬ G.Garbage M s.rc n → s'.color n = .black
  garbage : ∀ n, G.Garbage M s.rc n → s'.color n = G.collected n
  outside : ∀ n, n ∉ M → s'.color n = s.color n

variable {G : Graph V} {M : Finset V} {R kept : List V} {s s₁ s₂ s₃ : State V A} {n x : V}

namespace Buffered

omit [DecidableEq V] [CommRing A] in
theorem reach_mem {m : V} (h : Buffered G M R s) (hm : m ∈ M) (hr : G.Reach m n) : n ∈ M := by
  induction hr with
  | refl => exact hm
  | tail _ hc ih => exact h.closed _ ih _ hc

theorem marked (h : Buffered G M R s) (hm : MarkSpec G M R s kept s₁) (hn : n ∈ M) :
    s₁.color n = G.marked n ∧ ∃ k ∈ kept, G.Reach k n := by
  obtain ⟨r, hr, hp, hrn⟩ := h.reached n hn
  have hr₁ := hm.roots r hr hp
  have hpm : s.color r ≠ G.marked r := hp ▸ marked_ne_purple.symm
  obtain ⟨k, hk, hkr⟩ := (hm.closed r hpm hr₁).1
  refine ⟨?_, k, hk, hkr.trans hrn⟩
  clear hn
  induction hrn with
  | refl => exact hr₁
  | @tail b c hrb hc ih =>
    have hbM := h.reach_mem (h.roots r hr hp) hrb
    by_cases hb : s.color b = G.marked b
    · -- only a pinned node has its mark before, and it has no successors
      have hpin : G.pinned b = true := by
        by_contra hpin
        rw [marked_grey_iff (by simpa using hpin)] at hb
        cases h.color b hbM with
        | inl h => rw [h] at hb; simp at hb
        | inr h => rw [h] at hb; simp at hb
      rw [G.leaf b hpin] at hc
      simp at hc
    · exact (hm.closed b hb ih).2 c hc

theorem edgesFrom_marked (h : Buffered G M R s) (hm : MarkSpec G M R s kept s₁) :
    (G.edgesFrom M (fun n => s₁.color n == .grey) x : A) = G.edgesFrom M (fun _ => true) x := by
  apply Finset.sum_congr rfl
  intro n hn
  simp only [(h.marked hm hn).1]
  by_cases hp : G.pinned n = true
  · simp [G.leaf n hp]
  · simp [marked_grey_iff (by simpa using hp : G.pinned n = false)]

theorem marked_rc (h : Buffered G M R s) (hm : MarkSpec G M R s kept s₁)
    (hx : G.pinned x = false) : s₁.rc x = G.external M s.rc x := by
  have hsum := hm.sum x hx
  have hzero : (G.edgesFrom M (fun n => s.color n == .grey) x : A) = 0 := by
    apply Finset.sum_eq_zero
    intro n hn
    cases h.color n hn with
    | inl h => simp [h]
    | inr h => simp [h]
  rw [h.edgesFrom_marked hm, hzero, add_zero] at hsum
  unfold Graph.external
  linear_combination hsum

theorem scanInv (h : Buffered G M R s) (hm : MarkSpec G M R s kept s₁) :
    ScanInv G M (G.external M s.rc) s₁ where
  color n hn := by
    rw [(h.marked hm hn).1]
    exact marked_ne_purple
  grey n hn hg := by
    by_contra hp
    rw [(h.marked hm hn).1] at hg
    simp [Graph.marked, hp] at hg
  black n hn hb c hc := by
    by_cases hp : G.pinned n = true
    · rw [G.leaf n hp] at hc
      simp at hc
    · rw [(h.marked hm hn).1, marked_grey_iff (by simpa using hp)] at hb
      simp at hb
  sum x hx := by
    have hzero : (G.edgesFrom M (fun n => s₁.color n == .black) x : A) = 0 := by
      apply Finset.sum_eq_zero
      intro n hn
      simp only [(h.marked hm hn).1]
      by_cases hp : G.pinned n = true
      · simp [G.leaf n hp]
      · simp [marked_grey_iff (by simpa using hp : G.pinned n = false)]
    rw [hzero, add_zero]
    exact h.marked_rc hm hx
  live n hn hb := by
    left
    by_contra hp
    rw [(h.marked hm hn).1, marked_grey_iff (by simpa using hp)] at hb
    simp at hb
  white n hn hw := by
    rw [(h.marked hm hn).1] at hw
    unfold Graph.marked at hw
    split at hw <;> simp at hw
  pinned n hn hp := by
    rw [(h.marked hm hn).1, Graph.marked, if_pos hp]

theorem scanned (h : Buffered G M R s) (hm : MarkSpec G M R s kept s₁)
    (hs : ScanSpec G M (G.external M s.rc) kept s₁ s₂) (hn : n ∈ M) : s₂.color n ≠ .grey := by
  obtain ⟨k, hk, hkn⟩ := (h.marked hm hn).2
  have hkM : k ∈ M := h.roots k (hm.sublist.subset hk) (hm.purple k hk)
  clear hn
  induction hkn with
  | refl => exact hs.roots k hk
  | @tail b c hkb hc ih =>
    by_cases hb : s₁.color b = .grey
    · exact hs.closed b hb ih c hc
    · rw [(h.marked hm (h.reach_mem hkM hkb)).1, Graph.marked] at hb
      split at hb
      · rename_i hp
        rw [G.leaf b hp] at hc
        simp at hc
      · simp at hb

theorem black_of_not_white (h : Buffered G M R s) (hm : MarkSpec G M R s kept s₁)
    (hs : ScanSpec G M (G.external M s.rc) kept s₁ s₂) (hn : n ∈ M) (hw : s₂.color n ≠ .white) :
    s₂.color n = .black := by
  cases hc : s₂.color n with
  | black => rfl
  | white => exact absurd hc hw
  | grey => exact absurd hc (h.scanned hm hs hn)
  | purple => exact absurd hc (hs.inv.color n hn)

/-- **The white nodes are the garbage.** -/
theorem white_iff (h : Buffered G M R s) (hm : MarkSpec G M R s kept s₁)
    (hs : ScanSpec G M (G.external M s.rc) kept s₁ s₂) :
    n ∈ M ∧ s₂.color n = .white ↔ G.Garbage M s.rc n := by
  constructor
  · rintro ⟨hn, hw⟩
    refine ⟨hn, (hs.inv.white n hn hw).1, fun y hy _ hey hyn => ?_⟩
    have hyb : s₂.color y = .black := by
      apply h.black_of_not_white hm hs hy
      exact fun hyw => hey (hs.inv.white y hy hyw).2
    have hnb : s₂.color n = .black := by
      clear hn hw
      induction hyn with
      | refl => exact hyb
      | @tail b c hyb' hc ih => exact hs.inv.black b (h.reach_mem hy hyb') ih c hc
    rw [hnb] at hw
    simp at hw
  · rintro ⟨hn, hp, hg⟩
    refine ⟨hn, ?_⟩
    by_contra hw
    cases hs.inv.live n hn (h.black_of_not_white hm hs hn hw) with
    | inl hpin => simp [hp] at hpin
    | inr hl =>
      obtain ⟨y, hy, hpy, hey, hyn⟩ := hl
      exact hg y hy hpy hey hyn

theorem collected (h : Buffered G M R s) (hm : MarkSpec G M R s kept s₁)
    (hs : ScanSpec G M (G.external M s.rc) kept s₁ s₂) (hc : CollectSpec G M kept s₂ s₃)
    (hn : n ∈ M) : s₃.color n ≠ .white := by
  obtain ⟨k, hk, hkn⟩ := (h.marked hm hn).2
  have hkM : k ∈ M := h.roots k (hm.sublist.subset hk) (hm.purple k hk)
  clear hn
  induction hkn with
  | refl => exact hc.roots k hk
  | @tail a b hka hb ih =>
    have haM := h.reach_mem hkM hka
    by_cases ha : s₂.color a = .white
    · exact hc.closed a haM ha ih b hb
    · have hbb := hs.inv.black a haM (h.black_of_not_white hm hs haM ha) b hb
      have hbw : s₂.color b ≠ .white := by rw [hbb]; simp
      rw [((hc.frame b).stays hbw).1]
      exact hbw

/-- **What the three walks do.** -/
theorem outcome (h : Buffered G M R s) (hmark : G.MarkRoots R s kept s₁)
    (hscan : G.ScanRoots kept s₁ s₂) (hcollect : G.CollectRoots kept s₂ s₃) :
    Outcome G M s s₃ := by
  have hm := MarkRoots.spec h.closed hmark h.roots h.nodup
  have hkM : ∀ k ∈ kept, k ∈ M := fun k hk => h.roots k (hm.sublist.subset hk) (hm.purple k hk)
  have hs := ScanRoots.spec h.closed hscan hkM (h.scanInv hm)
  have hbuf : ∀ n ∈ M, s₂.buffered n = true ↔ n ∈ kept := fun n hn => by
    rw [(hs.frame n).buffered, hm.buffered n, Bool.and_eq_true, h.buffered n hn]
    constructor
    · rintro ⟨hR, hk⟩
      simpa [hR] using hk
    · exact fun hk => ⟨hm.sublist.subset hk, by simp [hk]⟩
  have hc := CollectRoots.spec h.closed hcollect hkM hbuf (h.nodup.sublist hm.sublist)
  have hwhite : ∀ n ∈ M, s₂.color n = .white ↔ G.Garbage M s.rc n := fun n hn => by
    rw [← h.white_iff hm hs]
    exact ⟨fun hw => ⟨hn, hw⟩, fun hw => hw.2⟩
  have hgarb : ∀ n, G.Garbage M s.rc n → s₃.color n = G.collected n ∧
      s₃.freed.count n = if G.listed n then 1 else 0 := fun n hn => by
    have hfreed : s₂.freed = 0 := ((hs.frame n).freed.trans (hm.frame n).freed).trans h.freed
    cases (hc.frame n).white ((hwhite n hn.1).mpr hn) with
    | inl hw => exact absurd hw.1 (h.collected hm hs hc hn.1)
    | inr hw => simpa [hfreed] using hw
  have hrest : ∀ n ∈ M, ¬ G.Garbage M s.rc n → s₃.color n = .black ∧ s₃.freed.count n = 0 ∧
      (G.pinned n = true → s₃.rc n = s.rc n) := fun n hnM hn => by
    have hfreed : s₂.freed = 0 := ((hs.frame n).freed.trans (hm.frame n).freed).trans h.freed
    have hw := mt (hwhite n hnM).mp hn
    have hst := (hc.frame n).stays hw
    exact ⟨hst.1.trans (h.black_of_not_white hm hs hnM hw), by simpa [hfreed] using hst.2.1,
      fun hp => (hst.2.2 hp).trans (((hs.frame n).pinned hp).trans ((hm.frame n).pinned hp))⟩
  have hout : ∀ n, n ∉ M → s₃.color n = s.color n ∧ s₃.freed.count n = 0 ∧
      (G.pinned n = true → s₃.rc n = s.rc n) := fun n hn => by
    have hfreed : s₂.freed = 0 := ((hs.frame n).freed.trans (hm.frame n).freed).trans h.freed
    have ho := hc.outside n hn
    exact ⟨ho.1.trans (((hs.frame n).outside hn).trans ((hm.frame n).outside hn)),
      by simpa [hfreed] using ho.2.1,
      fun hp => ho.2.2.trans (((hs.frame n).pinned hp).trans ((hm.frame n).pinned hp))⟩
  have hkeep : ∀ n, ¬ G.Garbage M s.rc n → s₃.freed.count n = 0 ∧
      (G.pinned n = true → s₃.rc n = s.rc n) := fun n hn => by
    by_cases hnM : n ∈ M
    · exact (hrest n hnM hn).2
    · exact (hout n hnM).2
  -- the edges from the black nodes and those from the white ones are all
  have hsplit : ∀ x, (G.edgesFrom M (fun n => s₂.color n == .black) x : A) +
      G.edgesFrom M (fun n => s₂.color n == .white) x = G.edgesFrom M (fun _ => true) x :=
    fun x => by
      unfold Graph.edgesFrom
      rw [← Finset.sum_add_distrib]
      apply Finset.sum_congr rfl
      intro n hn
      by_cases hw : s₂.color n = .white
      · simp [hw]
      · simp [h.black_of_not_white hm hs hn hw]
  have hrc₂ : ∀ x, G.pinned x = false →
      s₂.rc x + G.edgesFrom M (fun n => s₂.color n == .white) x = s.rc x := fun x hx => by
    have h1 := hs.inv.sum x hx
    have h2 := hsplit x
    unfold Graph.external at h1
    linear_combination h1 + h2
  refine ⟨fun n => ?_, fun x hx => ?_, fun x hx hp p hp' => ?_, fun x hp => ?_,
    fun n hnM hn => (hrest n hnM hn).1, fun n hn => (hgarb n hn).1, fun n hn => (hout n hn).1⟩
  · by_cases hn : G.Garbage M s.rc n
    · rw [← Multiset.count_pos, (hgarb n hn).2]
      by_cases hl : G.listed n = true <;> simp [hl, hn]
    · rw [← Multiset.count_pos, (hkeep n hn).1]
      simp [hn]
  · by_cases hp : G.pinned x = true
    · have hg : ¬ G.Garbage M s.rc x := fun hg => by
        have := hg.2.1
        simp [hp] at this
      rw [(hkeep x hg).1, (hkeep x hg).2 hp]
      simp
    · have hp : G.pinned x = false := by simpa using hp
      have hfreed : s₂.freed = 0 := ((hs.frame x).freed.trans (hm.frame x).freed).trans h.freed
      have hsum := hc.sum x hp hx
      have hzero : (G.edgesFrom M (fun n => s₃.color n == .white) x : A) = 0 := by
        apply Finset.sum_eq_zero
        intro n hn
        simp [h.collected hm hs hc hn]
      rw [hzero, hfreed] at hsum
      have hrc := hrc₂ x hp
      simp only [Multiset.count_zero, Nat.cast_zero] at hsum
      linear_combination hsum + hrc
  · have hpw : (G.edgesFrom M p x : A) = G.edgesFrom M (fun n => s₂.color n == .white) x := by
      apply edgesFrom_congr
      intro n hn
      rw [Bool.eq_iff_iff, beq_iff_eq, hp' n hn, hwhite n hn]
    rw [(hc.frame x).unlisted hx, hpw]
    have hrc := hrc₂ x hp
    linear_combination hrc
  · have hg : ¬ G.Garbage M s.rc x := fun hg => by
      have := hg.2.1
      simp [hp] at this
    exact (hkeep x hg).2 hp

end Buffered

end PhpRuntime.Lib.TrialDeletion
