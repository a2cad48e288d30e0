import Mathlib.Algebra.BigOperators.Ring.Finset
import PhpRuntime.Gc.Roots
import PhpRuntime.Lib.CycleCollection

/-!
# What the three phases do to a heap

A heap with exact reference counts and a buffer of roots goes through `gc_mark_roots`,
`gc_scan_roots` and `gc_collect_roots`. The list to free holds the garbage, and what is not
garbage is as it was, but for the references that the garbage holds to it.
-/

set_option autoImplicit false

namespace PhpRuntime.Gc

open PhpRuntime.Lib PhpRuntime.Lib.TrialDeletion
open scoped UInt32.CommRing

/-- Every count is the number of references from the zvals and objects of the heap, and
`ext n` more: variables, temporaries, and the entries of the symbol table itself, which
belong to no zval. -/
structure Exact (H : Heap) (N : Finset Node) (ext : Node → ℕ) (c : Cells) : Prop where
  closed : H.Closed (N : Set Node)
  count : ∀ n ∈ N, H.graph.pinned n = false →
    (c.cell n).refcount.toNat = ext n + ∑ m ∈ N, (H.graph.succ m).count n

/-- The slots `r` hold the buffered roots of the heap, the slots `u` were given back. Nothing
is grey or white, what is purple is buffered, and what is linked in the list to free of
another collection is referenced from there. -/
structure Rooted (H : Heap) (N : Finset Node) (ext : Node → ℕ) (s : Globals) (r u : List Slot) :
    Prop where
  ring : s.Ring r u
  buffers : Buffers H s r
  roots : ∀ i ∈ r, (s.root i).node ∈ N
  points : ∀ n ∈ N, ∀ i, (s.cells.cell n).word.address = .slot i → i ∈ r ∧ (s.root i).node = n
  color : ∀ n ∈ N, (s.cells.cell n).word.color = .black ∨
    (s.cells.cell n).word.color = .purple ∧ (s.cells.cell n).word.address.isSlot = true
  listed : ∀ n ∈ N, (s.cells.cell n).word.address.isSlot = false →
    (s.cells.cell n).word.address ≠ .null → 0 < ext n

/-- A node that can be reached from a purple root. -/
def FromPurple (H : Heap) (s : Globals) (r : List Slot) (n : Node) : Prop :=
  ∃ i ∈ r, (s.cells.cell (s.root i).node).word.color = .purple ∧
    H.graph.Reach (s.root i).node n

/-- A node that can be reached from a purple root, and from no node that is referenced from
outside the heap or that cannot itself be reached from a purple root. The zval of the symbol
table is never garbage. -/
def Garbage (H : Heap) (N : Finset Node) (ext : Node → ℕ) (s : Globals) (r : List Slot)
    (n : Node) : Prop :=
  FromPurple H s r n ∧ H.graph.pinned n = false ∧
    ∀ y ∈ N, 0 < ext y ∨ ¬ FromPurple H s r y → ¬ H.graph.Reach y n

variable {H : Heap} {N : Finset Node} {ext : Node → ℕ} {s : Globals} {r u : List Slot}
  {n : Node} {c : Cells} {l : List ZvalPtr} {fuel : ℕ}

/-! ## The garbage -/

section Purple

open Classical in
/-- The part of the heap that can be reached from the purple roots. -/
noncomputable def purplePart (H : Heap) (N : Finset Node) (s : Globals) (r : List Slot) :
    Finset Node :=
  N.filter (FromPurple H s r)

theorem mem_purplePart : n ∈ purplePart H N s r ↔ n ∈ N ∧ FromPurple H s r n := by
  classical
  exact Finset.mem_filter

theorem purplePart_card : (purplePart H N s r).card ≤ N.card := by
  classical
  exact Finset.card_filter_le ..

theorem purplePart_closed (hN : H.Closed (N : Set Node)) :
    H.Closed (purplePart H N s r : Set Node) := by
  intro v hv m hm
  obtain ⟨hvN, i, hi, hp, hr⟩ := mem_purplePart.mp hv
  exact mem_purplePart.mpr ⟨hN v hvN m hm, i, hi, hp, hr.tail hm⟩

theorem reach_mem (hN : H.Closed (N : Set Node)) {m : Node} (hm : m ∈ N)
    (hr : H.graph.Reach m n) : n ∈ N := by
  induction hr with
  | refl => exact hm
  | tail _ hc ih => exact hN _ ih _ hc

theorem Rooted.mem_of_fromPurple (hN : H.Closed (N : Set Node)) (h : Rooted H N ext s r u)
    (hn : FromPurple H s r n) : n ∈ purplePart H N s r := by
  obtain ⟨i, hi, hp, hr⟩ := hn
  exact mem_purplePart.mpr ⟨reach_mem hN (h.roots i hi) hr, i, hi, hp, hr⟩

/-- A count of references as a `zend_uint`. -/
theorem edgesFrom_cast (M : Finset Node) (n : Node) :
    (H.graph.edgesFrom M (fun _ => true) n : UInt32) =
      ((∑ m ∈ M, (H.graph.succ m).count n : ℕ) : UInt32) := by
  rw [Nat.cast_sum]
  simp [Graph.edgesFrom]

theorem natCast_eq_zero {k : ℕ} (hk : k < 2 ^ 32) : ((k : ℕ) : UInt32) = 0 ↔ k = 0 := by
  rw [← UInt32.toNat_inj]
  show (UInt32.ofNat k).toNat = 0 ↔ _
  rw [UInt32.toNat_ofNat', Nat.mod_eq_of_lt hk]

theorem natCast_toNat (x : UInt32) : ((x.toNat : ℕ) : UInt32) = x := UInt32.ofNat_toNat

theorem external_ne_zero (hx : Exact H N ext c) (hn : n ∈ purplePart H N s r)
    (hp : H.graph.pinned n = false) :
    H.graph.external (purplePart H N s r) (c.view l).rc n ≠ 0 ↔
      0 < ext n ∨ ∃ m ∈ N, ¬ FromPurple H s r m ∧ n ∈ H.graph.succ m := by
  classical
  set M := purplePart H N s r with hM
  have hMN : M ⊆ N := Finset.filter_subset ..
  have hsplit : ∑ m ∈ N, (H.graph.succ m).count n =
      ∑ m ∈ N \ M, (H.graph.succ m).count n + ∑ m ∈ M, (H.graph.succ m).count n :=
    (Finset.sum_sdiff hMN).symm
  have hcount := hx.count n (hMN hn) hp
  have hlt := (c.cell n).refcount.toNat_lt
  have hrc : (c.view l).rc n = (((c.cell n).refcount.toNat : ℕ) : UInt32) :=
    (natCast_toNat _).symm
  have hext : H.graph.external M (c.view l).rc n =
      ((ext n + ∑ m ∈ N \ M, (H.graph.succ m).count n : ℕ) : UInt32) := by
    unfold Graph.external
    rw [hrc, edgesFrom_cast, hcount, hsplit]
    push_cast
    ring
  rw [hext, ne_eq, natCast_eq_zero (by omega)]
  constructor
  · intro hne
    by_cases he : 0 < ext n
    · exact Or.inl he
    · have hpos : ∑ m ∈ N \ M, (H.graph.succ m).count n ≠ 0 := by omega
      obtain ⟨m, hm, hmn⟩ := Finset.exists_ne_zero_of_sum_ne_zero hpos
      rw [Finset.mem_sdiff] at hm
      refine Or.inr ⟨m, hm.1, fun hf => hm.2 (mem_purplePart.mpr ⟨hm.1, hf⟩), ?_⟩
      exact List.count_pos_iff.mp (Nat.pos_of_ne_zero hmn)
  · rintro (he | ⟨m, hmN, hmf, hmn⟩)
    · omega
    · have hm : m ∈ N \ M := Finset.mem_sdiff.mpr ⟨hmN, fun hc => hmf (mem_purplePart.mp hc).2⟩
      have hpos := List.count_pos_iff.mpr hmn
      have hle := Finset.single_le_sum (f := fun m => (H.graph.succ m).count n)
        (fun _ _ => Nat.zero_le _) hm
      omega

theorem eq_of_reach_pinned {y : Node} (hy : H.graph.pinned y = true) (hr : H.graph.Reach y n) :
    n = y := by
  cases hr.cases_head with
  | inl h => exact h.symm
  | inr h =>
    obtain ⟨m, hm, _⟩ := h
    rw [H.graph.leaf y hy] at hm
    simp at hm

theorem entry_of_reach (hN : H.Closed (N : Set Node)) {y : Node} (hy : y ∈ N)
    (hyf : ¬ FromPurple H s r y) (hr : H.graph.Reach y n) (hn : FromPurple H s r n) :
    ∃ z m, m ∈ N ∧ ¬ FromPurple H s r m ∧ z ∈ H.graph.succ m ∧ FromPurple H s r z ∧
      H.graph.Reach z n := by
  induction hr with
  | refl => exact absurd hn hyf
  | @tail b z hyb hz ih =>
    by_cases hb : FromPurple H s r b
    · obtain ⟨z', m, hm, hmf, hz', hz'f, hr'⟩ := ih hb
      exact ⟨z', m, hm, hmf, hz', hz'f, hr'.tail hz⟩
    · exact ⟨z, b, reach_mem hN hy hyb, hb, hz, hn, .refl⟩

/-- **The garbage of the heap is what trial deletion finds.** -/
theorem garbage_iff (hx : Exact H N ext c) (h : Rooted H N ext s r u) :
    H.graph.Garbage (purplePart H N s r) (c.view l).rc n ↔ Garbage H N ext s r n := by
  have hN := hx.closed
  constructor
  · rintro ⟨hn, hp, hg⟩
    refine ⟨(mem_purplePart.mp hn).2, hp, fun y hy hyo hr => ?_⟩
    by_cases hyf : FromPurple H s r y
    · have hyp : H.graph.pinned y = false := by
        by_contra hyp
        rw [Bool.not_eq_false] at hyp
        rw [eq_of_reach_pinned hyp hr, hyp] at hp
        simp at hp
      have hyM := mem_purplePart.mpr ⟨hy, hyf⟩
      apply hg y hyM hyp ((external_ne_zero hx hyM hyp).mpr (Or.inl ?_)) hr
      exact hyo.resolve_right (not_not.mpr hyf)
    · obtain ⟨z, m, hm, hmf, hzm, hzf, hr'⟩ :=
        entry_of_reach hN hy hyf hr (mem_purplePart.mp hn).2
      have hzp : H.graph.pinned z = false := by
        by_contra hzp
        rw [Bool.not_eq_false] at hzp
        rw [eq_of_reach_pinned hzp hr', hzp] at hp
        simp at hp
      have hzM := mem_purplePart.mpr ⟨hN m hm z hzm, hzf⟩
      exact hg z hzM hzp ((external_ne_zero hx hzM hzp).mpr (Or.inr ⟨m, hm, hmf, hzm⟩)) hr'
  · rintro ⟨hf, hp, hg⟩
    refine ⟨h.mem_of_fromPurple hN hf, hp, fun y hy hyp hne hr => ?_⟩
    cases (external_ne_zero hx hy hyp).mp hne with
    | inl he => exact hg y (mem_purplePart.mp hy).1 (Or.inl he) hr
    | inr ho =>
      obtain ⟨m, hm, hmf, hym⟩ := ho
      exact hg m hm (Or.inr hmf) (hr.head hym)

end Purple

/-! ## The three phases -/

def rootNodes (s : Globals) (r : List Slot) : List Node := r.map fun i => (s.root i).node

theorem Buffers.nodup (hb : Buffers H s r) (hnd : r.Nodup) : (rootNodes s r).Nodup := by
  apply List.Nodup.map_on _ hnd
  intro i hi j hj hij
  have hi' := (hb i hi).1
  rw [hij, (hb j hj).1] at hi'
  exact (Address.slot.inj hi').symm

theorem Address.exists_of_isSlot {a : Address} (ha : a.isSlot = true) : ∃ i, a = .slot i := by
  cases a with
  | slot i => exact ⟨i, rfl⟩
  | _ => simp [Address.isSlot] at ha

theorem Rooted.buffered (hN : H.Closed (N : Set Node)) (h : Rooted H N ext s r u) :
    Buffered H.graph (purplePart H N s r) (rootNodes s r) (s.cells.view []) where
  nodup := h.buffers.nodup (List.nodup_append.mp h.ring.nodup).1
  buffered n hn := by
    constructor
    · intro hb
      obtain ⟨i, hi⟩ := Address.exists_of_isSlot hb
      obtain ⟨hir, hin⟩ := h.points n (mem_purplePart.mp hn).1 i hi
      rw [← hin]
      exact List.mem_map_of_mem (f := fun i => (s.root i).node) hir
    · intro hm
      obtain ⟨i, hi, rfl⟩ := List.mem_map.mp hm
      show (s.cells.cell (s.root i).node).word.address.isSlot = true
      rw [(h.buffers i hi).1]
      rfl
  color n hn := (h.color n (mem_purplePart.mp hn).1).imp id And.left
  roots n hn hp := by
    obtain ⟨i, hi, rfl⟩ := List.mem_map.mp hn
    exact mem_purplePart.mpr ⟨h.roots i hi, i, hi, hp, .refl⟩
  closed := purplePart_closed hN
  reached n hn := by
    obtain ⟨-, i, hi, hp, hr⟩ := mem_purplePart.mp hn
    exact ⟨_, List.mem_map_of_mem (f := fun i => (s.root i).node) hi, hp, hr⟩
  freed := rfl

/-- **The three phases return**, and do what trial deletion does. -/
theorem gcCollect_outcome (hx : Exact H N ext s.cells) (h : Rooted H N ext s r u)
    (hf : r.length + 2 * N.card < fuel) :
    ∃ s' l u', gcCollect H fuel s = some s' ∧ s'.cells.FreeList l ∧
      Outcome H.graph (purplePart H N s r) (s.cells.view []) (s'.cells.view l) ∧
      s'.Ring [] u' ∧ u'.Perm (r ++ u) ∧ s.Keeps s' := by
  have hN := hx.closed
  set M := purplePart H N s r with hM
  have hMc : H.Closed (M : Set Node) := purplePart_closed hN
  have hcard : M.card ≤ N.card := purplePart_card
  have hbuf := h.buffered hN
  set s₀ : Globals := { s with cells := { s.cells with zvalToFree := .freeListEnd } } with hs₀
  have hk₀ : s.Keeps s₀ := ⟨rfl, rfl, rfl, rfl, rfl, rfl, rfl⟩
  have hview₀ : s₀.cells.view [] = s.cells.view [] := rfl
  have hring₀ : s₀.Ring ([] ++ r) u := h.ring.cells _
  have hb₀ : Buffers H s₀ r := h.buffers
  -- the first phase
  have hmark₀ : Marking H M [] s₀ (s.cells.view []) := by
    refine ⟨rfl, fun n hn _ => ?_⟩
    cases hbuf.color n hn with
    | inl hc => rw [hc]; simp
    | inr hc => rw [hc]; simp
  obtain ⟨s₁, t₁, k, u₁, hmark, hs₁⟩ := markRootsFrom_spec hMc hb₀ hring₀ hmark₀
    (fun i hi hp => hbuf.roots _ (List.mem_map_of_mem (f := fun i => (s.root i).node) hi) hp)
    (by omega : r.length + M.card < fuel)
  have hroots₁ : H.graph.MarkRoots (rootNodes s r) (s.cells.view []) (rootNodes s k) t₁ :=
    hs₁.roots
  have hspec₁ := MarkRoots.spec hMc hroots₁ hbuf.roots hbuf.nodup
  have hview₁ := hs₁.marking.view
  have hlen : k.length ≤ r.length := hs₁.sublist.length_le
  have hkM : ∀ i ∈ k, (s.root i).node ∈ M := fun i hi =>
    hbuf.roots _ (List.mem_map_of_mem (f := fun i => (s.root i).node) (hs₁.sublist.subset hi))
      (hspec₁.purple _ (List.mem_map_of_mem (f := fun i => (s.root i).node) hi))
  -- the roots that were kept still have their slots
  have haddr₁ : ∀ i ∈ k, (s₁.cells.cell (s.root i).node).word.address = .slot i := fun i hi => by
    have hir := hs₁.sublist.subset hi
    have hslot : (s₁.cells.cell (s.root i).node).word.address.isSlot = true := by
      have hb := hspec₁.buffered (s.root i).node
      have hmem : (s.root i).node ∈ rootNodes s k :=
        List.mem_map_of_mem (f := fun i => (s.root i).node) hi
      rw [hview₁] at hb
      refine hb.trans ?_
      simp only [hmem, decide_true, Bool.or_true, Bool.and_true]
      show (s.cells.cell (s.root i).node).word.address.isSlot = true
      rw [(h.buffers i hir).1]
      rfl
    cases hs₁.detached.address (s.root i).node with
    | inl ha => exact ha.trans (h.buffers i hir).1
    | inr ha =>
      rw [ha.2] at hslot
      simp [Address.isSlot] at hslot
  have hb₁ : Buffers H s₁ k := fun i hi => by
    rw [hs₁.keeps.root]
    exact ⟨haddr₁ i hi, (h.buffers i (hs₁.sublist.subset hi)).2⟩
  -- the second phase
  obtain ⟨c, t₂, hscan, hroots₂, hfr₂, hview₂⟩ := scanRootsFrom_spec hMc hb₁ hs₁.ring hview₁
    (fun i hi => by rw [hs₁.keeps.root]; exact hkM i hi) (by omega : k.length + 2 * M.card < fuel)
  rw [hs₁.keeps.root] at hroots₂
  have hkM' : ∀ n ∈ rootNodes s k, n ∈ M := fun n hn => by
    obtain ⟨i, hi, rfl⟩ := List.mem_map.mp hn
    exact hkM i hi
  have hspec₂ := ScanRoots.spec hMc hroots₂ hkM' (hbuf.scanInv hspec₁)
  -- a white node is garbage, and on no other list
  have hwhite : ∀ n ∈ M, (c.cell n).word.color = .white → H.graph.pinned n = false ∧
      ((c.cell n).word.address = .null ∨ (c.cell n).word.address.isSlot = true) := fun n hn hw => by
    have hg := (hbuf.white_iff hspec₁ hspec₂).mp ⟨hn, by rw [hview₂]; exact hw⟩
    refine ⟨hg.2.1, ?_⟩
    rw [hfr₂.address]
    cases hs₁.detached.address n with
    | inr ha => exact Or.inl ha.2
    | inl ha =>
      rw [ha]
      by_cases hsl : (s.cells.cell n).word.address.isSlot = true
      · exact Or.inr hsl
      · left
        by_contra hnull
        have hnN := (mem_purplePart.mp hn).1
        have hpos := h.listed n hnN (by simpa using hsl) hnull
        exact ((garbage_iff hx h).mp hg).2.2 n hnN (Or.inl hpos) .refl
  have hcol : Collecting H (M : Set Node) [] c := by
    refine ⟨?_, fun pz hpz => hwhite (.zval pz) hpz, fun o ho hw => (hwhite (.obj o) ho hw).2⟩
    show c.zvalToFree = .freeListEnd
    rw [hfr₂.zvalToFree, hs₁.detached.zvalToFree]
  -- the third phase
  have hnd : (k.map fun i => (s.root i).node).Nodup :=
    hbuf.nodup.sublist (hs₁.sublist.map _)
  obtain ⟨s', l, hcollect, hroots₃, hcol', hring', hk'⟩ := collectRootsFrom_spec
    (s := { s₁ with cells := c }) hMc hcol (hs₁.ring.cells c)
    (fun i hi => by
      show ∀ h, s₁.root i = _ → _
      rw [hs₁.keeps.root]
      exact (h.buffers i (hs₁.sublist.subset hi)).2)
    (fun i hi => by
      show (c.cell (s₁.root i).node).word.address.isSlot = true
      rw [hfr₂.address, hs₁.keeps.root, haddr₁ i hi]
      rfl)
    (by show (k.map fun i => (s₁.root i).node).Nodup; rw [hs₁.keeps.root]; exact hnd)
    (fun i hi => by show (s₁.root i).node ∈ M; rw [hs₁.keeps.root]; exact hkM i hi)
    (by omega : k.length + M.card < fuel)
  have hroots₃' : H.graph.CollectRoots (rootNodes s k) t₂ (s'.cells.view l) := by
    have hr := hroots₃
    change H.graph.CollectRoots (k.map fun i => (s₁.root i).node) (c.view []) _ at hr
    rw [hs₁.keeps.root, ← hview₂] at hr
    exact hr
  refine ⟨s', l, k.reverse ++ u₁, ?_, hcol'.freeList, hbuf.outcome hroots₁ hroots₂ hroots₃',
    hring', ?_, hk₀.trans (hs₁.keeps.trans ((s₁.keeps_cells c).trans hk'))⟩
  · rw [gcCollect, gcMarkRoots, hring₀.first, List.nil_append, hmark, Option.bind_some,
      gcScanRoots, hs₁.ring.first, List.nil_append, hscan, Option.bind_some, gcCollectRoots]
    show collectRootsFrom H fuel (s₁.next none) _ = _
    rw [hs₁.ring.first, List.nil_append]
    exact hcollect
  · exact ((List.reverse_perm k).append_right u₁).trans hs₁.perm

end PhpRuntime.Gc
