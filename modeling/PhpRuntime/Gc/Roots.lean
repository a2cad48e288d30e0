import PhpRuntime.Gc.Termination

/-!
# The buffer of roots and the loops over it

The roots are a ring of slots through `GC_G(roots)`, the slots that were given back are a list
through `prev`. `gc_mark_roots`, `gc_scan_roots` and `gc_collect_roots` go round the ring; the
first gives back the slots of roots that are not purple, the last gives back all of them.
-/

set_option autoImplicit false

namespace PhpRuntime.Gc

open PhpRuntime.Lib PhpRuntime.Lib.TrialDeletion
open scoped UInt32.CommRing

def Root.node : Root → Node
  | .zval pz => .zval pz
  | .object h => .obj h

/-- The slots `r` are on the ring, the slots `u` in the list of unused ones. -/
structure Globals.Ring (s : Globals) (r u : List Slot) : Prop where
  seg : Seg (fun i => s.next (some i)) (fun i => s.prev (some i)) none r none
  first : s.next none = r.head?
  last : s.prev none = r.getLast?
  unused : Chain some none (fun i => s.prev (some i)) s.unused u
  nodup : (r ++ u).Nodup

/-- All but the cells and the links is as it was. -/
structure Globals.Keeps (s s' : Globals) : Prop where
  root : s'.root = s.root
  firstUnused : s'.firstUnused = s.firstUnused
  lastUnused : s'.lastUnused = s.lastUnused
  freeList : s'.freeList = s.freeList
  nextToFree : s'.nextToFree = s.nextToFree
  gcEnabled : s'.gcEnabled = s.gcEnabled
  gcActive : s'.gcActive = s.gcActive

variable {H : Heap} {M : Finset Node} {s s' : Globals} {d e u : List Slot} {i : Slot}
  {l : List ZvalPtr} {t : State Node UInt32} {fuel : ℕ}

theorem Globals.Keeps.refl (s : Globals) : s.Keeps s := ⟨rfl, rfl, rfl, rfl, rfl, rfl, rfl⟩

theorem Globals.Keeps.trans {s₁ : Globals} (h1 : s.Keeps s₁) (h2 : s₁.Keeps s') : s.Keeps s' where
  root := h2.root.trans h1.root
  firstUnused := h2.firstUnused.trans h1.firstUnused
  lastUnused := h2.lastUnused.trans h1.lastUnused
  freeList := h2.freeList.trans h1.freeList
  nextToFree := h2.nextToFree.trans h1.nextToFree
  gcEnabled := h2.gcEnabled.trans h1.gcEnabled
  gcActive := h2.gcActive.trans h1.gcActive

theorem Globals.keeps_removeFromBuffer (s : Globals) (i : Slot) : s.Keeps (s.removeFromBuffer i) :=
  ⟨rfl, rfl, rfl, rfl, rfl, rfl, rfl⟩

theorem Globals.keeps_cells (s : Globals) (c : Cells) : s.Keeps { s with cells := c } :=
  ⟨rfl, rfl, rfl, rfl, rfl, rfl, rfl⟩

theorem Globals.Ring.cells (h : s.Ring d u) (c : Cells) : Globals.Ring { s with cells := c } d u :=
  ⟨h.seg, h.first, h.last, h.unused, h.nodup⟩

/-- **A slot is given back.** -/
theorem Globals.Ring.remove (h : s.Ring (d ++ i :: e) u) :
    (s.removeFromBuffer i).Ring (d ++ e) (i :: u) ∧
      (s.removeFromBuffer i).next (some i) = e.head? := by
  have hnd : (d ++ i :: e).Nodup := (List.nodup_append.mp h.nodup).1
  have hdis := (List.nodup_append.mp h.nodup).2.2
  have hmid := Seg.at_middle h.seg
  simp only [Option.or_none] at hmid
  obtain ⟨hprev, hnext⟩ := hmid
  have hid : i ∉ d ∧ i ∉ e := by
    have hperm : (d ++ i :: e).Perm (i :: (d ++ e)) := List.perm_middle
    have hp := hperm.nodup_iff.mp hnd
    have := (List.nodup_cons.mp hp).1
    exact ⟨fun hc => this (List.mem_append_left _ hc), fun hc => this (List.mem_append_right _ hc)⟩
  have hne : s.next (some i) ≠ some i := fun hc => by
    rw [hnext] at hc
    exact hid.2 (List.mem_of_head? hc)
  have hne' : s.prev (some i) ≠ some i := fun hc => by
    rw [hprev] at hc
    exact hid.1 (List.mem_of_getLast? hc)
  have hn : ∀ x, (s.removeFromBuffer i).next x =
      if s.prev (some i) = x then s.next (some i) else s.next x := fun x => by
    simp only [Globals.removeFromBuffer, Function.update_apply, if_neg (Ne.symm hne)]
    by_cases hx : x = s.prev (some i)
    · rw [if_pos hx, if_pos hx.symm]
    · rw [if_neg hx, if_neg (Ne.symm hx)]
  have hp : ∀ x, x ≠ some i → (s.removeFromBuffer i).prev x =
      if s.next (some i) = x then s.prev (some i) else s.prev x := fun x hx => by
    simp only [Globals.removeFromBuffer, Function.update_apply, if_neg hx]
    by_cases hx' : x = s.next (some i)
    · rw [if_pos hx', if_pos hx'.symm]
    · rw [if_neg hx', if_neg (Ne.symm hx')]
  have hpi : (s.removeFromBuffer i).prev (some i) = s.unused := by
    simp [Globals.removeFromBuffer]
  have hmem : ∀ x ∈ d ++ e, some x ≠ some i := fun x hx hc => by
    rw [Option.some_inj] at hc
    subst hc
    cases List.mem_append.mp hx with
    | inl hx => exact hid.1 hx
    | inr hx => exact hid.2 hx
  refine ⟨⟨?_, ?_, ?_, ⟨rfl, ?_⟩, ?_⟩, ?_⟩
  · exact h.seg.erase hnd (fun x _ => hn (some x)) (fun x hx => hp (some x) (hmem x hx))
  · rw [hn, hprev, hnext, h.first]
    cases d with
    | nil => simp
    | cons c d => simp [List.getLast?_cons]
  · rw [hp none (by simp), hprev, hnext, h.last]
    cases e with
    | nil => simp
    | cons c e => simp [List.getLast?_append, List.getLast?_cons]
  · show Chain some none _ ((s.removeFromBuffer i).prev (some i)) u
    rw [hpi]
    apply Chain.congr h.unused
    intro x hx
    have hxi : some x ≠ some i := fun hc => by
      rw [Option.some_inj] at hc
      exact hdis i (by simp) x hx hc.symm
    rw [hp _ hxi, if_neg]
    rw [hnext]
    exact fun hc => hdis x (by simp [List.mem_of_head? hc]) x hx rfl
  · have hperm : (d ++ e ++ i :: u).Perm (d ++ i :: e ++ u) := by
      rw [List.append_assoc, List.append_assoc]
      exact (List.perm_middle.trans (by simp)).append_left d
    exact hperm.nodup_iff.mpr h.nodup
  · rw [hn, if_neg hne', hnext]

/-! ## Addresses that are given up -/

/-- A node keeps its address or gives up a slot. -/
structure Detached (s s' : Cells) : Prop where
  address : ∀ n, (s'.cell n).word.address = (s.cell n).word.address ∨
    (s.cell n).word.address.isSlot = true ∧ (s'.cell n).word.address = .null
  zvalToFree : s'.zvalToFree = s.zvalToFree

theorem Frame.detached {c c' : Cells} (h : Frame c c') : Detached c c' :=
  ⟨fun n => Or.inl (h.address n), h.zvalToFree⟩

theorem Detached.trans {c c₁ c' : Cells} (h1 : Detached c c₁) (h2 : Detached c₁ c') :
    Detached c c' where
  address n := by
    cases h2.address n with
    | inl h2 =>
      cases h1.address n with
      | inl h1 => exact Or.inl (h2.trans h1)
      | inr h1 => exact Or.inr ⟨h1.1, h2.trans h1.2⟩
    | inr h2 =>
      cases h1.address n with
      | inl h1 => exact Or.inr ⟨h1 ▸ h2.1, h2.2⟩
      | inr h1 =>
        rw [h1.2] at h2
        simp [Address.isSlot] at h2
  zvalToFree := h2.zvalToFree.trans h1.zvalToFree

/-- `GC_ZVAL_SET_ADDRESS(NULL)` or `GC_SET_ADDRESS(NULL)` at a node. -/
def Cells.detach (c : Cells) : Node → Cells
  | .zval pz => c.zvalSetAddress pz .null
  | .obj h => c.objSetAddress h .null

theorem view_detach (c : Cells) (n : Node) : (c.detach n).view l = (c.view l).unbuffer n := by
  cases n with
  | zval pz => exact view_zvalSetAddress rfl
  | obj h => exact view_objSetAddress rfl

theorem cell_detach (c : Cells) (n m : Node) :
    ((c.detach n).cell m).word = if m = n then ⟨.null, (c.cell n).word.color⟩
      else (c.cell m).word := by
  cases n with
  | zval pz =>
    rw [Cells.detach, Cells.zvalSetAddress, cell_zval]
    split <;> rfl
  | obj h =>
    rw [Cells.detach, Cells.objSetAddress, cell_obj]
    split <;> rfl

theorem zvalToFree_detach (c : Cells) (n : Node) : (c.detach n).zvalToFree = c.zvalToFree := by
  cases n <;> rfl

theorem detached_detach (c : Cells) (n : Node) (hn : (c.cell n).word.address.isSlot = true) :
    Detached c (c.detach n) := by
  refine ⟨fun m => ?_, zvalToFree_detach c n⟩
  rw [cell_detach]
  split
  · rename_i hm
    rw [hm]
    exact Or.inr ⟨hn, rfl⟩
  · exact Or.inl rfl

/-! ## The first loop -/

/-- Every root on `e` has a slot for its address, and objects come from the store. -/
def Buffers (H : Heap) (s : Globals) (e : List Slot) : Prop :=
  ∀ i ∈ e, (s.cells.cell (s.root i).node).word.address = .slot i ∧
    ∀ h, s.root i = .object h → H.objectBuckets = true

/-- The state between two rounds of `gc_mark_roots`. -/
structure Marking (H : Heap) (M : Finset Node) (l : List ZvalPtr) (s : Globals)
    (t : State Node UInt32) : Prop where
  view : t = s.cells.view l
  notGrey : ∀ n ∈ M, H.graph.pinned n = true → t.color n ≠ .grey

/-- One round of `gc_mark_roots` at a purple root. -/
theorem markRoot_purple (hM : H.Closed (M : Set Node)) (hm : Marking H M l s t)
    (hp : t.color (s.root i).node = .purple) (hr : (s.root i).node ∈ M)
    (hf : M.card < fuel) (ho : ∀ h, s.root i = .object h → H.objectBuckets = true) :
    ∃ c t₁, markRoot H fuel i s = some { s with cells := c } ∧
      (H.graph.mark UInt32).Visit (s.root i).node t t₁ ∧ Frame s.cells c ∧
      Marking H M l { s with cells := c } t₁ := by
  have hv : ViewedNotGrey H M s.cells l s.cells t := ⟨⟨hm.view, .refl _⟩, hm.notGrey⟩
  have hcard := Walk.Finishes.todoCount_le_card (W := H.graph.mark UInt32) (M := M) t
  simp only [markRoot]
  cases hroot : s.root i with
  | object h =>
    rw [hroot] at hp hr
    have hc : (s.cells.obj h).word.color = .purple := by rw [← hp, hm.view]; rfl
    obtain ⟨c, hc'⟩ := Option.isSome_iff_exists.mp
      (zobjMarkGrey_isSome hM hr hv (by omega : M.card ≤ fuel))
    obtain ⟨t₁, hvis, hv₁⟩ := zobjMarkGrey_visit hM hr hc' hv
    refine ⟨c, t₁, ?_, hvis, hv₁.1.2, ⟨hv₁.1.1, hv₁.2⟩⟩
    simp only [if_pos (ho h hroot), if_pos hc, hc', Option.map_some]
  | zval pz =>
    rw [hroot] at hp hr
    have hc : (s.cells.zval pz).word.color = .purple := by rw [← hp, hm.view]; rfl
    obtain ⟨c, hc'⟩ := Option.isSome_iff_exists.mp
      (zvalMarkGrey_isSome hM s.cells l fuel pz s.cells t hr hv (by omega))
    obtain ⟨t₁, hvis, hv₁⟩ := zvalMarkGrey_visit hM s.cells l fuel pz s.cells c t hr hc' hv
    refine ⟨c, t₁, ?_, hvis, hv₁.1.2, ⟨hv₁.1.1, hv₁.2⟩⟩
    simp only [if_pos hc, hc', Option.map_some]

/-- One round of `gc_mark_roots` at any other root. -/
theorem markRoot_other (fuel : ℕ) (hv : t = s.cells.view l) (hp : t.color (s.root i).node ≠ .purple)
    (ho : ∀ h, s.root i = .object h → H.objectBuckets = true) :
    markRoot H fuel i s =
      some ({ s with cells := s.cells.detach (s.root i).node }.removeFromBuffer i) := by
  subst hv
  simp only [markRoot]
  cases hroot : s.root i with
  | object h =>
    rw [hroot] at hp
    have hc : ¬ (s.cells.obj h).word.color = .purple := hp
    simp only [if_pos (ho h hroot), if_neg hc]
    rfl
  | zval pz =>
    rw [hroot] at hp
    have hc : ¬ (s.cells.zval pz).word.color = .purple := hp
    simp only [if_neg hc]
    rfl

/-- What `gc_mark_roots` does from the slots `d ++ e` of the ring, when it comes to `e`. -/
structure Marked (H : Heap) (M : Finset Node) (l : List ZvalPtr) (d e u : List Slot)
    (s s' : Globals) (t t' : State Node UInt32) (k u' : List Slot) : Prop where
  roots : H.graph.MarkRoots (e.map fun i => (s.root i).node) t (k.map fun i => (s.root i).node) t'
  marking : Marking H M l s' t'
  ring : s'.Ring (d ++ k) u'
  sublist : k.Sublist e
  perm : (d ++ k ++ u').Perm (d ++ e ++ u)
  detached : Detached s.cells s'.cells
  keeps : s.Keeps s'

theorem Buffers.of_mem {s₁ : Globals} (hb : Buffers H s e) (hroot : s₁.root = s.root)
    (ha : ∀ j ∈ e, (s₁.cells.cell (s.root j).node).word.address =
      (s.cells.cell (s.root j).node).word.address) : Buffers H s₁ e := fun j hj => by
  rw [hroot, ha j hj]
  exact hb j hj

theorem Buffers.tail (hb : Buffers H s (i :: e)) : Buffers H s e :=
  fun j hj => hb j (by simp [hj])

theorem Buffers.node_ne (hb : Buffers H s (i :: e)) (hnd : (i :: e).Nodup) :
    ∀ j ∈ e, (s.root j).node ≠ (s.root i).node := fun j hj hne => by
  have hi := (hb i (by simp)).1
  have hj' := (hb j (by simp [hj])).1
  rw [hne, hi] at hj'
  exact (List.nodup_cons.mp hnd).1 (Address.slot.inj hj' ▸ hj)

theorem markRootsFrom_spec (hM : H.Closed (M : Set Node)) (hb : Buffers H s e)
    (hring : s.Ring (d ++ e) u) (hm : Marking H M l s t)
    (hr : ∀ i ∈ e, t.color (s.root i).node = .purple → (s.root i).node ∈ M)
    (hf : e.length + M.card < fuel) :
    ∃ s' t' k u', markRootsFrom H fuel e.head? s = some s' ∧ Marked H M l d e u s s' t t' k u' := by
  induction e generalizing s t d u fuel with
  | nil =>
    refine ⟨s, t, [], u, by cases fuel <;> rfl, .nil t, hm, hring, .slnil, .refl _,
      (Frame.refl _).detached, .refl s⟩
  | cons i e ih =>
    obtain ⟨fuel, rfl⟩ : ∃ n, fuel = n + 1 := ⟨fuel - 1, by omega⟩
    rw [List.length_cons] at hf
    have hie : (i :: e).Nodup := by
      have := (List.nodup_append.mp hring.nodup).1
      exact (List.nodup_append.mp this).2.1
    have hnext : s.next (some i) = e.head? := by
      have := (Seg.at_middle hring.seg).2
      simpa using this
    by_cases hp : t.color (s.root i).node = .purple
    · obtain ⟨c, t₁, hstep, hvis, hfr, hm₁⟩ := markRoot_purple hM hm hp (hr i (by simp) hp)
        (by omega : M.card < fuel) (hb i (by simp)).2
      have hmono : ∀ n, t₁.color n = .purple → t.color n = .purple := fun n hn => by
        cases ((mark_preserves (M := M) hM n).visit hvis (hr i (by simp) hp)).2.color with
        | inl h => rw [← h]; exact hn
        | inr h => exact absurd (h.symm.trans hn) marked_ne_purple
      obtain ⟨s', t', k, u', hloop, hs'⟩ := ih (s := { s with cells := c }) (d := d ++ [i])
        (hb.tail.of_mem rfl fun j _ => hfr.address _) (by simpa using hring.cells c) hm₁
        (fun j hj hjp => hr j (by simp [hj]) (hmono _ hjp)) (by omega : e.length + M.card < fuel)
      refine ⟨s', t', i :: k, u', ?_, ?_, hs'.marking, ?_, hs'.sublist.cons_cons i, ?_,
        hfr.detached.trans hs'.detached, (s.keeps_cells c).trans hs'.keeps⟩
      · rw [List.head?_cons, markRootsFrom, hstep, Option.bind_some]
        show markRootsFrom H fuel (s.next (some i)) _ = _
        rw [hnext]
        exact hloop
      · exact .mark hp hvis hs'.roots
      · simpa using hs'.ring
      · simpa using hs'.perm
    · have hstep := markRoot_other fuel hm.view hp (hb i (by simp)).2
      have hring₁ := hring.cells (s.cells.detach (s.root i).node)
      have hrem := hring₁.remove
      have hslot : (s.cells.cell (s.root i).node).word.address.isSlot = true := by
        rw [(hb i (by simp)).1]
        rfl
      have hdet := detached_detach s.cells (s.root i).node hslot
      generalize hs₁ : ({ s with cells := s.cells.detach (s.root i).node } : Globals).removeFromBuffer
        i = s₁ at hstep hrem
      have hc₁ : s₁.cells = s.cells.detach (s.root i).node := by rw [← hs₁]; rfl
      have hk₁ : s.Keeps s₁ := by
        rw [← hs₁]
        exact (s.keeps_cells _).trans (Globals.keeps_removeFromBuffer _ i)
      have hb₁ : Buffers H s₁ e := hb.tail.of_mem hk₁.root fun j hj => by
        rw [hc₁, cell_detach, if_neg (hb.node_ne hie j hj)]
      have hm₁ : Marking H M l s₁ (t.unbuffer (s.root i).node) :=
        ⟨by rw [hc₁, view_detach, hm.view], hm.notGrey⟩
      have hr₁ : ∀ j ∈ e, (t.unbuffer (s.root i).node).color (s₁.root j).node = .purple →
          (s₁.root j).node ∈ M := fun j hj hjp => by
        rw [hk₁.root] at hjp ⊢
        exact hr j (by simp [hj]) hjp
      obtain ⟨s', t', k, u', hloop, hs'⟩ :=
        ih hb₁ hrem.1 hm₁ hr₁ (by omega : e.length + M.card < fuel)
      refine ⟨s', t', k, u', ?_, .drop hp ?_, hs'.marking, hs'.ring, hs'.sublist.cons i, ?_, ?_,
        hk₁.trans hs'.keeps⟩
      · rw [List.head?_cons, markRootsFrom, hstep, Option.bind_some, hrem.2]
        exact hloop
      · have hroots := hs'.roots
        rw [hk₁.root] at hroots
        exact hroots
      · apply hs'.perm.trans
        rw [List.append_assoc, List.append_assoc]
        exact (List.perm_middle.trans (by simp)).append_left d
      · rw [← hc₁] at hdet
        exact hdet.trans hs'.detached

/-! ## The second loop -/

/-- One round of `gc_scan_roots`. -/
theorem scanRoot_spec (hM : H.Closed (M : Set Node)) (hv : t = s.cells.view l)
    (hr : (s.root i).node ∈ M) (hf : 2 * M.card < fuel)
    (ho : ∀ h, s.root i = .object h → H.objectBuckets = true) :
    ∃ c t₁, scanRoot H fuel i s = some { s with cells := c } ∧
      (H.graph.scan UInt32).Visit (s.root i).node t t₁ ∧ Frame s.cells c ∧ t₁ = c.view l := by
  subst hv
  have hcard := Walk.Finishes.todoCount_le_card (W := H.graph.scan UInt32) (M := M)
    (s.cells.view l)
  simp only [scanRoot]
  cases hroot : s.root i with
  | object h =>
    rw [hroot] at hr
    obtain ⟨c, hc⟩ := Option.isSome_iff_exists.mp
      (zobjScan_isSome (s := s.cells) hM hr (by omega : 2 * M.card ≤ fuel))
    obtain ⟨hvis, hfr⟩ := zobjScan_visit (l := l) (ho h hroot) hc
    exact ⟨c, _, congrArg (Option.map _) hc, hvis, hfr, rfl⟩
  | zval pz =>
    rw [hroot] at hr
    obtain ⟨c, hc⟩ := Option.isSome_iff_exists.mp
      (zvalScan_isSome hM l fuel pz s.cells hr (by omega))
    obtain ⟨hvis, hfr⟩ := zvalScan_visit H l fuel pz s.cells c hc
    exact ⟨c, _, congrArg (Option.map _) hc, hvis, hfr, rfl⟩

/-- What `gc_scan_roots` does when it comes to the slots `e`. -/
theorem scanRootsFrom_spec (hM : H.Closed (M : Set Node)) (hb : Buffers H s e)
    (hring : s.Ring (d ++ e) u) (hv : t = s.cells.view l) (hr : ∀ i ∈ e, (s.root i).node ∈ M)
    (hf : e.length + 2 * M.card < fuel) :
    ∃ c t', scanRootsFrom H fuel e.head? s = some { s with cells := c } ∧
      H.graph.ScanRoots (e.map fun i => (s.root i).node) t t' ∧ Frame s.cells c ∧
      t' = c.view l := by
  induction e generalizing s t d fuel with
  | nil => exact ⟨s.cells, t, by cases fuel <;> rfl, .nil t, .refl _, hv⟩
  | cons i e ih =>
    obtain ⟨fuel, rfl⟩ : ∃ n, fuel = n + 1 := ⟨fuel - 1, by omega⟩
    rw [List.length_cons] at hf
    have hnext : s.next (some i) = e.head? := by
      have := (Seg.at_middle hring.seg).2
      simpa using this
    obtain ⟨c, t₁, hstep, hvis, hfr, hv₁⟩ := scanRoot_spec hM hv (hr i (by simp))
      (by omega : 2 * M.card < fuel) (hb i (by simp)).2
    obtain ⟨c', t', hloop, hroots, hfr', hv'⟩ := ih (s := { s with cells := c }) (d := d ++ [i])
      (hb.tail.of_mem rfl fun j _ => hfr.address _) (by simpa using hring.cells c) hv₁
      (fun j hj => hr j (by simp [hj])) (by omega : e.length + 2 * M.card < fuel)
    refine ⟨c', t', ?_, .cons hvis hroots, hfr.trans hfr', hv'⟩
    rw [List.head?_cons, scanRootsFrom, hstep, Option.bind_some]
    show scanRootsFrom H fuel (s.next (some i)) _ = _
    rw [hnext]
    exact hloop

/-! ## The third loop -/

theorem Collecting.detach {c : Cells} {n : Node} (hr : Collecting H (M : Set Node) l c)
    (hn : (c.cell n).word.address.isSlot = true) : Collecting H (M : Set Node) l (c.detach n) where
  freeList := by
    show Chain _ _ _ (c.detach n).zvalToFree l
    rw [zvalToFree_detach]
    apply Chain.congr hr.freeList
    intro p hp
    have hcell := cell_detach c n (.zval p)
    rw [if_neg] at hcell
    · exact congrArg Word.address hcell
    · intro hpn
      rw [← hpn] at hn
      exact hr.not_mem (Or.inr hn) hp
  zval_white p hpM hp := by
    have hcell := cell_detach c n (.zval p)
    change ((c.detach n).zval p).word = _ at hcell
    rw [hcell] at hp ⊢
    split at hp
    · rename_i hpn
      subst hpn
      rw [if_pos rfl]
      exact ⟨(hr.zval_white p hpM hp).1, Or.inl rfl⟩
    · rename_i hpn
      rw [if_neg hpn]
      exact hr.zval_white p hpM hp
  obj_white h hhM hh := by
    have hcell := cell_detach c n (.obj h)
    change ((c.detach n).obj h).word = _ at hcell
    rw [hcell] at hh ⊢
    split at hh
    · rename_i hhn
      rw [if_pos hhn]
      exact Or.inl rfl
    · rename_i hhn
      rw [if_neg hhn]
      exact hr.obj_white h hhM hh

/-- One round of `gc_collect_roots`. -/
theorem collectRoot_spec (hM : H.Closed (M : Set Node)) (hc : Collecting H (M : Set Node) l s.cells)
    (hr : (s.root i).node ∈ M) (hf : M.card < fuel)
    (ha : (s.cells.cell (s.root i).node).word.address.isSlot = true)
    (ho : ∀ h, s.root i = .object h → H.objectBuckets = true) :
    ∃ c l', collectRoot H fuel i s = some ({ s with cells := c }.removeFromBuffer i) ∧
      (H.graph.collect UInt32).Visit (s.root i).node
        ((s.cells.view l).unbuffer (s.root i).node) (c.view l') ∧
      Collecting H (M : Set Node) l' c := by
  have hdet := hc.detach ha
  simp only [collectRoot]
  rw [← view_detach]
  cases hroot : s.root i with
  | object h =>
    rw [hroot] at hr hdet
    have hb := ho h hroot
    obtain ⟨c, hc'⟩ := Option.isSome_iff_exists.mp
      (zobjCollectWhite_isSome hM hr hdet (by omega : M.card ≤ fuel))
    obtain ⟨l', hc₁, hvis⟩ := zobjCollectWhite_visit hM hr hb hc' hdet
    refine ⟨c, l', ?_, hvis, hc₁⟩
    simp only [if_pos hb]
    exact congrArg (Option.map _) hc'
  | zval pz =>
    rw [hroot] at hr hdet
    have hcard := Walk.Finishes.todoCount_le_card (W := H.graph.collect UInt32) (M := M)
      ((s.cells.detach (.zval pz)).view l)
    obtain ⟨c, hc'⟩ := Option.isSome_iff_exists.mp
      (zvalCollectWhite_isSome hM fuel pz _ _ hr ⟨l, rfl, hdet⟩ (hcard.trans_lt hf))
    obtain ⟨t', hvis, l', rfl, hc₁⟩ :=
      zvalCollectWhite_visit hM fuel pz _ _ _ hr hc' ⟨l, rfl, hdet⟩
    exact ⟨c, l', congrArg (Option.map _) hc', hvis, hc₁⟩

/-- What `gc_collect_roots` does when the slots `e` are left. -/
theorem collectRootsFrom_spec (hM : H.Closed (M : Set Node))
    (hc : Collecting H (M : Set Node) l s.cells) (hring : s.Ring e u)
    (ho : ∀ i ∈ e, ∀ h, s.root i = .object h → H.objectBuckets = true)
    (ha : ∀ i ∈ e, (s.cells.cell (s.root i).node).word.address.isSlot = true)
    (hnd : (e.map fun i => (s.root i).node).Nodup) (hr : ∀ i ∈ e, (s.root i).node ∈ M)
    (hf : e.length + M.card < fuel) :
    ∃ s' l', collectRootsFrom H fuel e.head? s = some s' ∧
      H.graph.CollectRoots (e.map fun i => (s.root i).node) (s.cells.view l) (s'.cells.view l') ∧
      Collecting H (M : Set Node) l' s'.cells ∧ s'.Ring [] (e.reverse ++ u) ∧ s.Keeps s' := by
  induction e generalizing s l u fuel with
  | nil => exact ⟨s, l, by cases fuel <;> rfl, .nil _, hc, hring, .refl s⟩
  | cons i e ih =>
    obtain ⟨fuel, rfl⟩ : ∃ n, fuel = n + 1 := ⟨fuel - 1, by omega⟩
    rw [List.length_cons] at hf
    rw [List.map_cons, List.nodup_cons] at hnd
    obtain ⟨c, l₁, hstep, hvis, hc₁⟩ := collectRoot_spec hM hc (hr i (by simp))
      (by omega : M.card < fuel) (ha i (by simp)) (ho i (by simp))
    have hrem := Globals.Ring.remove (d := []) (hring.cells c)
    generalize hs₁ : ({ s with cells := c } : Globals).removeFromBuffer i = s₁ at hstep hrem
    have hcells : s₁.cells = c := by rw [← hs₁]; rfl
    have hk₁ : s.Keeps s₁ := by
      rw [← hs₁]
      exact (s.keeps_cells _).trans (Globals.keeps_removeFromBuffer _ i)
    have ha₁ : ∀ j ∈ e, (s₁.cells.cell (s₁.root j).node).word.address.isSlot = true :=
      fun j hj => by
        have hbuf := congrFun ((collect_waits (s.root j).node).visit hvis trivial).1
          (s.root j).node
        rw [hk₁.root, hcells]
        have hne : (s.root j).node ≠ (s.root i).node := fun hne =>
          hnd.1 (hne ▸ List.mem_map_of_mem (f := fun i => (s.root i).node) hj)
        refine Eq.trans hbuf ?_
        simp only [State.unbuffer, Function.update_of_ne hne]
        exact ha j (by simp [hj])
    obtain ⟨s', l', hloop, hroots, hc', hring', hk'⟩ := ih (s := s₁) (hcells ▸ hc₁) hrem.1
      (fun j hj => by rw [hk₁.root]; exact ho j (by simp [hj])) ha₁
      (by rw [hk₁.root]; exact hnd.2) (fun j hj => by rw [hk₁.root]; exact hr j (by simp [hj]))
      (by omega : e.length + M.card < fuel)
    rw [hk₁.root, hcells] at hroots
    refine ⟨s', l', ?_, .cons hvis hroots, hc', by simpa using hring', hk₁.trans hk'⟩
    rw [List.head?_cons, collectRootsFrom, hstep, Option.bind_some, hrem.2]
    exact hloop

end PhpRuntime.Gc
