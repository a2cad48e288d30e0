import PhpRuntime.Gc.Collection

/-!
# Garbage and survivors

What a program sees of the three phases. On the list to free is the garbage, each zval once.
Everything else keeps its count and is black, an object loses the references that the
collected zvals hold to it, and the slots of the buffer are free again.
-/

set_option autoImplicit false

namespace PhpRuntime.Gc

open PhpRuntime.Lib PhpRuntime.Lib.TrialDeletion
open scoped UInt32.CommRing

variable {H : Heap} {N : Finset Node} {ext : Node → ℕ} {s s' : Globals} {r u : List Slot}
  {l : List ZvalPtr} {fuel : ℕ}

theorem mem_freeList_iff (hx : Exact H N ext s.cells) (h : Rooted H N ext s r u)
    (ho : Outcome H.graph (purplePart H N s r) (s.cells.view []) (s'.cells.view l))
    (pz : ZvalPtr) : pz ∈ l ↔ Garbage H N ext s r (.zval pz) := by
  have hf := (ho.freed (.zval pz)).2
  rw [garbage_iff hx h] at hf
  rw [← List.count_pos_iff, ← view_freed_count (s := s'.cells), Multiset.count_pos, hf]
  simp

theorem freeList_nodup
    (ho : Outcome H.graph (purplePart H N s r) (s.cells.view []) (s'.cells.view l)) :
    l.Nodup := by
  rw [List.nodup_iff_count_le_one]
  intro pz
  have hc := (ho.freed (.zval pz)).1
  rwa [view_freed_count] at hc

/-! ## What the collected zvals hold -/

/-- The references to an object from collected zvals. -/
def collectedRefs (H : Heap) (l : List ZvalPtr) (h : Handle) : ℕ :=
  (l.map fun pz => (H.graph.succ (.zval pz)).count (.obj h)).sum

theorem count_succ_obj (H : Heap) (k h : Handle) : (H.graph.succ (.obj k)).count (.obj h) = 0 := by
  apply List.count_eq_zero.mpr
  intro hm
  obtain ⟨_, _, hc⟩ := List.mem_map.mp hm
  simp at hc

theorem sum_garbage_eq (hx : Exact H N ext s.cells) (h : Rooted H N ext s r u)
    (ho : Outcome H.graph (purplePart H N s r) (s.cells.view []) (s'.cells.view l))
    {p : Node → Bool} (hp : ∀ n ∈ purplePart H N s r, p n = true ↔ Garbage H N ext s r n)
    (k : Handle) :
    ∑ n ∈ purplePart H N s r, (if p n then (H.graph.succ n).count (.obj k) else 0) =
      collectedRefs H l k := by
  have hnd : (l.map Node.zval).Nodup := (freeList_nodup ho).map Node.zval_injective
  have hsub : (l.map Node.zval).toFinset ⊆ purplePart H N s r := fun n hn => by
    obtain ⟨pz, hpz, rfl⟩ := List.mem_map.mp (List.mem_toFinset.mp hn)
    exact h.mem_of_fromPurple hx.closed ((mem_freeList_iff hx h ho pz).mp hpz).1
  rw [← Finset.sum_subset hsub, List.sum_toFinset _ hnd, List.map_map, collectedRefs]
  · congr 1
    apply List.map_congr_left
    intro pz hpz
    have hg := (mem_freeList_iff hx h ho pz).mp hpz
    show (if p (.zval pz) then _ else _) = _
    rw [if_pos ((hp _ (h.mem_of_fromPurple hx.closed hg.1)).mpr hg)]
  · intro n hn hnl
    cases n with
    | obj j => simp [count_succ_obj]
    | zval pz =>
      rw [if_neg]
      intro hpt
      apply hnl
      rw [List.mem_toFinset]
      exact List.mem_map_of_mem ((mem_freeList_iff hx h ho pz).mpr ((hp _ hn).mp hpt))

theorem object_refcount (hx : Exact H N ext s.cells) (h : Rooted H N ext s r u)
    (ho : Outcome H.graph (purplePart H N s r) (s.cells.view []) (s'.cells.view l))
    {k : Handle} (hk : .obj k ∈ N) :
    (s'.cells.obj k).refcount.toNat + collectedRefs H l k = (s.cells.obj k).refcount.toNat := by
  classical
  set M := purplePart H N s r
  have hp : ∀ n ∈ M, decide (Garbage H N ext s r n) = true ↔ Garbage H N ext s r n :=
    fun _ _ => decide_eq_true_iff
  have hsum := sum_garbage_eq hx h ho hp k
  have hrc := ho.unlisted (.obj k) rfl rfl (fun n => decide (Garbage H N ext s r n))
    fun n hn => (hp n hn).trans (garbage_iff hx h).symm
  have hcast : (H.graph.edgesFrom M (fun n => decide (Garbage H N ext s r n)) (.obj k) : UInt32) =
      ((collectedRefs H l k : ℕ) : UInt32) := by
    rw [← hsum, Nat.cast_sum]
    apply Finset.sum_congr rfl
    intro n _
    split <;> simp
  have hle : collectedRefs H l k ≤ (s.cells.obj k).refcount.toNat := by
    have hcount := hx.count (.obj k) hk rfl
    have hle₁ : collectedRefs H l k ≤ ∑ n ∈ M, (H.graph.succ n).count (.obj k) := by
      rw [← hsum]
      apply Finset.sum_le_sum
      intro n _
      split <;> simp
    have hle₂ : ∑ n ∈ M, (H.graph.succ n).count (.obj k) ≤
        ∑ n ∈ N, (H.graph.succ n).count (.obj k) :=
      Finset.sum_le_sum_of_subset (Finset.filter_subset ..)
    change (s.cells.obj k).refcount.toNat = _ at hcount
    omega
  have hlt := (s.cells.obj k).refcount.toNat_lt
  change (s'.cells.obj k).refcount = (s.cells.obj k).refcount - _ at hrc
  have htn : (((collectedRefs H l k : ℕ) : UInt32)).toNat = collectedRefs H l k := by
    show (UInt32.ofNat _).toNat = _
    rw [UInt32.toNat_ofNat', Nat.mod_eq_of_lt (by omega)]
  rw [hrc, hcast, UInt32.toNat_sub_of_le, htn]
  · omega
  · rw [UInt32.le_iff_toNat_le, htn]
    exact hle

/-! ## Two heaps -/

def oneRoot (zval : ZvalPtr → Cell) (obj : Handle → Cell) (root : Root) : Globals where
  cells := ⟨zval, obj, .null⟩
  next x := if x = none then some 0 else none
  prev x := if x = none then some 0 else none
  root _ := root
  unused := none
  firstUnused := 1
  lastUnused := 10000
  freeList := .null
  nextToFree := .null
  gcEnabled := true
  gcActive := false

theorem oneRoot_ring (zval : ZvalPtr → Cell) (obj : Handle → Cell) (root : Root) :
    (oneRoot zval obj root).Ring [0] [] := by
  refine ⟨?_, rfl, rfl, rfl, by decide⟩
  simp [oneRoot]

/-- An array that holds itself and an object zval; a variable holds the object, too. -/
def cycleAndObject : Heap where
  value pz := if pz = 0 then .array 0 else if pz = 1 ∨ pz = 2 then .object 7 else .scalar
  table ht := if ht = 0 then [0, 1] else []
  symbolTable := 1
  objectBuckets := true
  bucket h := if h = 7 then ⟨true, some ⟨[none], none⟩⟩ else ⟨false, none⟩

def cycleAndObjectRoots : Globals :=
  oneRoot (fun pz => if pz = 0 then ⟨1, ⟨.slot 0, .purple⟩⟩ else ⟨1, .init⟩)
    (fun h => if h = 7 then ⟨2, .init⟩ else ⟨0, .init⟩) (.zval 0)

def cycleAndObjectNodes : Finset Node := {.zval 0, .zval 1, .zval 2, .obj 7}

theorem cycleAndObject_exact :
    Exact cycleAndObject cycleAndObjectNodes (fun n => if n = .zval 2 then 1 else 0)
      cycleAndObjectRoots.cells := by
  refine ⟨?_, by decide⟩
  have hc : ∀ v ∈ cycleAndObjectNodes, ∀ c ∈ cycleAndObject.succ v, c ∈ cycleAndObjectNodes := by
    decide
  exact hc

theorem cycleAndObject_rooted :
    Rooted cycleAndObject cycleAndObjectNodes (fun n => if n = .zval 2 then 1 else 0)
      cycleAndObjectRoots [0] [] where
  ring := oneRoot_ring ..
  buffers := by simp [Buffers, cycleAndObjectRoots, oneRoot, Root.node, Cells.cell]
  roots := by decide
  points := by
    simp [cycleAndObjectNodes, cycleAndObjectRoots, oneRoot, Cells.cell, Root.node, Word.init]
  color := by decide
  listed := by decide

/-- An array that holds itself and a second array, which is empty. -/
def cycleAbove : Heap where
  value pz := if pz = 0 then .array 0 else if pz = 1 then .array 1 else .scalar
  table ht := if ht = 0 then [0, 1] else []
  symbolTable := 2
  objectBuckets := true
  bucket _ := ⟨false, none⟩

def cycleAboveRoots : Globals :=
  oneRoot (fun pz => if pz = 1 then ⟨1, ⟨.slot 0, .purple⟩⟩ else ⟨1, .init⟩)
    (fun _ => ⟨0, .init⟩) (.zval 1)

def cycleAboveNodes : Finset Node := {.zval 0, .zval 1}

theorem cycleAbove_exact : Exact cycleAbove cycleAboveNodes (fun _ => 0) cycleAboveRoots.cells := by
  refine ⟨?_, by decide⟩
  have hc : ∀ v ∈ cycleAboveNodes, ∀ c ∈ cycleAbove.succ v, c ∈ cycleAboveNodes := by
    decide
  exact hc

theorem cycleAbove_rooted :
    Rooted cycleAbove cycleAboveNodes (fun _ => 0) cycleAboveRoots [0] [] where
  ring := oneRoot_ring ..
  buffers := by simp [Buffers, cycleAboveRoots, oneRoot, Root.node, Cells.cell]
  roots := by decide
  points := by
    simp [cycleAboveNodes, cycleAboveRoots, oneRoot, Cells.cell, Root.node, Word.init]
  color := by decide
  listed := by decide

/-! ## The list to free -/

/-- **The list to free holds the garbage, each zval once.** Nothing that can be reached from
outside the heap is on it. -/
theorem zvalToFree_iff_garbage (hx : Exact H N ext s.cells) (h : Rooted H N ext s r u)
    (hf : r.length + 2 * N.card < fuel) :
    ∃ s' l, gcCollect H fuel s = some s' ∧ s'.cells.FreeList l ∧ l.Nodup ∧
      (∀ pz, pz ∈ l ↔ Garbage H N ext s r (.zval pz)) ∧
      ∀ y ∈ N, 0 < ext y → ∀ pz, H.graph.Reach y (.zval pz) → pz ∉ l := by
  obtain ⟨s', l, _, hc, hl, ho, -⟩ := gcCollect_outcome hx h hf
  refine ⟨s', l, hc, hl, freeList_nodup ho, mem_freeList_iff hx h ho, fun y hy he pz hr hpz => ?_⟩
  exact ((mem_freeList_iff hx h ho pz).mp hpz).2.2 y hy (Or.inl he) hr

theorem zvalToFree_cycleAndObject :
    ∃ s' l, gcCollect cycleAndObject 10 cycleAndObjectRoots = some s' ∧ s'.cells.FreeList l ∧
      l.Nodup ∧
      (∀ pz, pz ∈ l ↔ Garbage cycleAndObject cycleAndObjectNodes
        (fun n => if n = .zval 2 then 1 else 0) cycleAndObjectRoots [0] (.zval pz)) ∧
      ∀ y ∈ cycleAndObjectNodes, 0 < (if y = .zval 2 then 1 else 0) →
        ∀ pz, cycleAndObject.graph.Reach y (.zval pz) → pz ∉ l :=
  zvalToFree_iff_garbage cycleAndObject_exact cycleAndObject_rooted (by decide)

/-- An array that is only held by garbage is not collected when that garbage cannot be
reached from a purple root. -/
theorem cycleAbove_not_collected :
    ¬ ∀ (H : Heap) (N : Finset Node) (ext : Node → ℕ) (s : Globals) (r u : List Slot) (fuel : ℕ)
        (s' : Globals) (l : List ZvalPtr), Exact H N ext s.cells → Rooted H N ext s r u →
        gcCollect H fuel s = some s' → s'.cells.FreeList l →
        ∀ pz, pz ∈ l ↔ FromPurple H s r (.zval pz) ∧ H.isSymbolTable pz = false ∧
          ∀ y ∈ N, 0 < ext y → ¬ H.graph.Reach y (.zval pz) := by
  intro hall
  have hrun : (gcCollect cycleAbove 10 cycleAboveRoots).map (fun s' => s'.cells.zvalToFree) =
      some .freeListEnd := by decide +kernel
  obtain ⟨s', hs', hfree⟩ := Option.map_eq_some_iff.mp hrun
  have hmem := (hall cycleAbove cycleAboveNodes (fun _ => 0) cycleAboveRoots [0] [] 10 s' []
    cycleAbove_exact cycleAbove_rooted hs' hfree 1).mpr
    ⟨⟨0, by simp, by decide, .refl⟩, by decide, by simp⟩
  simp at hmem

/-- **What is not collected is restored.** -/
theorem survivors_restored (hx : Exact H N ext s.cells) (h : Rooted H N ext s r u)
    (hf : r.length + 2 * N.card < fuel) :
    ∃ s' l u', gcCollect H fuel s = some s' ∧ s'.cells.FreeList l ∧
      (∀ pz, .zval pz ∈ N → pz ∉ l →
        (s'.cells.zval pz).refcount = (s.cells.zval pz).refcount ∧
        (s'.cells.zval pz).word.color = .black) ∧
      (∀ k, .obj k ∈ N →
        (s'.cells.obj k).refcount.toNat + collectedRefs H l k =
          (s.cells.obj k).refcount.toNat) ∧
      (∀ k, .obj k ∈ N → ¬ Garbage H N ext s r (.obj k) →
        (s'.cells.obj k).word.color = .black) ∧
      s'.Ring [] u' ∧ u'.Perm (r ++ u) := by
  obtain ⟨s', l, u', hc, hl, ho, hring, hperm, -⟩ := gcCollect_outcome hx h hf
  have hblack : ∀ n ∈ N, ¬ Garbage H N ext s r n → (s'.cells.cell n).word.color = .black :=
    fun n hn hg => by
      by_cases hM : n ∈ purplePart H N s r
      · exact ho.color n hM (mt (garbage_iff hx h).mp hg)
      · have hsame := ho.outside n hM
        refine hsame.trans ?_
        cases h.color n hn with
        | inl hb => exact hb
        | inr hp =>
          -- a purple node is a root
          obtain ⟨i, hi⟩ := Address.exists_of_isSlot hp.2
          obtain ⟨hir, rfl⟩ := h.points n hn i hi
          exact absurd (mem_purplePart.mpr ⟨hn, i, hir, hp.1, .refl⟩) hM
  refine ⟨s', l, u', hc, hl, fun pz hpz hnl => ⟨?_, ?_⟩, fun k hk => object_refcount hx h ho hk,
    fun k hk hg => hblack _ hk hg, hring, hperm⟩
  · have hrc := ho.listed (.zval pz) rfl
    rw [view_freed_count, List.count_eq_zero.mpr hnl] at hrc
    simpa using hrc
  · exact hblack _ hpz (mt (mem_freeList_iff hx h ho pz).mpr hnl)

theorem survivors_cycleAndObject :
    ∃ s' l u', gcCollect cycleAndObject 10 cycleAndObjectRoots = some s' ∧
      s'.cells.FreeList l ∧
      (∀ pz, .zval pz ∈ cycleAndObjectNodes → pz ∉ l →
        (s'.cells.zval pz).refcount = (cycleAndObjectRoots.cells.zval pz).refcount ∧
        (s'.cells.zval pz).word.color = .black) ∧
      (∀ k, .obj k ∈ cycleAndObjectNodes →
        (s'.cells.obj k).refcount.toNat + collectedRefs cycleAndObject l k =
          (cycleAndObjectRoots.cells.obj k).refcount.toNat) ∧
      (∀ k, .obj k ∈ cycleAndObjectNodes →
        ¬ Garbage cycleAndObject cycleAndObjectNodes (fun n => if n = .zval 2 then 1 else 0)
          cycleAndObjectRoots [0] (.obj k) → (s'.cells.obj k).word.color = .black) ∧
      s'.Ring [] u' ∧ u'.Perm ([0] ++ []) :=
  survivors_restored cycleAndObject_exact cycleAndObject_rooted (by decide)

end PhpRuntime.Gc
