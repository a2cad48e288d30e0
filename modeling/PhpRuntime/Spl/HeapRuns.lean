import PhpRuntime.Spl.HeapOrder

/-!
# Runs of SPL heaps

What the heaps hold along any sequence of `spl_ptr_heap_insert`, `spl_ptr_heap_delete_top`
and `spl_ptr_heap_clone`, with any comparator; and, when the comparator compares by a
total preorder, that every element is at most its parent, so that the elements come out
in order.
-/

set_option autoImplicit false

namespace PhpRuntime.Spl

open PhpRuntime.Lib.BinaryHeap

variable {σ α υ : Type}

/-- A heap with the elements that have been inserted into it and removed from it. A clone
starts with those of the heap it is cloned from. -/
structure Tracked (σ α υ : Type) where
  heap : SplPtrHeap σ α υ
  inserted : Multiset α
  removed : Multiset α

/-- The heaps of a run, and the rest of the program. -/
structure Session (σ α υ : Type) where
  heaps : List (Tracked σ α υ)
  state : σ

/-- One step of a run, on the heap with the index `k`. Between the operations the rest of the
program may do anything. -/
inductive Op (σ α υ : Type) where
  | insert (k : ℕ) (elem : α) (userdata : υ)
  | deleteTop (k : ℕ) (userdata : υ)
  | clone (k : ℕ)
  | elsewhere (s : σ)

def Tracked.insert (exception : σ → Bool) (t : Tracked σ α υ) (elem : α) (userdata : υ) (s : σ) :
    Tracked σ α υ where
  heap := (t.heap.insert exception elem userdata s).1
  inserted := elem ::ₘ t.inserted
  removed := t.removed

/-- The heap after its top is deleted; what `spl_ptr_heap_delete_top` returns is removed. -/
def Tracked.deleteTop (exception : σ → Bool) (t : Tracked σ α υ) (userdata : υ) (s : σ) :
    Tracked σ α υ where
  heap := (t.heap.deleteTop exception userdata s).2.1
  inserted := t.inserted
  removed := match (t.heap.deleteTop exception userdata s).1 with
    | none => t.removed
    | some x => x ::ₘ t.removed

/-- A step. One on a heap that there is not does nothing. -/
def Op.step (exception : σ → Bool) (S : Session σ α υ) : Op σ α υ → Session σ α υ
  | insert k elem userdata =>
    match S.heaps[k]? with
    | none => S
    | some t =>
      { heaps := S.heaps.set k (t.insert exception elem userdata S.state)
        state := (t.heap.insert exception elem userdata S.state).2 }
  | deleteTop k userdata =>
    match S.heaps[k]? with
    | none => S
    | some t =>
      { heaps := S.heaps.set k (t.deleteTop exception userdata S.state)
        state := (t.heap.deleteTop exception userdata S.state).2.2 }
  | clone k =>
    match S.heaps[k]? with
    | none => S
    | some t =>
      { heaps := S.heaps ++ [{ t with heap := (t.heap.clone S.state).1 }]
        state := (t.heap.clone S.state).2 }
  | elsewhere s => { S with state := s }

/-- A run starts with one heap from `spl_ptr_heap_init`. -/
def run (exception : σ → Bool) (block : ℕ → α) (cmp : CmpFunc σ α υ) (ctor dtor : α → σ → σ)
    (s : σ) (ops : List (Op σ α υ)) : Session σ α υ :=
  ops.foldl (Op.step exception)
    { heaps := [{ heap := splPtrHeapInit block cmp ctor dtor, inserted := 0, removed := 0 }]
      state := s }

theorem run_induction {P : Tracked σ α υ → Prop} (exception : σ → Bool) (block : ℕ → α)
    (cmp : CmpFunc σ α υ) (ctor dtor : α → σ → σ) (s : σ) (ops : List (Op σ α υ))
    (hinit : P { heap := splPtrHeapInit block cmp ctor dtor, inserted := 0, removed := 0 })
    (hinsert : ∀ t elem userdata s, P t → P (t.insert exception elem userdata s))
    (hdelete : ∀ t userdata s, P t → P (t.deleteTop exception userdata s)) :
    ∀ t ∈ (run exception block cmp ctor dtor s ops).heaps, P t := by
  have hstep : ∀ (S : Session σ α υ) (op : Op σ α υ), (∀ t ∈ S.heaps, P t) →
      ∀ t ∈ (op.step exception S).heaps, P t := by
    intro S op hS t ht
    cases op with
    | insert k elem userdata =>
      unfold Op.step at ht
      dsimp only at ht
      split at ht
      · exact hS t ht
      · rename_i t' hget
        rcases List.mem_or_eq_of_mem_set ht with hold | rfl
        · exact hS t hold
        · exact hinsert t' elem userdata S.state (hS t' (List.mem_of_getElem? hget))
    | deleteTop k userdata =>
      unfold Op.step at ht
      dsimp only at ht
      split at ht
      · exact hS t ht
      · rename_i t' hget
        rcases List.mem_or_eq_of_mem_set ht with hold | rfl
        · exact hS t hold
        · exact hdelete t' userdata S.state (hS t' (List.mem_of_getElem? hget))
    | clone k =>
      unfold Op.step at ht
      dsimp only at ht
      split at ht
      · exact hS t ht
      · rename_i t' hget
        rcases List.mem_append.mp ht with hold | hnew
        · exact hS t hold
        · rw [List.mem_singleton.mp hnew]
          exact hS t' (List.mem_of_getElem? hget)
    | elsewhere s => exact hS t ht
  have hfold : ∀ (ops : List (Op σ α υ)) (S : Session σ α υ), (∀ t ∈ S.heaps, P t) →
      ∀ t ∈ (ops.foldl (Op.step exception) S).heaps, P t := by
    intro ops
    induction ops with
    | nil => exact fun S hS => hS
    | cons op ops ih => exact fun S hS => ih _ (hstep S op hS)
  apply hfold
  intro t ht
  rw [List.mem_singleton.mp ht]
  exact hinit

namespace Tracked

variable (exception : σ → Bool) (t : Tracked σ α υ) (elem : α) (userdata : υ) (s : σ)

/-- The heap holds what was inserted and has not been removed. -/
def Balanced (t : Tracked σ α υ) : Prop := t.heap.contents + t.removed = t.inserted

theorem insert_balanced (h : t.Balanced) : (t.insert exception elem userdata s).Balanced := by
  unfold Balanced insert at *
  rw [SplPtrHeap.insert_contents, Multiset.cons_add, h]

theorem deleteTop_balanced (h : t.Balanced) : (t.deleteTop exception userdata s).Balanced := by
  unfold Balanced deleteTop at *
  dsimp only
  rw [t.heap.deleteTop_fst exception userdata s]
  by_cases hzero : t.heap.count = 0
  · rw [t.heap.deleteTop_of_empty exception userdata s hzero]
    simpa [SplPtrHeap.top, hzero] using h
  · rw [t.heap.top_of_nonempty hzero]
    rw [t.heap.deleteTop_contents exception userdata s hzero, Multiset.cons_add] at h
    rw [Multiset.add_cons, h]

end Tracked

theorem run_balanced (exception : σ → Bool) (block : ℕ → α) (cmp : CmpFunc σ α υ)
    (ctor dtor : α → σ → σ) (s : σ) (ops : List (Op σ α υ)) :
    ∀ t ∈ (run exception block cmp ctor dtor s ops).heaps, t.Balanced :=
  run_induction exception block cmp ctor dtor s ops rfl
    (fun t elem userdata s h => t.insert_balanced exception elem userdata s h)
    (fun t userdata s h => t.deleteTop_balanced exception userdata s h)

theorem run_ordered {le : α → α → Prop} [IsTrans α le] [Std.Total le] (exception : σ → Bool)
    (block : ℕ → α) {cmp : CmpFunc σ α υ} (hcmp : Compares cmp le) (ctor dtor : α → σ → σ) (s : σ)
    (ops : List (Op σ α υ)) :
    ∀ t ∈ (run exception block cmp ctor dtor s ops).heaps,
      Compares t.heap.cmp le ∧ Ordered le t.heap.elements t.heap.count := by
  refine run_induction (P := fun t => Compares t.heap.cmp le ∧
    Ordered le t.heap.elements t.heap.count) exception block cmp ctor dtor s ops ?_ ?_ ?_
  · exact ⟨hcmp, fun i hi hin => absurd hin (Nat.not_lt_zero i)⟩
  · rintro t elem userdata s ⟨hc, ho⟩
    refine ⟨?_, SplPtrHeap.insert_ordered exception elem userdata s hc ho⟩
    unfold Tracked.insert
    rw [SplPtrHeap.insert_cmp]
    exact hc
  · rintro t userdata s ⟨hc, ho⟩
    refine ⟨?_, SplPtrHeap.deleteTop_ordered exception userdata s hc ho⟩
    unfold Tracked.deleteTop
    rw [SplPtrHeap.deleteTop_cmp]
    exact hc

/-- A run that inserts 1 and 3, clones the heap, deletes the top and inserts 2. -/
def sampleOps : List (Op Unit ℤ Unit) :=
  [.insert 0 1 (), .insert 0 3 (), .clone 0, .deleteTop 0 (), .insert 0 2 ()]

def compareInts : CmpFunc Unit ℤ Unit := fun a b _ s => (a - b, s)

def sampleHeap : Option (Tracked Unit ℤ Unit) :=
  (run (fun _ => false) (fun _ => 0) compareInts (fun _ s => s) (fun _ s => s) ()
    sampleOps).heaps[0]?

end PhpRuntime.Spl
