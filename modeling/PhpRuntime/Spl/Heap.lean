import PhpRuntime.Lib.BinaryHeap

/-!
# `spl_ptr_heap`

The heap of `ext/spl/spl_heap.c`. The state `σ` is the rest of the program: the comparator
may read and change it in any way, and so may `ctor` and `dtor`, which are called for an
element that comes in or goes out. The exception flag is read from it. A block of memory
holds anything before it is written, and an allocation that fails ends the program.
-/

set_option autoImplicit false

namespace PhpRuntime.Spl

open PhpRuntime.Lib.BinaryHeap

/-- `PTR_HEAP_BLOCK_SIZE`. -/
def ptrHeapBlockSize : ℕ := 64

/-- `SPL_HEAP_CORRUPTED`. -/
def splHeapCorrupted : ℕ := 1

/-- `spl_ptr_heap_cmp_func`, with the user data of the call. -/
abbrev CmpFunc (σ α υ : Type) := α → α → υ → σ → ℤ × σ

/-- `spl_ptr_heap`, for elements `α` and user data `υ`. -/
structure SplPtrHeap (σ α υ : Type) where
  elements : ℕ → α
  ctor : α → σ → σ
  dtor : α → σ → σ
  cmp : CmpFunc σ α υ
  count : ℕ
  max_size : ℕ
  flags : ℕ

variable {σ α υ : Type}

/-- `spl_ptr_heap_init`, in the memory `block`. -/
def splPtrHeapInit (block : ℕ → α) (cmp : CmpFunc σ α υ) (ctor dtor : α → σ → σ) :
    SplPtrHeap σ α υ where
  elements := block
  ctor := ctor
  dtor := dtor
  cmp := cmp
  count := 0
  max_size := ptrHeapBlockSize
  flags := 0

/-- The loop of `spl_ptr_heap_insert`: elements smaller than `elem` move down, and the hole
`i` moves up. -/
def siftUp (cmp : CmpFunc σ α υ) (elem : α) (userdata : υ) (elements : ℕ → α) (i : ℕ) (s : σ) :
    (ℕ → α) × ℕ × σ :=
  if 0 < i then
    let compared := cmp (elements ((i - 1) / 2)) elem userdata s
    if compared.1 < 0 then
      siftUp cmp elem userdata (Function.update elements i (elements ((i - 1) / 2))) ((i - 1) / 2)
        compared.2
    else (elements, i, compared.2)
  else (elements, i, s)
termination_by i

/-- The child of `i` that the loop of `spl_ptr_heap_delete_top` looks at. -/
def chooseChild (cmp : CmpFunc σ α υ) (count : ℕ) (userdata : υ) (elements : ℕ → α) (i : ℕ)
    (s : σ) : ℕ × σ :=
  let j := i * 2 + 1
  if j ≠ count then
    let compared := cmp (elements (j + 1)) (elements j) userdata s
    (if 0 < compared.1 then j + 1 else j, compared.2)
  else (j, s)

theorem chooseChild_fst (cmp : CmpFunc σ α υ) (count : ℕ) (userdata : υ) (elements : ℕ → α)
    (i : ℕ) (s : σ) :
    (chooseChild cmp count userdata elements i s).1 = 2 * i + 1 ∨
      (chooseChild cmp count userdata elements i s).1 = 2 * i + 2 := by
  unfold chooseChild
  dsimp only
  split
  · split <;> omega
  · omega

/-- The loop of `spl_ptr_heap_delete_top`: the larger child moves up, and the hole `i` moves
down as long as `bottom` is smaller. -/
def siftDown (cmp : CmpFunc σ α υ) (bottom : α) (count limit : ℕ) (userdata : υ)
    (elements : ℕ → α) (i : ℕ) (s : σ) : (ℕ → α) × ℕ × σ :=
  if i < limit then
    let child := chooseChild cmp count userdata elements i s
    let compared := cmp bottom (elements child.1) userdata child.2
    if compared.1 < 0 then
      siftDown cmp bottom count limit userdata
        (Function.update elements i (elements child.1)) child.1 compared.2
    else (elements, i, compared.2)
  else (elements, i, s)
termination_by limit - i
decreasing_by
  have h := chooseChild_fst cmp count userdata elements i s
  omega

namespace SplPtrHeap

/-- The growth of the memory at the start of `spl_ptr_heap_insert`. -/
def reserve (heap : SplPtrHeap σ α υ) : SplPtrHeap σ α υ :=
  if heap.max_size < heap.count + 1 then { heap with max_size := heap.max_size * 2 } else heap

/-- The flag that is set when the comparator has thrown. -/
def corruptIf (exception : Bool) (flags : ℕ) : ℕ :=
  if exception then flags ||| splHeapCorrupted else flags

/-- `spl_ptr_heap_insert`. `exception` reads `EG(exception)`. -/
def insert (exception : σ → Bool) (heap : SplPtrHeap σ α υ) (elem : α) (userdata : υ) (s : σ) :
    SplPtrHeap σ α υ × σ :=
  let heap := heap.reserve
  let s := heap.ctor elem s
  let (elements, i, s) := siftUp heap.cmp elem userdata heap.elements heap.count s
  ({ heap with
      elements := Function.update elements i elem
      count := heap.count + 1
      flags := corruptIf (exception s) heap.flags }, s)

/-- `spl_ptr_heap_top`. -/
def top (heap : SplPtrHeap σ α υ) : Option α :=
  if heap.count = 0 then none else some (heap.elements 0)

/-- `spl_ptr_heap_delete_top`. -/
def deleteTop (exception : σ → Bool) (heap : SplPtrHeap σ α υ) (userdata : υ) (s : σ) :
    Option α × SplPtrHeap σ α υ × σ :=
  let limit := (heap.count - 1) / 2
  if heap.count = 0 then (none, heap, s)
  else
    let top := heap.elements 0
    let count := heap.count - 1
    let bottom := heap.elements count
    let (elements, i, s) := siftDown heap.cmp bottom count limit userdata heap.elements 0 s
    (some top,
      { heap with
        elements := Function.update elements i bottom
        count := count
        flags := corruptIf (exception s) heap.flags },
      heap.dtor top s)

/-- `spl_ptr_heap_clone`: the new heap and the state after its elements are constructed. -/
def clone (heap : SplPtrHeap σ α υ) (s : σ) : SplPtrHeap σ α υ × σ :=
  ({ elements := heap.elements
     ctor := heap.ctor
     dtor := heap.dtor
     cmp := heap.cmp
     count := heap.count
     max_size := heap.max_size
     flags := heap.flags },
    (List.range heap.count).foldl (fun s i => heap.ctor (heap.elements i) s) s)

/-- The results of up to `n` calls of `spl_ptr_heap_delete_top`, until the heap is empty. -/
def drain (exception : σ → Bool) (userdata : υ) : ℕ → SplPtrHeap σ α υ → σ → List α
  | 0, _, _ => []
  | n + 1, heap, s =>
    let r := heap.deleteTop exception userdata s
    match r.1 with
    | none => []
    | some x => x :: drain exception userdata n r.2.1 r.2.2

def contents (heap : SplPtrHeap σ α υ) : Multiset α := bag heap.elements heap.count

end SplPtrHeap

end PhpRuntime.Spl
