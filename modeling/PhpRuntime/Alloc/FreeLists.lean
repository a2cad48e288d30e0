import Mathlib.Data.Int.Notation
import Mathlib.Data.Nat.Notation

/-!
# The free lists of the memory manager

A small free block is in the list of its size, a large one in the tree of its highest bit. The
blocks of one size in a tree form a ring, of which one block is the node of the tree. A block
that is left over from a large allocation may wait in the list of the rest blocks.

The sizes are those of a 64-bit build without debugging, cookies and heap protection.
-/

set_option autoImplicit false

namespace PhpRuntime.Alloc

/-! ## Sizes -/

/-- `ZEND_MM_ALIGNED_MIN_HEADER_SIZE` -/
def alignedMinHeaderSize : ℕ := 32

/-- `ZEND_MM_NUM_BUCKETS` -/
def numBuckets : ℕ := 64

/-- `ZEND_MM_MAX_SMALL_SIZE` -/
def maxSmallSize : ℕ := 544

/-- `ZEND_MM_SMALL_SIZE` -/
abbrev SmallSize (trueSize : ℕ) : Prop := trueSize < maxSmallSize

/-- `ZEND_MM_BUCKET_INDEX` -/
def bucketIndex (trueSize : ℕ) : ℕ := trueSize / 8 - alignedMinHeaderSize / 8

/-- `zend_mm_high_bit` -/
def highBit (size : ℕ) : ℕ := Nat.log2 size

/-- `zend_mm_low_bit`. A word without bits, for which it has no value, gives 64. -/
def lowBit (size : BitVec 64) : ℕ := ((List.range 64).find? fun i => size.getLsbD i).getD 64

/-- `ZEND_MM_LARGE_BUCKET_INDEX` -/
def largeBucketIndex (size : ℕ) : ℕ := highBit size

/-! ## Memory -/

/-- `zend_mm_free_block *`. A list starts in the heap itself, at a place that is read as a block. -/
inductive Ptr where
  | null
  | block (b : ℕ)
  /-- `ZEND_MM_SMALL_FREE_BUCKET(heap, index)` -/
  | smallBucket (index : ℕ)
  /-- `ZEND_MM_REST_BUCKET(heap)` -/
  | restBucket
  deriving DecidableEq, Repr

/-- `zend_mm_free_block **` -/
inductive Slot where
  | null
  /-- `ZEND_MM_REST_BLOCK` -/
  | restBlock
  /-- `&heap->large_free_buckets[index]` -/
  | bucket (index : ℕ)
  /-- `&b->child[right]` -/
  | child (b : ℕ) (right : Bool)
  deriving DecidableEq, Repr

/-- `zend_mm_free_block`. The low bits of `size` and `prev` are the types of the blocks, which are
0 for a free block. -/
structure Block where
  size : ℕ
  prev : ℕ
  prevFreeBlock : Ptr
  nextFreeBlock : Ptr
  parent : Slot
  child0 : Ptr
  child1 : Ptr
  deriving DecidableEq, Repr

/-- The part of `zend_mm_heap` that is about the free blocks, with the memory. -/
structure FreeLists where
  mem : ℕ → Block
  freeBitmap : BitVec 64
  largeFreeBitmap : BitVec 64
  freeBuckets : ℕ → Ptr
  largeFreeBuckets : ℕ → Ptr
  restBuckets : ℕ → Ptr
  restCount : ℤ

namespace FreeLists

/-- `zend_mm_init` -/
def init (mem : ℕ → Block) : FreeLists where
  mem := mem
  freeBitmap := 0
  largeFreeBitmap := 0
  freeBuckets i := .smallBucket (i / 2)
  largeFreeBuckets _ := .null
  restBuckets _ := .restBucket
  restCount := 0

/-- `p->prev_free_block` -/
def prevFreeBlock (h : FreeLists) : Ptr → Ptr
  | .null => .null
  | .block b => (h.mem b).prevFreeBlock
  | .smallBucket i => h.freeBuckets (i * 2)
  | .restBucket => h.restBuckets 0

/-- `p->next_free_block` -/
def nextFreeBlock (h : FreeLists) : Ptr → Ptr
  | .null => .null
  | .block b => (h.mem b).nextFreeBlock
  | .smallBucket i => h.freeBuckets (i * 2 + 1)
  | .restBucket => h.restBuckets 1

/-- The block `b` is written. -/
def setBlock (h : FreeLists) (b : ℕ) (block : Block) : FreeLists :=
  { h with mem := fun x => if x = b then block else h.mem x }

/-- `p->prev_free_block = q`. Nothing is written through `NULL`. -/
def setPrevFreeBlock (h : FreeLists) (p q : Ptr) : Option FreeLists :=
  match p with
  | .null => none
  | .block b => some (h.setBlock b { h.mem b with prevFreeBlock := q })
  | .smallBucket i =>
    some { h with freeBuckets := fun x => if x = i * 2 then q else h.freeBuckets x }
  | .restBucket => some { h with restBuckets := fun x => if x = 0 then q else h.restBuckets x }

/-- `p->next_free_block = q` -/
def setNextFreeBlock (h : FreeLists) (p q : Ptr) : Option FreeLists :=
  match p with
  | .null => none
  | .block b => some (h.setBlock b { h.mem b with nextFreeBlock := q })
  | .smallBucket i =>
    some { h with freeBuckets := fun x => if x = i * 2 + 1 then q else h.freeBuckets x }
  | .restBucket => some { h with restBuckets := fun x => if x = 1 then q else h.restBuckets x }

/-- `*s`. There is no value at `NULL` and `ZEND_MM_REST_BLOCK`. -/
def read (h : FreeLists) : Slot → Ptr
  | .null => .null
  | .restBlock => .null
  | .bucket k => h.largeFreeBuckets k
  | .child b false => (h.mem b).child0
  | .child b true => (h.mem b).child1

/-- `*s = p` -/
def write (h : FreeLists) (s : Slot) (p : Ptr) : Option FreeLists :=
  match s with
  | .null => none
  | .restBlock => none
  | .bucket k =>
    some { h with largeFreeBuckets := fun x => if x = k then p else h.largeFreeBuckets x }
  | .child b false => some (h.setBlock b { h.mem b with child0 := p })
  | .child b true => some (h.setBlock b { h.mem b with child1 := p })

/-- `b->parent = s` -/
def setParent (h : FreeLists) (b : ℕ) (s : Slot) : FreeLists :=
  h.setBlock b { h.mem b with parent := s }

/-! ## Adding a block -/

/-- `mm_block` becomes the node at a link that is empty. -/
def linkNode (h : FreeLists) (b : ℕ) (p : Slot) : Option FreeLists := do
  let h ← h.write p (.block b)
  let h := h.setParent b p
  let h ← h.setNextFreeBlock (.block b) (.block b)
  h.setPrevFreeBlock (.block b) (.block b)

/-- The loop that looks for the size in the tree at `*p`. Its turns are counted from above. -/
def addToTree (b size : ℕ) : ℕ → BitVec 64 → Slot → FreeLists → Option FreeLists
  | 0, _, _, _ => none
  | n + 1, m, p, h =>
    match h.read p with
    | .block prev =>
      if (h.mem prev).size ≠ size then
        let p := Slot.child prev m.msb
        if h.read p = .null then h.linkNode b p else addToTree b size n (m <<< 1) p h
      else do
        let next := (h.mem prev).nextFreeBlock
        let h ← h.setPrevFreeBlock next (.block b)
        let h ← h.setNextFreeBlock (.block prev) (.block b)
        let h ← h.setNextFreeBlock (.block b) next
        let h ← h.setPrevFreeBlock (.block b) (.block prev)
        some (h.setParent b .null)
    | _ => none

/-- `zend_mm_add_to_free_list`, for a large block. A tree has no more than 65 levels. -/
def addLarge (h : FreeLists) (b : ℕ) : Option FreeLists := do
  let size := (h.mem b).size
  let index := largeBucketIndex size
  let p := Slot.bucket index
  let h ← h.write (.child b false) .null
  let h ← h.write (.child b true) .null
  if h.read p = .null then
    let h ← h.linkNode b p
    some { h with largeFreeBitmap := h.largeFreeBitmap ||| (1#64 <<< index) }
  else addToTree b size 65 (BitVec.ofNat 64 size <<< (numBuckets - index)) p h

/-- `zend_mm_add_to_free_list`, for a small block. -/
def addSmall (h : FreeLists) (b : ℕ) : Option FreeLists := do
  let index := bucketIndex (h.mem b).size
  let prev := Ptr.smallBucket index
  let h := if h.prevFreeBlock prev = prev then
    { h with freeBitmap := h.freeBitmap ||| (1#64 <<< index) } else h
  let next := h.nextFreeBlock prev
  let h ← h.setPrevFreeBlock (.block b) prev
  let h ← h.setNextFreeBlock (.block b) next
  let h ← h.setPrevFreeBlock next (.block b)
  h.setNextFreeBlock prev (.block b)

/-- `zend_mm_add_to_free_list` -/
def addToFreeList (h : FreeLists) (b : ℕ) : Option FreeLists :=
  if ¬ SmallSize (h.mem b).size then h.addLarge b else h.addSmall b

/-! ## Removing a block -/

/-- `b->child[b->child[1] != NULL]` -/
def lastChild (h : FreeLists) (b : ℕ) : Slot := .child b (h.read (.child b true) ≠ .null)

/-- The loop that goes down to a leaf, with `rp` and `prev`, which is `*rp`. -/
def findLeaf (h : FreeLists) : ℕ → Slot → ℕ → Option (Slot × ℕ)
  | 0, _, _ => none
  | n + 1, rp, prev =>
    match h.read (h.lastChild prev) with
    | .null => some (rp, prev)
    | .block c => findLeaf h n (h.lastChild prev) c
    | _ => none

/-- A child of `prev` is set. If there is one its parent is set. -/
def adopt (h : FreeLists) (prev : ℕ) (right : Bool) (child : Ptr) : Option FreeLists := do
  let h ← h.write (.child prev right) child
  match child with
  | .null => some h
  | .block c => some (h.setParent c (.child prev right))
  | _ => none

/-- The code at the label `subst_block` -/
def substBlock (h : FreeLists) (b prev : ℕ) : Option FreeLists := do
  let h ← h.write (h.mem b).parent (.block prev)
  let h := h.setParent prev (h.mem b).parent
  let h ← h.adopt prev false (h.read (.child b false))
  h.adopt prev true (h.read (.child b true))

/-- `zend_mm_remove_from_free_list`, for a block that is alone in its ring. -/
def removeNode (h : FreeLists) (b : ℕ) : Option FreeLists :=
  match h.read (h.lastChild b) with
  | .null => do
    let index := largeBucketIndex (h.mem b).size
    let parent := (h.mem b).parent
    let h ← h.write parent .null
    some (if parent = .bucket index then
      { h with largeFreeBitmap := h.largeFreeBitmap &&& ~~~(1#64 <<< index) } else h)
  | .block c => do
    let (rp, prev) ← h.findLeaf 65 (h.lastChild b) c
    let h ← h.write rp .null
    h.substBlock b prev
  | _ => none

/-- `zend_mm_remove_from_free_list`, for a block that is in a list with others. -/
def removeLinked (h : FreeLists) (b : ℕ) : Option FreeLists := do
  let prev := (h.mem b).prevFreeBlock
  let next := (h.mem b).nextFreeBlock
  let h ← h.setNextFreeBlock prev next
  let h ← h.setPrevFreeBlock next prev
  if SmallSize (h.mem b).size then
    let index := bucketIndex (h.mem b).size
    some (if prev = next ∧ h.freeBuckets (index * 2) = h.freeBuckets (index * 2 + 1) then
      { h with freeBitmap := h.freeBitmap &&& ~~~(1#64 <<< index) } else h)
  else if (h.mem b).parent = .restBlock then some { h with restCount := h.restCount - 1 }
  else if (h.mem b).parent ≠ .null then
    match prev with
    | .block prev => h.substBlock b prev
    | _ => none
  else some h

/-- `zend_mm_remove_from_free_list` -/
def removeFromFreeList (h : FreeLists) (b : ℕ) : Option FreeLists :=
  if (h.mem b).prevFreeBlock = .block b then h.removeNode b else h.removeLinked b

end FreeLists

end PhpRuntime.Alloc
