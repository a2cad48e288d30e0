import PhpRuntime.Alloc.Invariant
import PhpRuntime.Lib.DigitalSearch

/-!
# The search for a large block

The tree of the highest bit of a size is searched along the bits of the size and below the last
right child that is passed, and after it the next tree that is not empty.
-/

set_option autoImplicit false

namespace PhpRuntime.Alloc

open BinaryTree PhpRuntime.Lib.DigitalTree

/-! ## The function -/

/-- `best_fit` and `best_size` -/
structure Best where
  fit : Ptr
  size : ℕ

/-- A block is taken when it fits and is less than the best one. -/
def Best.consider (best : Best) (b size : ℕ) (fits : Prop) [Decidable fits] : Best :=
  if fits ∧ size < best.size then ⟨.block b, size⟩ else best

namespace FreeLists

/-- `p->child[p->child[0] != NULL]` -/
def firstChild (h : FreeLists) (b : ℕ) : Slot := .child b (h.read (.child b false) ≠ .null)

/-- The loop along the bits of the size: a block of the size itself, or `rst` and the best fit. Its
turns are counted from above. -/
def searchPath (h : FreeLists) (trueSize : ℕ) :
    ℕ → BitVec 64 → Ptr → Ptr → Best → Option (ℕ ⊕ Ptr × Best)
  | n + 1, m, .block p, rst, best =>
    if (h.mem p).size = trueSize then some (.inl p)
    else
      let best := best.consider p (h.mem p).size (trueSize ≤ (h.mem p).size)
      let child0 := h.read (.child p false)
      let child1 := h.read (.child p true)
      if m.msb = false then
        let rst := if child1 ≠ .null then child1 else rst
        if child0 ≠ .null then searchPath h trueSize n (m <<< 1) child0 rst best
        else some (.inr (rst, best))
      else if child1 ≠ .null then searchPath h trueSize n (m <<< 1) child1 rst best
      else some (.inr (rst, best))
  | _, _, _, _, _ => none

/-- The loop below `rst` -/
def searchRest (h : FreeLists) (trueSize : ℕ) : ℕ → Ptr → Best → Option (ℕ ⊕ Best)
  | _ + 1, .null, best => some (.inr best)
  | n + 1, .block p, best =>
    if (h.mem p).size = trueSize then some (.inl p)
    else searchRest h trueSize n (h.read (h.firstChild p))
      (best.consider p (h.mem p).size (trueSize < (h.mem p).size))
  | _, _, _ => none

/-- `while ((p = p->child[p->child[0] != NULL]))` -/
def searchSmallest (h : FreeLists) : ℕ → ℕ → ℕ → Option ℕ
  | 0, _, _ => none
  | n + 1, p, bestFit =>
    match h.read (h.firstChild p) with
    | .null => some bestFit
    | .block c =>
      searchSmallest h n c (if (h.mem c).size < (h.mem bestFit).size then c else bestFit)
    | _ => none

/-- `/* Search for smallest "large" free block */` -/
def smallestLarge (h : FreeLists) (index : ℕ) (bitmap : BitVec 64) : Option Ptr :=
  match h.largeFreeBuckets (index + lowBit bitmap) with
  | .block p => do
    let bestFit ← h.searchSmallest 65 p p
    some (h.nextFreeBlock (.block bestFit))
  | _ => none

def searchPassed (h : FreeLists) (trueSize index : ℕ) (bitmap : BitVec 64) (rst : Ptr)
    (best : Best) : Option Ptr := do
  match ← h.searchRest trueSize 65 rst best with
  | .inl p => some (h.nextFreeBlock (.block p))
  | .inr best =>
    if best.fit ≠ .null then some (h.nextFreeBlock best.fit)
    else if bitmap >>> 1 = 0 then some .null
    else h.smallestLarge (index + 1) (bitmap >>> 1)

/-- `zend_mm_search_large_block` -/
def searchLargeBlock (h : FreeLists) (trueSize : ℕ) : Option Ptr :=
  let index := largeBucketIndex trueSize
  let bitmap := h.largeFreeBitmap >>> index
  if bitmap = 0 then some .null
  else if bitmap.getLsbD 0 then do
    match ← h.searchPath trueSize 65 (BitVec.ofNat 64 trueSize <<< (numBuckets - index))
        (h.largeFreeBuckets index) .null ⟨.null, 2 ^ 64 - 1⟩ with
    | .inl p => some (h.nextFreeBlock (.block p))
    | .inr (rst, best) => h.searchPassed trueSize index bitmap rst best
  else h.smallestLarge index bitmap

end FreeLists

end PhpRuntime.Alloc
