import Mathlib.Data.UInt
import Mathlib.Logic.Function.Basic
import PhpRuntime.Lib.TrialDeletion

/-!
# The cycle collector: its memory and its macros

`Zend/zend_gc.h` and the parts of a zval and of the object store the collector looks at. A
`Heap` is what it only reads: the values of the zvals, the hash tables, and what the
`get_gc` handler returns for an object. `Cells` is what its walks write: the two reference
counts, the packed words, and the list of zvals to free. `Globals` adds the buffer of roots.

A packed word is an address with a colour in its two low bits. `GC_BLACK` is 0, so that a
plain address is a black word and `NULL | GC_WHITE` is a white word without an address.
Reference counts are `zend_uint`.
-/

set_option autoImplicit false

namespace PhpRuntime.Gc

open PhpRuntime.Lib.TrialDeletion (Color)

abbrev ZvalPtr := ℕ

abbrev TablePtr := ℕ

abbrev Handle := ℕ

/-- An index into `GC_G(buf)`. -/
abbrev Slot := ℕ

/-- The value of a zval, as far as the collector looks at it. -/
inductive Value where
  | scalar
  | array (ht : TablePtr)
  | object (handle : Handle)
deriving DecidableEq, Repr

/-- What `get_gc` returns: a table of zvals with NULL entries and perhaps a hash table. -/
structure Properties where
  table : List (Option ZvalPtr)
  props : Option TablePtr
deriving DecidableEq, Repr

/-- A bucket of the object store. -/
structure StoreBucket where
  valid : Bool
  getGc : Option Properties
deriving DecidableEq, Repr

/-- What the walks read. `table ht` is what `pListHead` and `pListNext` run through. -/
structure Heap where
  value : ZvalPtr → Value
  table : TablePtr → List ZvalPtr
  symbolTable : TablePtr
  objectBuckets : Bool
  bucket : Handle → StoreBucket

/-- A `gc_root_buffer *` or a `zval_gc_info *` without its two low bits. -/
inductive Address where
  | null
  | slot (i : Slot)
  | zval (p : ZvalPtr)
  | freeListEnd
deriving DecidableEq, Repr

def Address.isSlot : Address → Bool
  | .slot _ => true
  | _ => false

/-- `u.buffered` or `u.next` of a `zval_gc_info`, `buffered` of a `_store_object`. -/
structure Word where
  address : Address
  color : Color
deriving DecidableEq, Repr

attribute [ext] Word

/-- `GC_ZVAL_INIT`, `GC_OBJ_INIT`. -/
def Word.init : Word := ⟨.null, .black⟩

/-- `(gc_root_buffer*)GC_WHITE`. -/
def Word.white : Word := ⟨.null, .white⟩

/-- A counted cell: `zval_gc_info` or `_store_object`. -/
structure Cell where
  refcount : UInt32
  word : Word
deriving DecidableEq, Repr

/-- What the walks write. -/
structure Cells where
  zval : ZvalPtr → Cell
  obj : Handle → Cell
  zvalToFree : Address

namespace Cells

variable (s : Cells)

/-- `GC_ZVAL_SET_COLOR`. -/
def zvalSetColor (pz : ZvalPtr) (c : Color) : Cells :=
  { s with
    zval := Function.update s.zval pz
      { s.zval pz with word := { (s.zval pz).word with color := c } } }

/-- `GC_ZVAL_SET_ADDRESS`. -/
def zvalSetAddress (pz : ZvalPtr) (a : Address) : Cells :=
  { s with
    zval := Function.update s.zval pz
      { s.zval pz with word := { (s.zval pz).word with address := a } } }

/-- `pz->refcount__gc += d`. -/
def zvalAddRef (pz : ZvalPtr) (d : UInt32) : Cells :=
  { s with
    zval := Function.update s.zval pz { s.zval pz with refcount := (s.zval pz).refcount + d } }

/-- `GC_SET_COLOR(obj->buffered, c)`. -/
def objSetColor (h : Handle) (c : Color) : Cells :=
  { s with
    obj := Function.update s.obj h
      { s.obj h with word := { (s.obj h).word with color := c } } }

/-- `GC_SET_ADDRESS(obj->buffered, a)`. -/
def objSetAddress (h : Handle) (a : Address) : Cells :=
  { s with
    obj := Function.update s.obj h
      { s.obj h with word := { (s.obj h).word with address := a } } }

/-- `obj->refcount += d`. -/
def objAddRef (h : Handle) (d : UInt32) : Cells :=
  { s with
    obj := Function.update s.obj h { s.obj h with refcount := (s.obj h).refcount + d } }

/-- Restore the count of a zval and put it into the list to free. Its `u.next` takes the
place of `u.buffered`. -/
def putOnList (pz : ZvalPtr) : Cells :=
  { s with
    zval := Function.update s.zval pz
      ⟨(s.zval pz).refcount + 1, ⟨s.zvalToFree, .black⟩⟩
    zvalToFree := .zval pz }

end Cells

/-- `Z_TYPE_P(pz) == IS_ARRAY && Z_ARRVAL_P(pz) == &EG(symbol_table)`. -/
def Heap.isSymbolTable (H : Heap) (pz : ZvalPtr) : Bool :=
  match H.value pz with
  | .array ht => ht == H.symbolTable
  | _ => false

/-- The count of a zval a walk comes to, unless it is the symbol table. -/
def Heap.addRef (H : Heap) (d : UInt32) (pz : ZvalPtr) (s : Cells) : Cells :=
  if H.isSymbolTable pz then s else s.zvalAddRef pz d

/-- A root: a zval, or an object by its handle. -/
inductive Root where
  | zval (pz : ZvalPtr)
  | object (handle : Handle)
deriving DecidableEq, Repr

/-- `zend_gc_globals`. `next` and `prev` give the links of the slot `some i`, and of
`GC_G(roots)` itself at `none`; in the unused list, which uses `prev` only, `none` is NULL.
Slots from `firstUnused` to `lastUnused` were never used. -/
structure Globals where
  cells : Cells
  next : Option Slot → Option Slot
  prev : Option Slot → Option Slot
  root : Slot → Root
  unused : Option Slot
  firstUnused : Slot
  lastUnused : Slot
  freeList : Address
  nextToFree : Address
  gcEnabled : Bool
  gcActive : Bool

/-- `gc_remove_from_buffer`. -/
def Globals.removeFromBuffer (s : Globals) (root : Slot) : Globals :=
  let s := { s with prev := Function.update s.prev (s.next (some root)) (s.prev (some root)) }
  let s := { s with next := Function.update s.next (s.prev (some root)) (s.next (some root)) }
  { s with prev := Function.update s.prev (some root) s.unused, unused := some root }

end PhpRuntime.Gc
