import Mathlib.Algebra.Group.Nat.Defs
import Mathlib.Data.Finset.Insert
import Mathlib.Data.Finset.Card
import Mathlib.Logic.Function.Basic
import Mathlib.Tactic.Simps.Basic

/-!
# The Zend hash table: its memory and its macros

`Zend/zend_hash.h` and the macros at the head of `Zend/zend_hash.c`. A table owns the
memory its buckets live in: `mem` gives the words at every address, `live` says which
addresses hold a bucket that was allocated and not freed yet. Freeing a block leaves
its words where they are, and a block handed out again holds whatever was left in it.

`ulong` is `UInt64`; `uint` is `ℕ` with the wrap-around written out (`nTableSize << 1`,
`nNumOfElements++`). A value is what `pData` points to, so
`INIT_DATA` and `UPDATE_DATA` are stores to `pData`; whether it sits in `pDataPtr` or in
a block of its own is not represented.
-/

set_option autoImplicit false

namespace PhpRuntime.Hash

abbrev Addr := ℕ

/-- A `const char *` that names a key: NULL, a string of the interned-string area (which
holds each string once, so the bytes identify the address), the bytes stored right
behind the bucket at `b`, or any other address. -/
inductive KeyPtr where
  | null
  | interned (s : List UInt8)
  | inline (b : Addr)
  | other (a : ℕ)
deriving DecidableEq, Repr

/-- `IS_INTERNED(s)`. -/
def KeyPtr.isInterned : KeyPtr → Bool
  | .interned _ => true
  | _ => false

/-- A key argument: the pointer and the `nKeyLength` bytes it points to. -/
structure KeyArg where
  arKey : KeyPtr
  bytes : List UInt8
deriving DecidableEq, Repr

/-- The argument `nKeyLength` that goes with a key. -/
def KeyArg.nKeyLength (k : KeyArg) : ℕ := k.bytes.length

/-- `Bucket` (zend_hash.h:54-64); `inlineKey` is the memory at `(char *)(p + 1)`. -/
structure Bucket (α : Type) where
  h : UInt64
  nKeyLength : ℕ
  pData : α
  pListNext : Option Addr
  pListLast : Option Addr
  pNext : Option Addr
  pLast : Option Addr
  arKey : KeyPtr
  inlineKey : List UInt8
deriving DecidableEq, Repr

/-- `HashTable` (zend_hash.h:66-82) with the memory of its buckets. `destroyed` records
the values handed to `pDestructor`, oldest first. -/
structure HashTable (α : Type) where
  nTableSize : ℕ
  nTableMask : ℕ
  nNumOfElements : ℕ
  nNextFreeElement : UInt64
  pInternalPointer : Option Addr
  pListHead : Option Addr
  pListTail : Option Addr
  arBuckets : ℕ → Option Addr
  mem : Addr → Bucket α
  live : Finset Addr
  destroyed : List α

/-- The two return codes. -/
inductive Status where
  | SUCCESS
  | FAILURE
deriving DecidableEq, Repr

/-- The allocator, as far as a table sees it: the address of the next block is a
function of the blocks in use, and never one of these. -/
structure Malloc where
  addr : Finset Addr → Addr
  fresh : ∀ s, addr s ∉ s

variable {α : Type}

namespace HashTable

/-- `p->field = value`: replace the bucket at `a`. -/
@[simps] def store (ht : HashTable α) (a : Addr) (f : Bucket α → Bucket α) : HashTable α :=
  { ht with mem := fun x => if x = a then f (ht.mem x) else ht.mem x }

/-- A store through a pointer that the code has tested against NULL. -/
@[simps] def storeAt (ht : HashTable α) (p : Option Addr) (f : Bucket α → Bucket α) :
    HashTable α :=
  { ht with mem := fun x => if p = some x then f (ht.mem x) else ht.mem x }

/-- `ht->arBuckets[i] = p`. -/
@[simps] def setBucket (ht : HashTable α) (i : ℕ) (p : Option Addr) : HashTable α :=
  { ht with arBuckets := Function.update ht.arBuckets i p }

/-- `if (last != NULL) last->pListNext = next; else ht->pListHead = next;`. -/
@[simps] def setListNext (ht : HashTable α) (last next : Option Addr) : HashTable α :=
  { ht with
    mem := fun x => if last = some x then { ht.mem x with pListNext := next } else ht.mem x
    pListHead := if last.isSome then ht.pListHead else next }

/-- `if (next != NULL) next->pListLast = last; else ht->pListTail = last;`. -/
@[simps] def setListLast (ht : HashTable α) (next last : Option Addr) : HashTable α :=
  { ht with
    mem := fun x => if next = some x then { ht.mem x with pListLast := last } else ht.mem x
    pListTail := if next.isSome then ht.pListTail else last }

/-- `if (last) last->pNext = next; else ht->arBuckets[i] = next;`. -/
@[simps] def setNext (ht : HashTable α) (i : ℕ) (last next : Option Addr) : HashTable α :=
  { ht with
    mem := fun x => if last = some x then { ht.mem x with pNext := next } else ht.mem x
    arBuckets := if last.isSome then ht.arBuckets else Function.update ht.arBuckets i next }

/-- `h & ht->nTableMask`. -/
def nIndex (ht : HashTable α) (h : UInt64) : ℕ := h.toNat &&& ht.nTableMask

/-- A walk that meets no bucket twice ends within this many steps. -/
def loopBound (ht : HashTable α) : ℕ := ht.live.card + 1

/-- `pemalloc(sizeof(Bucket), ..)`: the block keeps the words it last held. -/
def pemalloc (ht : HashTable α) (malloc : Malloc) : Addr × HashTable α :=
  (malloc.addr ht.live, { ht with live := insert (malloc.addr ht.live) ht.live })

/-- `pefree(p, ..)`. -/
@[simps] def pefree (ht : HashTable α) (p : Addr) : HashTable α :=
  { ht with live := ht.live.erase p }

/-- `ht->pDestructor(p->pData)` for a destructor that does not touch the table. -/
@[simps] def callDestructor (ht : HashTable α) (p : Addr) : HashTable α :=
  { ht with destroyed := ht.destroyed ++ [(ht.mem p).pData] }

/-- The `nKeyLength` bytes at `p->arKey`. -/
def keyBytes (ht : HashTable α) (p : Addr) : List UInt8 :=
  match (ht.mem p).arKey with
  | .interned s => s
  | .inline b => (ht.mem b).inlineKey
  | .null => []
  | .other _ => []

/-- `CONNECT_TO_BUCKET_DLLIST(element, list_head)` (zend_hash.c:25-30). -/
def connectToBucketDllist (ht : HashTable α) (element : Addr) (listHead : Option Addr) :
    HashTable α :=
  let ht := ht.store element fun b => { b with pNext := listHead, pLast := none }
  ht.storeAt listHead fun b => { b with pLast := some element }

/-- `CONNECT_TO_GLOBAL_DLLIST(element, ht)` (zend_hash.c:32-44). -/
def connectToGlobalDllist (ht : HashTable α) (element : Addr) : HashTable α :=
  let last := ht.pListTail
  let ht := ht.store element fun b => { b with pListLast := last, pListNext := none }
  let ht := ht.storeAt last fun b => { b with pListNext := some element }
  { ht with
    pListTail := some element
    pListHead := ht.pListHead.or (some element)
    pInternalPointer := ht.pInternalPointer.or (some element) }

/-- `CHECK_INIT(ht)` (zend_hash.c:147-152): the chain array is allocated, all NULL, by
the first insertion. -/
def checkInit (ht : HashTable α) : HashTable α :=
  if ht.nTableMask = 0 then
    { ht with arBuckets := fun _ => none, nTableMask := ht.nTableSize - 1 }
  else ht

end HashTable

/-- `*arKey++` as an `ulong`: the bytes are of a signed `char`. -/
def signExtend (c : UInt8) : UInt64 :=
  if c < 128 then c.toUInt64 else c.toUInt64 - 256

/-- `zend_inline_hash_func` (zend_hash.h:261-288), `hash = hash * 33 + c` from 5381. -/
def zendInlineHashFunc (arKey : List UInt8) : UInt64 :=
  arKey.foldl (fun hash c => ((hash <<< 5) + hash) + signExtend c) 5381

/-- `(long)h`. -/
def toLong (h : UInt64) : ℤ := h.toInt64.toInt

theorem toLong_eq (h : UInt64) :
    toLong h = if h.toNat < 9223372036854775808 then (h.toNat : ℤ)
      else (h.toNat : ℤ) - 18446744073709551616 := by
  have hb : toLong h = h.toBitVec.toInt := rfl
  have hn : h.toBitVec.toNat = h.toNat := rfl
  have hpow : ((2 ^ 64 : ℕ) : ℤ) = 18446744073709551616 := rfl
  rw [hb, BitVec.toInt_eq_toNat_cond, hn, hpow]
  split <;> split <;> omega

theorem toLong_injective {h h' : UInt64} (heq : toLong h = toLong h') : h = h' := by
  have hlt := h.toNat_lt
  have hlt' := h'.toNat_lt
  rw [toLong_eq, toLong_eq] at heq
  rw [← UInt64.toNat_inj]
  split at heq <;> split at heq <;> omega

/-- `LONG_MAX`. -/
def longMax : UInt64 := 0x7fffffffffffffff

end PhpRuntime.Hash
