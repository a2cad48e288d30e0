import PhpRuntime.Hash.Table

/-!
# The operations of the Zend hash table

`Zend/zend_hash.c`, function by function. A loop over a list or a chain takes its number
of steps from `loopBound`; the invariant shows that the walk reaches NULL within it.
An operation that allocates takes the allocator as an argument. Destructors, copy
constructors and apply callbacks do not touch the table: a destructor call is recorded
in `destroyed`, a copy constructor is a function on values, and an apply callback
answers, for its `n`-th call, with the value it leaves behind and its return flags.
-/

set_option autoImplicit false

namespace PhpRuntime.Hash

variable {α : Type}

/-- `HASH_UPDATE`, `HASH_ADD`, `HASH_NEXT_INSERT`. -/
inductive Flag where
  | HASH_UPDATE
  | HASH_ADD
  | HASH_NEXT_INSERT
deriving DecidableEq, Repr

/-- `HASH_DEL_KEY`, `HASH_DEL_INDEX`, `HASH_DEL_KEY_QUICK`. -/
inductive DelFlag where
  | HASH_DEL_KEY
  | HASH_DEL_INDEX
  | HASH_DEL_KEY_QUICK
deriving DecidableEq, Repr

/-- The exponent loop of `_zend_hash_init`: `while ((1U << i) < nSize) i++` from 3. -/
def initExponent (nSize : ℕ) : ℕ → ℕ → ℕ
  | 0, i => i
  | fuel + 1, i => if 2 ^ i < nSize then initExponent nSize fuel (i + 1) else i

/-- `_zend_hash_init` (zend_hash.c:156-184) over any memory. -/
def zendHashInit (mem : Addr → Bucket α) (nSize : ℕ) : HashTable α where
  nTableSize := if 0x80000000 ≤ nSize then 0x80000000 else 2 ^ initExponent nSize 29 3
  nTableMask := 0
  nNumOfElements := 0
  nNextFreeElement := 0
  pInternalPointer := none
  pListHead := none
  pListTail := none
  arBuckets := fun _ => none
  mem := mem
  live := ∅
  destroyed := []

namespace HashTable

/-- `while (p != NULL) { if (test) break; p = p->pNext; }`. -/
def chainFind (ht : HashTable α) (test : Addr → Bool) : ℕ → Option Addr → Option Addr
  | 0, _ => none
  | _ + 1, none => none
  | fuel + 1, some p => if test p then some p else ht.chainFind test fuel (ht.mem p).pNext

/-- The test for a string key: `p->arKey == arKey || ((p->h == h) && (p->nKeyLength ==
nKeyLength) && !memcmp(p->arKey, arKey, nKeyLength))`. -/
def matchesKey (ht : HashTable α) (key : KeyArg) (h : UInt64) (p : Addr) : Bool :=
  (ht.mem p).arKey == key.arKey ||
    ((ht.mem p).h == h && (ht.mem p).nKeyLength == key.nKeyLength &&
      ht.keyBytes p == key.bytes)

/-- The test for an integer key: `(p->nKeyLength == 0) && (p->h == h)`. -/
def matchesIndex (ht : HashTable α) (h : UInt64) (p : Addr) : Bool :=
  (ht.mem p).nKeyLength == 0 && (ht.mem p).h == h

/-- The test of `zend_hash_del_key_or_index`, which has no pointer shortcut. -/
def matchesDel (ht : HashTable α) (key : KeyArg) (h : UInt64) (p : Addr) : Bool :=
  (ht.mem p).h == h && (ht.mem p).nKeyLength == key.nKeyLength &&
    ((ht.mem p).nKeyLength == 0 || ht.keyBytes p == key.bytes)

def findKey (ht : HashTable α) (key : KeyArg) (h : UInt64) : Option Addr :=
  ht.chainFind (ht.matchesKey key h) ht.loopBound (ht.arBuckets (ht.nIndex h))

/-- The chain walk of the integer-key functions. -/
def findIndex (ht : HashTable α) (h : UInt64) : Option Addr :=
  ht.chainFind (ht.matchesIndex h) ht.loopBound (ht.arBuckets (ht.nIndex h))

/-- The loop of `zend_hash_rehash` (zend_hash.c:468-475). -/
def rehashLoop : ℕ → Option Addr → HashTable α → HashTable α
  | 0, _, ht => ht
  | _ + 1, none, ht => ht
  | fuel + 1, some p, ht =>
      let nIndex := ht.nIndex (ht.mem p).h
      let ht := ht.connectToBucketDllist p (ht.arBuckets nIndex)
      let ht := ht.setBucket nIndex (some p)
      rehashLoop fuel (ht.mem p).pListNext ht

/-- `zend_hash_rehash` (zend_hash.c:457-477). -/
def zendHashRehash (ht : HashTable α) : HashTable α :=
  if ht.nNumOfElements = 0 then ht
  else
    let ht := { ht with
      arBuckets := fun i => if i < ht.nTableSize then none else ht.arBuckets i }
    rehashLoop ht.loopBound ht.pListHead ht

/-- `zend_hash_do_resize` (zend_hash.c:432-455): no doubling once `nTableSize << 1`
wraps to 0. -/
def zendHashDoResize (ht : HashTable α) : HashTable α :=
  let nTableSize := (ht.nTableSize * 2) % 2 ^ 32
  if 0 < nTableSize then
    zendHashRehash { ht with nTableSize := nTableSize, nTableMask := nTableSize - 1 }
  else ht

/-- `ZEND_HASH_IF_FULL_DO_RESIZE(ht)`. -/
def ifFullDoResize (ht : HashTable α) : HashTable α :=
  if ht.nTableSize < ht.nNumOfElements then ht.zendHashDoResize else ht

/-- `if ((long)h >= (long)ht->nNextFreeElement) ..`. -/
def bumpNextFree (ht : HashTable α) (h : UInt64) : HashTable α :=
  if toLong ht.nNextFreeElement ≤ toLong h then
    { ht with nNextFreeElement := if h < longMax then h + 1 else longMax }
  else ht

/-- The update of a bucket that was found: destructor, then `UPDATE_DATA`. -/
def updateData (ht : HashTable α) (p : Addr) (pData : α) : HashTable α :=
  (ht.callDestructor p).store p fun b => { b with pData := pData }

/-- The new bucket of the string-key functions: `arKey` is the interned pointer itself or
points behind the bucket, where the bytes are copied. -/
def initKeyBucket (key : KeyArg) (h : UInt64) (pData : α) (p : Addr) (b : Bucket α) :
    Bucket α :=
  { b with
    arKey := if key.arKey.isInterned then key.arKey else .inline p
    inlineKey := if key.arKey.isInterned then b.inlineKey else key.bytes
    nKeyLength := key.nKeyLength
    pData := pData
    h := h }

/-- A filled bucket is put at the head of its chain and at the end of the list, and the
table is resized when it is full. -/
def linkBucket (ht : HashTable α) (p : Addr) (nIndex : ℕ) : HashTable α :=
  let ht := ht.connectToBucketDllist p (ht.arBuckets nIndex)
  let ht := ht.connectToGlobalDllist p
  ht.setBucket nIndex (some p)

/-- `ht->nNumOfElements++; ZEND_HASH_IF_FULL_DO_RESIZE(ht);`. -/
def countBucket (ht : HashTable α) : HashTable α :=
  ifFullDoResize { ht with nNumOfElements := (ht.nNumOfElements + 1) % 2 ^ 32 }

/-- The common body of `_zend_hash_add_or_update` and `_zend_hash_quick_add_or_update`,
from `CHECK_INIT` on. The last component is `pDest`: the bucket that holds the data. -/
def addOrUpdate (malloc : Malloc) (ht : HashTable α) (key : KeyArg) (h : UInt64) (pData : α)
    (flag : Flag) : HashTable α × Status × Option Addr :=
  let ht := ht.checkInit
  let nIndex := ht.nIndex h
  match ht.findKey key h with
  | some p =>
      if flag = .HASH_ADD then (ht, .FAILURE, none)
      else (ht.updateData p pData, .SUCCESS, some p)
  | none =>
      let (p, ht) := ht.pemalloc malloc
      let ht := ht.store p (initKeyBucket key h pData p)
      ((ht.linkBucket p nIndex).countBucket, .SUCCESS, some p)

/-- `_zend_hash_add_or_update` (zend_hash.c:195-272). -/
def zendHashAddOrUpdate (malloc : Malloc) (ht : HashTable α) (key : KeyArg) (pData : α)
    (flag : Flag) : HashTable α × Status × Option Addr :=
  if key.nKeyLength = 0 then (ht, .FAILURE, none)
  else ht.addOrUpdate malloc key (zendInlineHashFunc key.bytes) pData flag

/-- `_zend_hash_index_update_or_next_insert` (zend_hash.c:367-429). -/
def zendHashIndexUpdateOrNextInsert (malloc : Malloc) (ht : HashTable α) (h : UInt64)
    (pData : α) (flag : Flag) : HashTable α × Status × Option Addr :=
  let ht := ht.checkInit
  let h := if flag = .HASH_NEXT_INSERT then ht.nNextFreeElement else h
  let nIndex := ht.nIndex h
  match ht.findIndex h with
  | some p =>
      if flag = .HASH_NEXT_INSERT ∨ flag = .HASH_ADD then (ht, .FAILURE, none)
      else ((ht.updateData p pData).bumpNextFree h, .SUCCESS, some p)
  | none =>
      let (p, ht) := ht.pemalloc malloc
      let ht := ht.store p fun b =>
        { b with arKey := .null, nKeyLength := 0, h := h, pData := pData }
      (((ht.linkBucket p nIndex).bumpNextFree h).countBucket, .SUCCESS, some p)

/-- `_zend_hash_quick_add_or_update` (zend_hash.c:274-356). -/
def zendHashQuickAddOrUpdate (malloc : Malloc) (ht : HashTable α) (key : KeyArg) (h : UInt64)
    (pData : α) (flag : Flag) : HashTable α × Status × Option Addr :=
  if key.nKeyLength = 0 then ht.zendHashIndexUpdateOrNextInsert malloc h pData .HASH_UPDATE
  else ht.addOrUpdate malloc key h pData flag

/-- The removal of `p` from its chain, `p` being first in it when `p == arBuckets[nIndex]`,
as `zend_hash_del_key_or_index` and `zend_hash_update_current_key_ex` do it. -/
def unchain (ht : HashTable α) (p : Addr) (nIndex : ℕ) : HashTable α :=
  let next := (ht.mem p).pNext
  let last := (ht.mem p).pLast
  let ht := if ht.arBuckets nIndex = some p then ht.setBucket nIndex next
    else ht.storeAt last fun b => { b with pNext := next }
  ht.storeAt next fun b => { b with pLast := last }

/-- The removal of `p` from the list of all buckets, with the head, tail and internal
pointer of the table. -/
def unlist (ht : HashTable α) (p : Addr) : HashTable α :=
  let next := (ht.mem p).pListNext
  let last := (ht.mem p).pListLast
  let ht := (ht.setListNext last next).setListLast next last
  { ht with pInternalPointer :=
      if ht.pInternalPointer = some p then next else ht.pInternalPointer }

/-- The open-coded deletion of the bucket `p` (zend_hash.c:498-531 and twice in
`zend_hash_update_current_key_ex`). -/
def deleteBucket (ht : HashTable α) (p : Addr) (nIndex : ℕ) : HashTable α :=
  let ht := (ht.unchain p nIndex).unlist p
  let ht := (ht.callDestructor p).pefree p
  { ht with nNumOfElements := ht.nNumOfElements - 1 }

/-- `zend_hash_del_key_or_index` (zend_hash.c:479-538); an index deletion passes a NULL
key of length 0. -/
def zendHashDelKeyOrIndex (ht : HashTable α) (key : KeyArg) (h : UInt64) (flag : DelFlag) :
    HashTable α × Status :=
  let h := if flag = .HASH_DEL_KEY then zendInlineHashFunc key.bytes else h
  let nIndex := ht.nIndex h
  match ht.chainFind (ht.matchesDel key h) ht.loopBound (ht.arBuckets nIndex) with
  | some p => (ht.deleteBucket p nIndex, .SUCCESS)
  | none => (ht, .FAILURE)

/-- `zend_hash_index_del(ht, h)`. -/
def zendHashIndexDel (ht : HashTable α) (h : UInt64) : HashTable α × Status :=
  ht.zendHashDelKeyOrIndex ⟨.null, []⟩ h .HASH_DEL_INDEX

/-- The loop of `zend_hash_clean` that destroys and frees every bucket. -/
def cleanLoop : ℕ → Option Addr → HashTable α → HashTable α
  | 0, _, ht => ht
  | _ + 1, none, ht => ht
  | fuel + 1, some q, ht => cleanLoop fuel (ht.mem q).pListNext ((ht.callDestructor q).pefree q)

/-- `zend_hash_clean` (zend_hash.c:577-603). -/
def zendHashClean (ht : HashTable α) : HashTable α :=
  let p := ht.pListHead
  let arBuckets := if ht.nTableMask = 0 then ht.arBuckets
    else fun i => if i < ht.nTableSize then none else ht.arBuckets i
  cleanLoop ht.loopBound p { ht with
    arBuckets := arBuckets
    pListHead := none
    pListTail := none
    nNumOfElements := 0
    nNextFreeElement := 0
    pInternalPointer := none }

/-- The chain part of `zend_hash_apply_deleter`: `p` is first in its chain when it has no
`pLast`. -/
def unchainByLast (ht : HashTable α) (p : Addr) : HashTable α :=
  let next := (ht.mem p).pNext
  let last := (ht.mem p).pLast
  let ht := ht.setNext (ht.nIndex (ht.mem p).h) last next
  ht.storeAt next fun b => { b with pLast := last }

/-- `zend_hash_apply_deleter` (zend_hash.c:610-659); the second component is the address
it returns, `p->pListNext` read before the bucket is freed. -/
def zendHashApplyDeleter (ht : HashTable α) (p : Addr) : HashTable α × Option Addr :=
  let ht := (ht.unchainByLast p).unlist p
  let ht := { ht with nNumOfElements := ht.nNumOfElements - 1 }
  let ht := ht.callDestructor p
  let retval := (ht.mem p).pListNext
  (ht.pefree p, retval)

/-- The loop of `zend_hash_graceful_destroy` (zend_hash.c:668-671). -/
def gracefulDestroyLoop : ℕ → Option Addr → HashTable α → HashTable α
  | 0, _, ht => ht
  | _ + 1, none, ht => ht
  | fuel + 1, some p, ht =>
      let (ht, next) := ht.zendHashApplyDeleter p
      gracefulDestroyLoop fuel next ht

/-- `zend_hash_graceful_destroy` up to the release of `arBuckets`. -/
def zendHashGracefulDestroy (ht : HashTable α) : HashTable α :=
  gracefulDestroyLoop ht.loopBound ht.pListHead ht

/-- The loop of `zend_hash_graceful_reverse_destroy` (zend_hash.c:685-689). -/
def gracefulReverseDestroyLoop : ℕ → HashTable α → HashTable α
  | 0, ht => ht
  | fuel + 1, ht =>
      match ht.pListTail with
      | none => ht
      | some p => gracefulReverseDestroyLoop fuel (ht.zendHashApplyDeleter p).1

/-- `zend_hash_graceful_reverse_destroy` up to the release of `arBuckets`. -/
def zendHashGracefulReverseDestroy (ht : HashTable α) : HashTable α :=
  gracefulReverseDestroyLoop ht.loopBound ht

end HashTable

/-- What an apply callback answers: the value it leaves in `*pDest` and the bits
`ZEND_HASH_APPLY_REMOVE` and `ZEND_HASH_APPLY_STOP` of its result. -/
structure ApplyResult (α : Type) where
  pDest : α
  remove : Bool
  stop : Bool

namespace HashTable

/-- The loop of `zend_hash_apply` (zend_hash.c:713-724); `n` counts the calls made. -/
def applyLoop (applyFunc : ℕ → α → ApplyResult α) :
    ℕ → ℕ → Option Addr → HashTable α → HashTable α
  | 0, _, _, ht => ht
  | _ + 1, _, none, ht => ht
  | fuel + 1, n, some p, ht =>
      let result := applyFunc n (ht.mem p).pData
      let ht := ht.store p fun b => { b with pData := result.pDest }
      let (ht, next) := if result.remove then ht.zendHashApplyDeleter p
        else (ht, (ht.mem p).pListNext)
      if result.stop then ht else applyLoop applyFunc fuel (n + 1) next ht

/-- `zend_hash_apply` (zend_hash.c:706-726), and its two variants with arguments, which
differ only in what the callback is given. -/
def zendHashApply (ht : HashTable α) (applyFunc : ℕ → α → ApplyResult α) : HashTable α :=
  applyLoop applyFunc ht.loopBound 0 ht.pListHead ht

/-- The loop of `zend_hash_reverse_apply` (zend_hash.c:794-807). -/
def reverseApplyLoop (applyFunc : ℕ → α → ApplyResult α) :
    ℕ → ℕ → Option Addr → HashTable α → HashTable α
  | 0, _, _, ht => ht
  | _ + 1, _, none, ht => ht
  | fuel + 1, n, some q, ht =>
      let result := applyFunc n (ht.mem q).pData
      let ht := ht.store q fun b => { b with pData := result.pDest }
      let next := (ht.mem q).pListLast
      let ht := if result.remove then (ht.zendHashApplyDeleter q).1 else ht
      if result.stop then ht else reverseApplyLoop applyFunc fuel (n + 1) next ht

/-- `zend_hash_reverse_apply` (zend_hash.c:786-809). -/
def zendHashReverseApply (ht : HashTable α) (applyFunc : ℕ → α → ApplyResult α) :
    HashTable α :=
  reverseApplyLoop applyFunc ht.loopBound 0 ht.pListTail ht

/-- `zend_hash_find` (zend_hash.c:913-933). -/
def zendHashFind (ht : HashTable α) (key : KeyArg) : Option α :=
  (ht.findKey key (zendInlineHashFunc key.bytes)).map fun p => (ht.mem p).pData

/-- `zend_hash_index_find` (zend_hash.c:1005-1024). -/
def zendHashIndexFind (ht : HashTable α) (h : UInt64) : Option α :=
  (ht.findIndex h).map fun p => (ht.mem p).pData

/-- `zend_hash_quick_find` (zend_hash.c:936-959). -/
def zendHashQuickFind (ht : HashTable α) (key : KeyArg) (h : UInt64) : Option α :=
  if key.nKeyLength = 0 then ht.zendHashIndexFind h
  else (ht.findKey key h).map fun p => (ht.mem p).pData

/-- `zend_hash_exists` (zend_hash.c:962-981). -/
def zendHashExists (ht : HashTable α) (key : KeyArg) : Bool :=
  (ht.findKey key (zendInlineHashFunc key.bytes)).isSome

/-- `zend_hash_index_exists` (zend_hash.c:1027-1045). -/
def zendHashIndexExists (ht : HashTable α) (h : UInt64) : Bool :=
  (ht.findIndex h).isSome

/-- `zend_hash_quick_exists` (zend_hash.c:984-1002). -/
def zendHashQuickExists (ht : HashTable α) (key : KeyArg) (h : UInt64) : Bool :=
  if key.nKeyLength = 0 then ht.zendHashIndexExists h else (ht.findKey key h).isSome

/-- The call of the copy constructor on the element just stored. -/
def copyConstruct (ctor : Option (α → α)) (newEntry : Option Addr) (ht : HashTable α) :
    HashTable α :=
  match ctor with
  | none => ht
  | some f => ht.storeAt newEntry fun b => { b with pData := f b.pData }

/-- The key pointer and bytes of the bucket `p`, as they are passed on by the copy
functions. -/
def keyArg (ht : HashTable α) (p : Addr) : KeyArg := ⟨(ht.mem p).arKey, ht.keyBytes p⟩

/-- One turn of the loop of `zend_hash_copy`. -/
def copyElement (malloc : Malloc) (source : HashTable α) (ctor : Option (α → α))
    (setTargetPointer : Bool) (p : Addr) (target : HashTable α) : HashTable α :=
  let b := source.mem p
  let target := if setTargetPointer ∧ source.pInternalPointer = some p
    then { target with pInternalPointer := none } else target
  let r := if b.nKeyLength ≠ 0
    then target.zendHashQuickAddOrUpdate malloc (source.keyArg p) b.h b.pData .HASH_UPDATE
    else target.zendHashIndexUpdateOrNextInsert malloc b.h b.pData .HASH_UPDATE
  copyConstruct ctor r.2.2 r.1

/-- One turn of the loop of `_zend_hash_merge`. -/
def mergeElement (malloc : Malloc) (source : HashTable α) (ctor : Option (α → α))
    (overwrite : Bool) (p : Addr) (target : HashTable α) : HashTable α :=
  let b := source.mem p
  if 0 < b.nKeyLength then
    let r := target.zendHashQuickAddOrUpdate malloc (source.keyArg p) b.h b.pData
      (if overwrite then .HASH_UPDATE else .HASH_ADD)
    if r.2.1 = .SUCCESS then copyConstruct ctor r.2.2 r.1 else r.1
  else if overwrite ∨ target.zendHashIndexExists b.h = false then
    let r := target.zendHashIndexUpdateOrNextInsert malloc b.h b.pData .HASH_UPDATE
    if r.2.1 = .SUCCESS then copyConstruct ctor r.2.2 r.1 else r.1
  else target

/-- `p = source->pListHead; while (p) { turn(p); p = p->pListNext; }`. -/
def sourceLoop (source : HashTable α) (turn : Addr → HashTable α → HashTable α) :
    ℕ → Option Addr → HashTable α → HashTable α
  | 0, _, target => target
  | _ + 1, none, target => target
  | fuel + 1, some p, target =>
      sourceLoop source turn fuel (source.mem p).pListNext (turn p target)

/-- `zend_hash_copy` (zend_hash.c:812-841). -/
def zendHashCopy (malloc : Malloc) (target source : HashTable α) (ctor : Option (α → α)) :
    HashTable α :=
  let setTargetPointer := target.pInternalPointer.isNone
  let target := sourceLoop source (copyElement malloc source ctor setTargetPointer)
    source.loopBound source.pListHead target
  if target.pInternalPointer = none
    then { target with pInternalPointer := target.pListHead } else target

/-- `_zend_hash_merge` (zend_hash.c:844-869). -/
def zendHashMerge (malloc : Malloc) (target source : HashTable α) (ctor : Option (α → α))
    (overwrite : Bool) : HashTable α :=
  let target := sourceLoop source (mergeElement malloc source ctor overwrite)
    source.loopBound source.pListHead target
  { target with pInternalPointer := target.pListHead }

/-- The pointers stored by `zend_hash_sort` for the array `arTmp` from one index on. -/
def relink : Option Addr → List Addr → HashTable α → HashTable α
  | _, [], ht => ht
  | last, p :: rest, ht =>
      relink (some p) rest (ht.store p fun b =>
        { b with pListLast := last, pListNext := rest.head? })

/-- `while (p) { arTmp[i] = p; p = p->pListNext; i++; }`. -/
def collect (ht : HashTable α) : ℕ → Option Addr → List Addr
  | 0, _ => []
  | _ + 1, none => []
  | fuel + 1, some p => p :: ht.collect fuel (ht.mem p).pListNext

/-- The renumbering loop of `zend_hash_sort`: only `nKeyLength` and `h` are stored. The
counter is an `int`, so this is the source's loop on tables of less than `2^31` buckets. -/
def renumberLoop : ℕ → ℕ → Option Addr → HashTable α → HashTable α
  | 0, _, _, ht => ht
  | _ + 1, _, none, ht => ht
  | fuel + 1, i, some p, ht =>
      let ht := ht.store p fun b => { b with nKeyLength := 0, h := UInt64.ofNat i }
      renumberLoop fuel (i + 1) (ht.mem p).pListNext ht

end HashTable

/-- A `sort_func` with its `compar`: it looks at the buckets and permutes the array. -/
structure SortFunc (α : Type) where
  run : (Addr → Bucket α) → List Addr → List Addr
  perm : ∀ mem l, (run mem l).Perm l

namespace HashTable

/-- `zend_hash_sort` (zend_hash.c:1421-1481). -/
def zendHashSort (ht : HashTable α) (sortFunc : SortFunc α) (renumber : Bool) :
    HashTable α :=
  if ¬ 1 < ht.nNumOfElements ∧ ¬ (renumber ∧ 0 < ht.nNumOfElements) then ht
  else
    let arTmp := sortFunc.run ht.mem (ht.collect ht.loopBound ht.pListHead)
    let ht := relink none arTmp { ht with
      pListHead := arTmp.head?
      pListTail := arTmp.getLast?
      pInternalPointer := arTmp.head? }
    if renumber then
      let ht := renumberLoop ht.loopBound 0 ht.pListHead ht
      zendHashRehash { ht with nNextFreeElement := UInt64.ofNat arTmp.length }
    else ht

end HashTable

/-- The key arguments of `zend_hash_update_current_key_ex`: `HASH_KEY_IS_LONG` (with a
NULL `str_index`), `HASH_KEY_IS_STRING`, or another `key_type`. -/
inductive KeyIndex where
  | long (numIndex : UInt64)
  | string (strIndex : KeyArg)
  | other
deriving DecidableEq, Repr

/-- `str_index`. -/
def KeyIndex.strIndex : KeyIndex → KeyPtr
  | .string k => k.arKey
  | _ => .null

/-- `str_length`. -/
def KeyIndex.strLength : KeyIndex → ℕ
  | .string k => k.nKeyLength
  | _ => 0

/-- The new `h`: `num_index`, or the hash of the string. -/
def KeyIndex.hash : KeyIndex → UInt64
  | .long n => n
  | .string k => zendInlineHashFunc k.bytes
  | .other => 0

/-- `HASH_UPDATE_KEY_IF_NONE`, `.._IF_BEFORE`, `.._IF_AFTER`, `.._ANYWAY`. -/
inductive UpdateMode where
  | HASH_UPDATE_KEY_IF_NONE
  | HASH_UPDATE_KEY_IF_BEFORE
  | HASH_UPDATE_KEY_IF_AFTER
  | HASH_UPDATE_KEY_ANYWAY
deriving DecidableEq, Repr

/-- The number behind a mode (zend_hash.h:39-42). -/
def UpdateMode.val : UpdateMode → ℕ
  | .HASH_UPDATE_KEY_IF_NONE => 0
  | .HASH_UPDATE_KEY_IF_BEFORE => 1
  | .HASH_UPDATE_KEY_IF_AFTER => 2
  | .HASH_UPDATE_KEY_ANYWAY => 3

namespace HashTable

/-- Does the bucket `p` already have the target key? A string target has the pointer
shortcut here too. -/
def hasKeyIndex (ht : HashTable α) (key : KeyIndex) (p : Addr) : Bool :=
  match key with
  | .long n => ht.matchesIndex n p
  | .string k => ht.matchesKey k (zendInlineHashFunc k.bytes) p
  | .other => false

/-- The other bucket with the target key, `q` of the source. -/
def findTarget (ht : HashTable α) (key : KeyIndex) : Option Addr :=
  ht.chainFind (ht.hasKeyIndex key) ht.loopBound (ht.arBuckets (ht.nIndex key.hash))

/-- `r = p->pListLast; while (r) { if (r == q) break; r = r->pListLast; }`: is `q` before
`p` in the list? -/
def isBefore (ht : HashTable α) (q : Addr) : ℕ → Option Addr → Bool
  | 0, _ => false
  | _ + 1, none => false
  | fuel + 1, some r => if r = q then true else ht.isBefore q fuel (ht.mem r).pListLast

/-- `mode != HASH_UPDATE_KEY_ANYWAY` and `mode & found`: the current bucket `p` is the one
to be deleted. -/
def deletesCurrent (ht : HashTable α) (mode : UpdateMode) (p q : Addr) : Bool :=
  let found := if ht.isBefore q ht.loopBound (ht.mem p).pListLast
    then UpdateMode.HASH_UPDATE_KEY_IF_AFTER else .HASH_UPDATE_KEY_IF_BEFORE
  mode != .HASH_UPDATE_KEY_ANYWAY && mode.val &&& found.val != 0

/-- The removal of `p` from its old chain (zend_hash.c:1353-1360). -/
def rechainOut (ht : HashTable α) (p : Addr) : HashTable α :=
  let next := (ht.mem p).pNext
  let last := (ht.mem p).pLast
  let nIndex := ht.nIndex (ht.mem p).h
  (ht.storeAt next fun b => { b with pLast := last }).setNext nIndex last next

/-- Must the bucket be allocated anew (zend_hash.c:1362-1363)? -/
def needsNewBucket (ht : HashTable α) (key : KeyIndex) (p : Addr) : Bool :=
  ((ht.mem p).arKey.isInterned != key.strIndex.isInterned) ||
    (!(ht.mem p).arKey.isInterned && (ht.mem p).nKeyLength != key.strLength)

/-- The replacement of `p` by a new block (zend_hash.c:1364-1400). Of the new block
`nKeyLength`, the data and the list links are stored here; the words `h`, `pNext`,
`pLast` and `arKey` are what the block last held. -/
def moveBucket (malloc : Malloc) (ht : HashTable α) (p : Addr) (strLength : ℕ) :
    Addr × HashTable α :=
  let (q, ht) := ht.pemalloc malloc
  let next := (ht.mem p).pListNext
  let last := (ht.mem p).pListLast
  let pData := (ht.mem p).pData
  let ht := ht.store q fun b =>
    { b with nKeyLength := strLength, pData := pData, pListNext := next, pListLast := last }
  let ht := ht.setListLast next (some q)
  let ht := ht.setListNext last (some q)
  let ht := { ht with pInternalPointer :=
    if ht.pInternalPointer = some p then some q else ht.pInternalPointer }
  (q, ht.pefree p)

/-- The store of the new key (zend_hash.c:1402-1412). For `HASH_KEY_IS_LONG` it is `h`
alone. -/
def storeKey (ht : HashTable α) (key : KeyIndex) (p : Addr) : HashTable α :=
  match key with
  | .string k => ht.store p fun b =>
      { b with
        h := zendInlineHashFunc k.bytes
        nKeyLength := k.nKeyLength
        arKey := if k.arKey.isInterned then k.arKey else .inline p
        inlineKey := if k.arKey.isInterned then b.inlineKey else k.bytes }
  | key => ht.store p fun b => { b with h := key.hash }

/-- The part of `zend_hash_update_current_key_ex` after the deletion of the other bucket
(zend_hash.c:1353-1418). -/
def rekey (malloc : Malloc) (ht : HashTable α) (key : KeyIndex) (p : Addr) :
    HashTable α × Addr :=
  let ht := ht.rechainOut p
  let (p, ht) := if ht.needsNewBucket key p
    then ht.moveBucket malloc p key.strLength else (p, ht)
  let ht := ht.storeKey key p
  let nIndex := ht.nIndex (ht.mem p).h
  let ht := ht.connectToBucketDllist p (ht.arBuckets nIndex)
  (ht.setBucket nIndex (some p), p)

/-- `zend_hash_update_current_key_ex` (zend_hash.c:1213-1419). `pos` is the caller's
position, or `none` for a NULL `pos`; the last component is the position afterwards. -/
def zendHashUpdateCurrentKeyEx (malloc : Malloc) (ht : HashTable α) (key : KeyIndex)
    (mode : UpdateMode) (pos : Option (Option Addr)) :
    HashTable α × Status × Option (Option Addr) :=
  match pos.getD ht.pInternalPointer with
  | none => (ht, .FAILURE, pos)
  | some p =>
      if key = .other then (ht, .FAILURE, pos)
      else if ht.hasKeyIndex key p then (ht, .SUCCESS, pos)
      else
        match ht.findTarget key with
        | some q =>
            if ht.deletesCurrent mode p q then
              (ht.deleteBucket p (ht.nIndex (ht.mem p).h), .FAILURE, pos)
            else
              let ht := ht.deleteBucket q (ht.nIndex (ht.mem q).h)
              let r := ht.rekey malloc key p
              (r.1, .SUCCESS, pos.map fun _ => some r.2)
        | none =>
            let r := ht.rekey malloc key p
            (r.1, .SUCCESS, pos.map fun _ => some r.2)

end HashTable

end PhpRuntime.Hash
