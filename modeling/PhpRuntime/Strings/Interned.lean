import PhpRuntime.Lib.BumpPool
import PhpRuntime.Hash.Update

/-!
# Interned strings

`Zend/zend_string.c` without `ZTS`. The buckets of the table and the bytes behind them are cut from
one arena; the hash table is the one of `Zend/zend_hash.c`, its bucket memory indexed by the
addresses of the arena. `live` are the addresses that a bucket of the table is at.
-/

set_option autoImplicit false

namespace PhpRuntime.Strings

open PhpRuntime.Hash

/-- `sizeof(Bucket)` -/
def sizeofBucket : ℕ := 72

/-- `ZEND_MM_ALIGNED_SIZE(size)` -/
def alignedSize (size : ℕ) : ℕ :=
  (size + 7) / 8 * 8

/-- `ZEND_MM_ALIGNED_SIZE(sizeof(Bucket) + nKeyLength)` -/
def entrySize (bytes : List UInt8) : ℕ :=
  alignedSize (sizeofBucket + bytes.length)

def arenaSize : ℕ := 1024 * 1024

def keyAddress : KeyPtr → ℕ
  | .inline p => p + sizeofBucket
  | .other a => a
  | .interned _ => 0
  | .null => 0

/-- The compiler globals of the interned strings. -/
structure InternedStrings where
  start : ℕ
  stop : ℕ
  top : ℕ
  snapshotTop : ℕ
  table : HashTable Addr

/-- A string argument: its address and its `nKeyLength` bytes. -/
structure Source where
  arKey : ℕ
  bytes : List UInt8
deriving DecidableEq, Repr

/-- `zend_interned_strings_init`, with what `malloc` returns and the memory it finds. -/
def zend_interned_strings_init (start : ℕ) (mem : Addr → Bucket Addr) : InternedStrings where
  start := start
  stop := start + arenaSize
  top := start
  snapshotTop := start
  table :=
    let ht := zendHashInit mem 0
    { ht with nTableMask := ht.nTableSize - 1, arBuckets := fun _ => none }

namespace InternedStrings

/-- `IS_INTERNED(s)` -/
def isInterned (cg : InternedStrings) (s : ℕ) : Bool :=
  cg.start ≤ s && s < cg.stop

end InternedStrings

/-- `(p->h == h) && (p->nKeyLength == nKeyLength) && !memcmp(p->arKey, arKey, nKeyLength)` -/
def matchesString (ht : HashTable Addr) (bytes : List UInt8) (h : UInt64) (p : Addr) : Bool :=
  (ht.mem p).h == h && (ht.mem p).nKeyLength == bytes.length && ht.keyBytes p == bytes

def findString (ht : HashTable Addr) (bytes : List UInt8) (h : UInt64) : Option Addr :=
  ht.chainFind (matchesString ht bytes h) ht.loopBound (ht.arBuckets (ht.nIndex h))

/-- The bucket at the top of the arena is filled in. -/
def newBucket (bytes : List UInt8) (h : UInt64) (p : Addr) (b : Bucket Addr) : Bucket Addr :=
  { b with arKey := .inline p, inlineKey := bytes, nKeyLength := bytes.length, h := h, pData := p }

/-- The bucket goes to the head of its chain and the end of the list; unlike
`CONNECT_TO_GLOBAL_DLLIST`, this does not touch `pInternalPointer`. -/
def linkString (ht : HashTable Addr) (p : Addr) (nIndex : ℕ) : HashTable Addr :=
  { ht.linkBucket p nIndex with pInternalPointer := ht.pInternalPointer }

/-- The table is doubled when it is full, if `perealloc_recoverable` succeeds. -/
def growTable (recoverable : Bool) (ht : HashTable Addr) : HashTable Addr :=
  if ht.nTableSize < ht.nNumOfElements then
    if recoverable then ht.zendHashDoResize else ht
  else ht

/-- The result is the pointer returned. What `free_src` frees is outside the arena. -/
def zend_new_interned_string_int (cg : InternedStrings) (src : Source) (recoverable : Bool) :
    InternedStrings × ℕ :=
  if cg.isInterned src.arKey then (cg, src.arKey)
  else
    let h := zendInlineHashFunc src.bytes
    match findString cg.table src.bytes h with
    | some p => (cg, keyAddress (cg.table.mem p).arKey)
    | none =>
      if cg.stop ≤ cg.top + entrySize src.bytes then
        -- no memory
        (cg, src.arKey)
      else
        let p := cg.top
        let nIndex := cg.table.nIndex h
        let ht := { cg.table with live := insert p cg.table.live }
        let ht := linkString (ht.store p (newBucket src.bytes h p)) p nIndex
        let ht := growTable recoverable
          { ht with nNumOfElements := (ht.nNumOfElements + 1) % 2 ^ 32 }
        ({ cg with top := cg.top + entrySize src.bytes, table := ht }, keyAddress (ht.mem p).arKey)

def zend_interned_strings_snapshot_int (cg : InternedStrings) : InternedStrings :=
  { cg with snapshotTop := cg.top }

/-- A bucket above the top is taken out of the list. -/
def dropString (ht : HashTable Addr) (p : Addr) : HashTable Addr :=
  let ht := { ht with nNumOfElements := ht.nNumOfElements - 1, live := ht.live.erase p }
  let last := (ht.mem p).pListLast
  let next := (ht.mem p).pListNext
  (ht.setListNext last next).setListLast next last

/-- The loop over one chain: `while (p && p->arKey > CG(interned_strings_top))`. -/
def restoreChain (top : ℕ) : ℕ → Option Addr → HashTable Addr → HashTable Addr × Option Addr
  | 0, p, ht => (ht, p)
  | _ + 1, none, ht => (ht, none)
  | fuel + 1, some p, ht =>
    if top < keyAddress (ht.mem p).arKey then
      let ht := dropString ht p
      restoreChain top fuel (ht.mem p).pNext ht
    else (ht, some p)

def restoreSlot (top : ℕ) (ht : HashTable Addr) (i : ℕ) : HashTable Addr :=
  let (ht, p) := restoreChain top ht.loopBound (ht.arBuckets i) ht
  let ht := ht.storeAt p fun b => { b with pLast := none }
  ht.setBucket i p

def zend_interned_strings_restore_int (cg : InternedStrings) : InternedStrings :=
  { cg with
    top := cg.snapshotTop
    table := (List.range cg.table.nTableSize).foldl (restoreSlot cg.snapshotTop) cg.table }

/-- What is called on the interned strings. -/
inductive Operation where
  | intern (src : Source) (recoverable : Bool)
  | snapshot
  | restore

def step (cg : InternedStrings) : Operation → InternedStrings × Option ℕ
  | .intern src recoverable =>
    let (cg, arKey) := zend_new_interned_string_int cg src recoverable
    (cg, some arKey)
  | .snapshot => (zend_interned_strings_snapshot_int cg, none)
  | .restore => (zend_interned_strings_restore_int cg, none)

def run (cg : InternedStrings) : List Operation → InternedStrings × List (Option ℕ)
  | [] => (cg, [])
  | operation :: operations =>
    let (cg, arKey) := step cg operation
    let (cg, arKeys) := run cg operations
    (cg, arKey :: arKeys)

end PhpRuntime.Strings
