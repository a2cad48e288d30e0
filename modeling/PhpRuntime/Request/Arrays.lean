import PhpRuntime.Hash.NextFree
import PhpRuntime.Hash.Symtable

/-!
# Arrays of arrays

The arrays that request variables are put in: pairs in order with the next free index, and values
that are scalars or arrays again. The operations are those of a `HashTable` of a clean run.
-/

set_option autoImplicit false

namespace PhpRuntime.Request

open PhpRuntime.Hash PhpRuntime.Lib.OrderedMap

variable {V : Type}

/-! ## Tables -/

/-- The pairs of a `HashTable` in order, and its next free index. -/
structure Table (V : Type) where
  elems : List (Key × V)
  nNextFreeElement : UInt64

namespace Table

/-- `array_init` -/
def empty : Table V := ⟨[], 0⟩

/-- The next free index after a store under the index `h`. -/
def bump (nNextFreeElement h : UInt64) : UInt64 :=
  if toLong nNextFreeElement ≤ toLong h then if h < longMax then h + 1 else longMax
  else nNextFreeElement

/-- `zend_symtable_find` -/
def symtableFind (t : Table V) (key : List UInt8) : Option V := lookup t.elems (symtableKey key)

/-- `zend_symtable_exists` -/
def symtableExists (t : Table V) (key : List UInt8) : Bool := (t.symtableFind key).isSome

/-- `zend_symtable_update` -/
def symtableUpdate (t : Table V) (key : List UInt8) (v : V) : Table V where
  elems := set t.elems (symtableKey key) v
  nNextFreeElement :=
    match symtableKey key with
    | .int h => bump t.nNextFreeElement h
    | .str _ => t.nNextFreeElement

/-- `zend_symtable_del` -/
def symtableDel (t : Table V) (key : List UInt8) : Table V :=
  { t with elems := erase t.elems (symtableKey key) }

def full (t : Table V) : Bool := Key.int t.nNextFreeElement ∈ keys t.elems

/-- `zend_hash_next_index_insert`, which does nothing on a full table. -/
def nextIndexInsert (t : Table V) (v : V) : Table V where
  elems := add t.elems (.int t.nNextFreeElement) v
  nNextFreeElement :=
    if t.full then t.nNextFreeElement else bump t.nNextFreeElement t.nNextFreeElement

def modify (t : Table V) (key : List UInt8) (v : V) : Table V :=
  { t with elems := replace t.elems (symtableKey key) v }

end Table

/-- A value of a request variable, where the scalars are given. -/
inductive Zval (α : Type) where
  | scalar (val : α)
  | array (ht : Table (Zval α))

/-! ## The tables are those of the hash functions -/

/-- What a `HashTable` holds. -/
def tableOf (ht : HashTable V) : Table V := ⟨ht.toMap, ht.nNextFreeElement⟩

variable {ht : HashTable V} {key : KeyArg} {s : List UInt8}

theorem bumpNextFree_eq (ht : HashTable V) (h : UInt64) :
    (ht.bumpNextFree h).nNextFreeElement = Table.bump ht.nNextFreeElement h := by
  unfold HashTable.bumpNextFree Table.bump
  split
  · rfl
  · rfl

theorem tableOf_symtable (h : CleanRun ht) (hkey : key.bytes = s ++ [0])
    (hv : ValidKey ht ht.buckets key) (hns : NotStale ht ht.buckets key.arKey)
    (hroom : ht.nNumOfElements + 1 < 2 ^ 32) :
    ht.zendSymtableFind key = (tableOf ht).symtableFind s ∧
      (∀ malloc v,
        tableOf (ht.zendSymtableUpdate malloc key v).1 = (tableOf ht).symtableUpdate s v) ∧
      tableOf (ht.zendSymtableDel key).1 = (tableOf ht).symtableDel s := by
  have hat := h.symtableAt hkey hv hns hroom
  refine ⟨hat.find, fun malloc v => ?_, ?_⟩
  · have hmap := hat.update malloc v
    unfold tableOf Table.symtableUpdate
    rw [hmap, Table.mk.injEq]
    refine ⟨rfl, ?_⟩
    unfold HashTable.zendSymtableUpdate
    cases hs : zendHandleNumericEx (s ++ [0]) with
    | some idx =>
      rw [hkey, hs, symtableKey_of_some hs]
      obtain ⟨hfail, -⟩ | ⟨-, hnext⟩ := indexUpdate_cases malloc ht idx v .HASH_UPDATE
      · have hstatus := (h.refinesMap.indexUpdateOrNextInsert malloc idx v
          .HASH_UPDATE ⟨trivial, hroom⟩).2
        exact absurd (hstatus.mp hfail).1 (by decide)
      · dsimp only
        rw [hnext, if_neg (by decide), bumpNextFree_eq]
    | none =>
      rw [hkey, hs, symtableKey_of_none hs]
      dsimp only
      unfold HashTable.zendHashAddOrUpdate
      split
      · rfl
      · exact HashTable.nNextFreeElement_addOrUpdate malloc ht key _ v _
  · have hmap := hat.del
    unfold tableOf Table.symtableDel
    rw [hmap, Table.mk.injEq]
    refine ⟨rfl, ?_⟩
    unfold HashTable.zendSymtableDel
    split
    · exact HashTable.nNextFreeElement_zendHashDelKeyOrIndex ht _ _ _
    · exact HashTable.nNextFreeElement_zendHashDelKeyOrIndex ht _ _ _

theorem tableOf_nextIndexInsert (h : CleanRun ht) (hroom : ht.nNumOfElements + 1 < 2 ^ 32)
    (malloc : Malloc) (n : UInt64) (v : V) :
    tableOf (ht.zendHashIndexUpdateOrNextInsert malloc n v .HASH_NEXT_INSERT).1 =
        (tableOf ht).nextIndexInsert v ∧
      ((ht.zendHashIndexUpdateOrNextInsert malloc n v .HASH_NEXT_INSERT).2.1 = .FAILURE ↔
        (tableOf ht).full = true) := by
  obtain ⟨hmap, hstatus⟩ := h.refinesMap.indexUpdateOrNextInsert malloc n v
    .HASH_NEXT_INSERT ⟨trivial, hroom⟩
  simp only [true_or, if_true, true_and] at hmap hstatus
  have hfull : (tableOf ht).full = true ↔ Key.int ht.nNextFreeElement ∈ keys ht.toMap :=
    decide_eq_true_iff
  refine ⟨?_, hstatus.trans hfull.symm⟩
  unfold Table.nextIndexInsert
  obtain ⟨hfail, hsame⟩ | ⟨hok, hnext⟩ := indexUpdate_cases malloc ht n v .HASH_NEXT_INSERT
  · rw [if_pos (hfull.mpr (hstatus.mp hfail))]
    unfold tableOf
    rw [hmap, hsame, HashTable.nNextFreeElement_checkInit]
  · rw [if_neg (fun hf => by rw [hstatus.mpr (hfull.mp hf)] at hok; cases hok)]
    unfold tableOf
    rw [hmap, hnext, if_pos rfl, bumpNextFree_eq]

/-! ## Runs -/

/-- A key is passed for a string: the string and the `NUL` behind it are where the pointer points
to, no integer bucket has kept that pointer, and the number of buckets can grow. -/
structure Passed (ht : HashTable V) (key : KeyArg) (s : List UInt8) : Prop where
  bytes : key.bytes = s ++ [0]
  valid : ValidKey ht ht.buckets key
  notStale : NotStale ht ht.buckets key.arKey
  room : ht.nNumOfElements + 1 < 2 ^ 32

/-- A `HashTable` and a table on which the same is done from `array_init` on. -/
inductive ArrayRun : HashTable V → Table V → Prop
  | init (mem : Addr → Bucket V) (nSize : ℕ) : ArrayRun (zendHashInit mem nSize) .empty
  | update {ht : HashTable V} {t : Table V} {key : KeyArg} {s : List UInt8} (run : ArrayRun ht t)
      (passed : Passed ht key s) (malloc : Malloc) (v : V) :
      ArrayRun (ht.zendSymtableUpdate malloc key v).1 (t.symtableUpdate s v)
  | del {ht : HashTable V} {t : Table V} {key : KeyArg} {s : List UInt8} (run : ArrayRun ht t)
      (passed : Passed ht key s) : ArrayRun (ht.zendSymtableDel key).1 (t.symtableDel s)
  | next {ht : HashTable V} {t : Table V} (run : ArrayRun ht t)
      (room : ht.nNumOfElements + 1 < 2 ^ 32) (malloc : Malloc) (n : UInt64) (v : V) :
      ArrayRun (ht.zendHashIndexUpdateOrNextInsert malloc n v .HASH_NEXT_INSERT).1
        (t.nextIndexInsert v)

theorem ArrayRun.cleanRun {t : Table V} (h : ArrayRun ht t) : CleanRun ht := by
  induction h with
  | init mem nSize => exact Run.init mem nSize
  | @update ht t key s run passed malloc v ih =>
    unfold HashTable.zendSymtableUpdate
    split
    · next idx _ =>
      exact Run.step ih (.indexUpdateOrNextInsert malloc idx v .HASH_UPDATE) trivial passed.room
        nofun
    · exact Run.step ih (.addOrUpdate malloc key v .HASH_UPDATE) passed.valid
        ⟨passed.notStale, passed.room⟩ nofun
  | @del ht t key s run passed ih =>
    unfold HashTable.zendSymtableDel
    split
    · next idx _ =>
      exact Run.step ih (.delKeyOrIndex ⟨.null, []⟩ idx .HASH_DEL_INDEX) (fun h0 => absurd rfl h0)
        trivial nofun
    · exact Run.step ih (.delKeyOrIndex key 0 .HASH_DEL_KEY) (fun _ => rfl) trivial nofun
  | next run room malloc n v ih =>
    exact Run.step ih (.indexUpdateOrNextInsert malloc n v .HASH_NEXT_INSERT) trivial room nofun

theorem ArrayRun.tableOf_eq {t : Table V} (h : ArrayRun ht t) : tableOf ht = t := by
  induction h with
  | init mem nSize =>
    unfold tableOf HashTable.toMap
    rw [(Inv.zendHashInit mem nSize).buckets_eq]
    rfl
  | update run passed malloc v ih =>
    rw [(tableOf_symtable run.cleanRun passed.bytes passed.valid passed.notStale
      passed.room).2.1 malloc v, ih]
  | del run passed ih =>
    rw [(tableOf_symtable run.cleanRun passed.bytes passed.valid passed.notStale
      passed.room).2.2, ih]
  | next run room malloc n v ih =>
    rw [(tableOf_nextIndexInsert run.cleanRun room malloc n v).1, ih]

/-- **A `HashTable` refines a table**, in the whole run: it holds the same pairs in the same order,
finds the same values, and is full when the table is. -/
theorem arrayRun_refines {t : Table V} (h : ArrayRun ht t) :
    ht.toMap = t.elems ∧ ht.nNextFreeElement = t.nNextFreeElement ∧
      (∀ key s, Passed ht key s → ht.zendSymtableFind key = t.symtableFind s) ∧
      (ht.nNumOfElements + 1 < 2 ^ 32 → ∀ malloc n v,
        (ht.zendHashIndexUpdateOrNextInsert malloc n v .HASH_NEXT_INSERT).2.1 = .FAILURE ↔
          t.full = true) := by
  obtain rfl := h.tableOf_eq
  refine ⟨rfl, rfl, fun key s passed => ?_, fun room malloc n v => ?_⟩
  · exact (tableOf_symtable h.cleanRun passed.bytes passed.valid passed.notStale passed.room).1
  · exact (tableOf_nextIndexInsert h.cleanRun room malloc n v).2

theorem arrayRun_two :
    ((zendHashInit zeroMem 8).zendSymtableUpdate bump
      ⟨.interned [97, 0], [97, 0]⟩ 1).1.toMap =
        (Table.empty.symtableUpdate [97] 1).elems :=
  (arrayRun_refines (.update (.init zeroMem 8) ⟨rfl, ⟨by simp, by simp, by simp⟩,
    fun a ha => by simp [(Inv.zendHashInit zeroMem 8).buckets_eq] at ha, by decide⟩ bump 1)).1

end PhpRuntime.Request
