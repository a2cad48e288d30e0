import Mathlib.Data.Finset.Lattice.Fold
import Mathlib.Order.Lattice.Nat
import PhpRuntime.Hash.Runs

/-!
# The hash table: representation and refinement

The two results about whole runs: the representation invariant in terms of the fields of
the table, and the refinement of an insertion-ordered map. Both hold along clean runs, and
both fail on a run in which `zend_hash_sort` leaves a key pointer in an integer bucket
and an interned string with that pointer is looked up afterwards.
-/

set_option autoImplicit false

namespace PhpRuntime.Hash

open PhpRuntime.Lib PhpRuntime.Lib.OrderedMap

variable {α : Type} {ht : HashTable α} {l : List Addr}

/-! ## The representation invariant -/

/-- The representation invariant of a table, for the list `l` of its buckets and the chains
`ch`: the list threads all buckets both ways, each bucket occurs once in the chain of its
slot and in no other, no chain holds another bucket, and no key occurs twice. -/
structure RepOkWith (ht : HashTable α) (l : List Addr) (ch : ℕ → List Addr) : Prop where
  head : ht.pListHead = l.head?
  tail : ht.pListTail = l.getLast?
  list : Seg ht.listNext ht.listLast none l none
  nodup : l.Nodup
  count : ht.nNumOfElements = l.length
  mask : ht.nTableMask = 0 ∨ ht.nTableMask = ht.nTableSize - 1
  slot : ∀ i < ht.nTableSize, ht.arBuckets i = (ch i).head?
  chain : ∀ i < ht.nTableSize, Seg ht.chNext ht.chLast none (ch i) none
  index : ∀ a ∈ l, ht.nIndex (ht.mem a).h < ht.nTableSize
  chained : ∀ a ∈ l, ∀ i < ht.nTableSize,
    (ch i).count a = if ht.nIndex (ht.mem a).h = i then 1 else 0
  listed : ∀ i < ht.nTableSize, ∀ a ∈ ch i, a ∈ l
  keys : ∀ a ∈ l, ∀ b ∈ l, ht.keyOf a = ht.keyOf b → a = b

def RepOk (ht : HashTable α) : Prop := ∃ l ch, RepOkWith ht l ch

theorem Inv.repOk (h : Inv ht l) : RepOk ht := by
  obtain ⟨ch, hch⟩ := h.chains
  refine ⟨l, ch, h.list.head, h.list.tail, h.list.seg, h.list.nodup, h.count,
    h.mask.imp_left And.left, hch.head, hch.seg, fun a _ => h.nIndex_lt _, ?_,
    fun i hi a ha => ((hch.mem i hi a).mp ha).1, h.distinct⟩
  intro a ha i hi
  simp [(hch.nodup i hi).count, hch.mem i hi a, ha]

/-- **The representation invariant holds along every clean run.** -/
theorem repOk_of_cleanRun (h : CleanRun ht) : RepOk ht := by
  obtain ⟨l, hl⟩ := h.exists_inv
  exact hl.repOk

/-- An allocator that hands out the next address. -/
def bump : Malloc where
  addr s := s.sup fun a => a + 1
  fresh _ h := absurd (Finset.le_sup (f := fun a : ℕ => a + 1) h) (Nat.lt_irrefl _)

def zeroMem : Addr → Bucket ℕ := fun _ => ⟨0, 0, 0, none, none, none, none, .null, []⟩

/-- The string `c` with its NUL; its hash value is a multiple of 8. -/
def cBytes : List UInt8 := [99, 0]

/-- A `sort_func` that keeps the order. -/
def keepOrder : SortFunc ℕ := ⟨fun _ l => l, fun _ l => List.Perm.refl l⟩

/-- A `sort_func` that reverses the order. -/
def reverseOrder : SortFunc ℕ := ⟨fun _ l => l.reverse, fun _ l => l.reverse_perm⟩

/-- A table with the one string key `c`, added through its interned string. -/
def oneKeyTable : HashTable ℕ :=
  (Op.addOrUpdate bump ⟨.interned cBytes, cBytes⟩ 1 .HASH_UPDATE).run (zendHashInit zeroMem 8)

theorem repOk_oneKeyTable : RepOk oneKeyTable :=
  repOk_of_cleanRun (Run.step (Run.init zeroMem 8) _ ⟨by simp, by simp, by simp⟩
    ⟨fun a ha => by simp [(Inv.zendHashInit zeroMem 8).buckets_eq] at ha, by decide⟩
    (by simp [Op.source]))

/-- The table after `zend_hash_sort` with `renumber`: the key is now the integer 0, the
pointer to `c` is still in the bucket. -/
def staleTable : HashTable ℕ := (Op.sort keepOrder true).run oneKeyTable

theorem reachable_staleTable : Reachable staleTable := by
  have h1 : Reachable oneKeyTable :=
    Run.step (Run.init zeroMem 8) _ ⟨by simp, by simp, by simp⟩ trivial (by simp [Op.source])
  exact Run.step h1 (Op.sort keepOrder true) trivial trivial (by simp [Op.source])

/-- Two more string keys, `c` and `b`, passed by other pointers; the list reversed and the
chains built anew, so that the integer bucket comes first in the chain of slot 0. -/
def threeKeyTable : HashTable ℕ :=
  let ht := (Op.addOrUpdate bump ⟨.other 0, cBytes⟩ 2 .HASH_UPDATE).run staleTable
  let ht := (Op.addOrUpdate bump ⟨.other 1, [98, 0]⟩ 3 .HASH_UPDATE).run ht
  Op.rehash.run ((Op.sort reverseOrder false).run ht)

/-- The first bucket gets the key `c`, passed as the interned string: the integer bucket is
taken for the other bucket with that key and deleted. -/
def doubledTable : HashTable ℕ :=
  (Op.updateCurrentKeyEx bump (.string ⟨.interned cBytes, cBytes⟩) .HASH_UPDATE_KEY_ANYWAY
    none).run threeKeyTable

theorem reachable_doubledTable : Reachable doubledTable := by
  have h1 := Run.step reachable_staleTable
    (Op.addOrUpdate bump ⟨.other 0, cBytes⟩ 2 .HASH_UPDATE) ⟨by simp, by simp, by simp⟩ trivial
    (by simp [Op.source])
  have h2 := Run.step h1 (Op.addOrUpdate bump ⟨.other 1, [98, 0]⟩ 3 .HASH_UPDATE)
    ⟨by simp, by simp, by simp⟩ trivial (by simp [Op.source])
  have h3 := Run.step h2 (Op.sort reverseOrder false) trivial trivial (by simp [Op.source])
  have h4 := Run.step h3 Op.rehash trivial trivial (by simp [Op.source])
  exact Run.step h4 (Op.updateCurrentKeyEx bump (.string ⟨.interned cBytes, cBytes⟩)
    .HASH_UPDATE_KEY_ANYWAY none)
    ⟨⟨⟨by simp, by simp, by simp⟩, by decide⟩, by simp⟩ trivial (by simp [Op.source])

/-- The table reached holds the key `c` twice. -/
theorem not_repOk_of_reachable : ¬ ∀ ht : HashTable ℕ, Reachable ht → RepOk ht := by
  intro hall
  obtain ⟨l, ch, h⟩ := hall _ reachable_doubledTable
  have hwalk : doubledTable.collect 3 doubledTable.pListHead = [3, 1] := by decide +kernel
  have hcount : doubledTable.nNumOfElements = 2 := by decide +kernel
  have hkeys : doubledTable.keyOf 3 = doubledTable.keyOf 1 := by decide +kernel
  have hl : l = [3, 1] := by
    rw [← hwalk, h.head]
    exact (collect_spec 3 h.list (by rw [← h.count, hcount]; omega)).symm
  exact absurd (h.keys 3 (by simp [hl]) 1 (by simp [hl]) hkeys) (by decide)

/-! ## The refinement -/

/-- The operations of the table on its pairs are those of an insertion-ordered map, for the
operations that satisfy `P` and the lookups of keys that satisfy `Q`. -/
structure RefinesMap (ht : HashTable α) (P : Op α → Prop) (Q : KeyArg → Prop) : Prop where
  addOrUpdate : ∀ malloc key v flag, P (.addOrUpdate malloc key v flag) → key.nKeyLength ≠ 0 →
    (ht.zendHashAddOrUpdate malloc key v flag).1.toMap =
        (if flag = .HASH_ADD then add ht.toMap (.str key.bytes) v
          else set ht.toMap (.str key.bytes) v) ∧
      ((ht.zendHashAddOrUpdate malloc key v flag).2.1 = .FAILURE ↔
        flag = .HASH_ADD ∧ .str key.bytes ∈ keys ht.toMap)
  quickAddOrUpdate : ∀ malloc key h v flag, P (.quickAddOrUpdate malloc key h v flag) →
    (ht.zendHashQuickAddOrUpdate malloc key h v flag).1.toMap =
        (if flag = .HASH_ADD ∧ key.nKeyLength ≠ 0 then add ht.toMap (key.toKey h) v
          else set ht.toMap (key.toKey h) v) ∧
      ((ht.zendHashQuickAddOrUpdate malloc key h v flag).2.1 = .FAILURE ↔
        (flag = .HASH_ADD ∧ key.nKeyLength ≠ 0) ∧ key.toKey h ∈ keys ht.toMap)
  indexUpdateOrNextInsert : ∀ malloc h v flag, P (.indexUpdateOrNextInsert malloc h v flag) →
    (ht.zendHashIndexUpdateOrNextInsert malloc h v flag).1.toMap =
        (if flag = .HASH_NEXT_INSERT ∨ flag = .HASH_ADD
          then add ht.toMap (.int (if flag = .HASH_NEXT_INSERT then ht.nNextFreeElement else h)) v
          else set ht.toMap (.int h) v) ∧
      ((ht.zendHashIndexUpdateOrNextInsert malloc h v flag).2.1 = .FAILURE ↔
        (flag = .HASH_NEXT_INSERT ∨ flag = .HASH_ADD) ∧
        .int (if flag = .HASH_NEXT_INSERT then ht.nNextFreeElement else h) ∈ keys ht.toMap)
  delKeyOrIndex : ∀ key h flag, P (.delKeyOrIndex key h flag) →
    (ht.zendHashDelKeyOrIndex key h flag).1.toMap =
        erase ht.toMap (key.toKey (delHash key h flag)) ∧
      ((ht.zendHashDelKeyOrIndex key h flag).2 = .SUCCESS ↔
        key.toKey (delHash key h flag) ∈ keys ht.toMap)
  clean : ht.zendHashClean.toMap = []
  rehash : ht.zendHashRehash.toMap = ht.toMap
  doResize : P .doResize → ht.zendHashDoResize.toMap = ht.toMap
  find : ∀ key, Q key → key.nKeyLength ≠ 0 →
    ht.zendHashFind key = lookup ht.toMap (.str key.bytes) ∧
      (ht.zendHashExists key = true ↔ .str key.bytes ∈ keys ht.toMap)
  quickFind : ∀ key h, Q key → (key.nKeyLength ≠ 0 → h = zendInlineHashFunc key.bytes) →
    ht.zendHashQuickFind key h = lookup ht.toMap (key.toKey h) ∧
      (ht.zendHashQuickExists key h = true ↔ key.toKey h ∈ keys ht.toMap)
  indexFind : ∀ h, ht.zendHashIndexFind h = lookup ht.toMap (.int h) ∧
    (ht.zendHashIndexExists h = true ↔ .int h ∈ keys ht.toMap)

theorem StoreSpec.toMap_eq {malloc : Malloc} {k : Key} {v : α} {addOnly : Prop}
    [Decidable addOnly] {r : HashTable α × Status × Option Addr} (hi : Inv ht l)
    (h : StoreSpec malloc ht l k v addOnly r) :
    r.1.toMap = (if addOnly then add ht.toMap k v else set ht.toMap k v) ∧
      (r.2.1 = .FAILURE ↔ addOnly ∧ k ∈ keys ht.toMap) := by
  rw [hi.toMap_eq]
  rcases h with ⟨ha, h⟩ | ⟨ha, l', h⟩
  · rw [if_pos ha, h.inv.toMap_eq, h.entries, add_of_mem h.present]
    exact ⟨rfl, fun _ => ⟨ha, h.present⟩, fun _ => h.status⟩
  · rw [h.inv.toMap_eq, h.entries, h.status]
    refine ⟨?_, by simp, fun hc => absurd hc.2 (ha hc.1)⟩
    split
    · rename_i hadd
      rw [set_of_notMem (ha hadd), add_of_notMem (ha hadd)]
    · rfl

theorem Inv.find_spec (h : Inv ht l) {key : KeyArg} (hv : ValidKey ht ht.buckets key)
    (hs : NotStale ht ht.buckets key.arKey) (hlen : key.nKeyLength ≠ 0) :
    ht.zendHashFind key = lookup ht.toMap (.str key.bytes) ∧
      (ht.zendHashExists key = true ↔ .str key.bytes ∈ keys ht.toMap) := by
  rw [h.buckets_eq] at hv hs
  rw [h.toMap_eq]
  have hfind := h.findKey_iff hv (fun a ha => hs.not_staleSlot ha) hlen
  exact ⟨h.map_find_eq_lookup hfind, find_isSome_iff hfind⟩

theorem Inv.indexFind_spec (h : Inv ht l) (n : UInt64) :
    ht.zendHashIndexFind n = lookup ht.toMap (.int n) ∧
      (ht.zendHashIndexExists n = true ↔ .int n ∈ keys ht.toMap) := by
  rw [h.toMap_eq]
  have hfind := h.findIndex_iff (n := n)
  exact ⟨h.map_find_eq_lookup hfind, find_isSome_iff hfind⟩

theorem CleanRun.refinesMap (h : CleanRun ht) :
    RefinesMap ht (fun op => Admissible ht op ∧ Clean ht op)
      (fun key => ValidKey ht ht.buckets key ∧ NotStale ht ht.buckets key.arKey) := by
  obtain ⟨l, hl⟩ := h.exists_inv
  have hb := hl.buckets_eq
  refine ⟨?_, ?_, ?_, ?_, ?_, ?_, ?_, ?_, ?_, hl.indexFind_spec⟩
  · rintro malloc key v flag ⟨ha, hs, hroom⟩ hlen
    rw [Admissible, hb] at ha
    rw [hb] at hs
    rw [HashTable.zendHashAddOrUpdate, if_neg hlen]
    exact (hl.addOrUpdate malloc ha (fun a ha => hs.not_staleSlot ha) hlen
      (room_of_count hl hroom) v flag).toMap_eq hl
  · rintro malloc key n v flag ⟨ha, hs, hroom⟩
    rw [Admissible, hb] at ha
    rw [hb] at hs
    unfold HashTable.zendHashQuickAddOrUpdate KeyArg.toKey
    by_cases hlen : key.nKeyLength = 0
    · have hspec := hl.zendHashIndexUpdateOrNextInsert malloc (room_of_count hl hroom) n v
        .HASH_UPDATE
      simpa [hlen] using hspec.toMap_eq hl
    · obtain ⟨hv, rfl⟩ := ha hlen
      have hspec := hl.addOrUpdate malloc hv (fun a ha => hs.not_staleSlot ha) hlen
        (room_of_count hl hroom) v flag
      simpa [hlen] using hspec.toMap_eq hl
  · rintro malloc n v flag ⟨-, hroom⟩
    have hspec := (hl.zendHashIndexUpdateOrNextInsert malloc (room_of_count hl hroom) n v
      flag).toMap_eq hl
    refine ⟨hspec.1.trans ?_, hspec.2⟩
    cases flag <;> simp
  · rintro key n flag ⟨ha, -⟩
    obtain ⟨l', hi, he, hs⟩ := hl.zendHashDelKeyOrIndex n flag ha
    rw [hi.toMap_eq, hl.toMap_eq]
    exact ⟨he, hs⟩
  · rw [hl.zendHashClean.toMap_eq, entries_nil]
  · obtain ⟨hi, hs⟩ := hl.zendHashRehash
    rw [hi.toMap_eq, hs.entries hl.toInvCore, hl.toMap_eq]
  · rintro ⟨ha, -⟩
    have hne : l ≠ [] := by
      rintro rfl
      exact ha hl.count
    obtain ⟨hi, hpay⟩ := hl.zendHashDoResize hne
    rw [hi.toMap_eq, hl.toMap_eq, entries_congr hl.keys fun a _ => hpay a]
  · rintro key ⟨hv, hs⟩ hlen
    exact hl.find_spec hv hs hlen
  · rintro key n ⟨hv, hs⟩ hn
    unfold HashTable.zendHashQuickFind HashTable.zendHashQuickExists KeyArg.toKey
    by_cases hlen : key.nKeyLength = 0
    · simpa [hlen] using hl.indexFind_spec n
    · obtain rfl := hn hlen
      simpa [hlen, HashTable.zendHashFind, HashTable.zendHashExists] using hl.find_spec hv hs hlen

/-- **The table refines an insertion-ordered map along every clean run.** -/
theorem refinesMap_of_cleanRun (h : CleanRun ht) :
    RefinesMap ht (fun op => Admissible ht op ∧ Clean ht op)
      (fun key => ValidKey ht ht.buckets key ∧ NotStale ht ht.buckets key.arKey) :=
  h.refinesMap

theorem refinesMap_oneKeyTable :
    RefinesMap oneKeyTable (fun op => Admissible oneKeyTable op ∧ Clean oneKeyTable op)
      (fun key => ValidKey oneKeyTable oneKeyTable.buckets key ∧
        NotStale oneKeyTable oneKeyTable.buckets key.arKey) :=
  refinesMap_of_cleanRun (Run.step (Run.init zeroMem 8) _ ⟨by simp, by simp, by simp⟩
    ⟨fun a ha => by simp [(Inv.zendHashInit zeroMem 8).buckets_eq] at ha, by decide⟩
    (by simp [Op.source]))

/-- `zend_hash_find` for the interned string `c` returns the value of the integer key 0. -/
theorem not_refinesMap_of_reachable : ¬ ∀ ht : HashTable ℕ, Reachable ht →
    RefinesMap ht (Admissible ht) (ValidKey ht ht.buckets) := by
  intro hall
  have hfind := ((hall _ reachable_staleTable).find ⟨.interned cBytes, cBytes⟩
    ⟨by simp, by simp, by simp⟩ (by decide)).1
  have h1 : staleTable.zendHashFind ⟨.interned cBytes, cBytes⟩ = some 1 := by decide +kernel
  have h2 : lookup staleTable.toMap (.str cBytes) = none := by decide +kernel
  rw [h1, h2] at hfind
  exact absurd hfind (by simp)

end PhpRuntime.Hash
