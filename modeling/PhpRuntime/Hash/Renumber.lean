import PhpRuntime.Hash.Refinement

/-!
# Sorting with renumbering

After `zend_hash_sort(.., renumber = 1)` the values have the keys 0, 1, .. in the new
order, and every integer lookup finds its value. A string lookup must fail, as no bucket
has a string key. It fails unless a bucket whose `arKey` is the pointer looked up has been
put, by its new number, into the slot of the string's hash: the buckets keep their old key
pointers, and the lookups compare these first.
-/

set_option autoImplicit false

namespace PhpRuntime.Hash

open PhpRuntime.Lib PhpRuntime.Lib.OrderedMap

variable {α : Type} {ht ht' : HashTable α} {l m : List Addr} {p a : Addr} {key : KeyArg}
  {n : UInt64}

/-- What `zend_hash_sort` with `renumber` leaves of a table whose array it sorts to `m`. -/
structure SortedTo (ht ht' : HashTable α) (m : List Addr) : Prop where
  inv : Inv ht' m
  nTableMask : ht'.nTableMask = ht.nTableMask
  nNextFreeElement : ht'.nNextFreeElement = UInt64.ofNat m.length
  nKeyLength : ∀ a ∈ m, (ht'.mem a).nKeyLength = 0
  h : ∀ a ∈ m, (ht'.mem a).h = UInt64.ofNat (m.idxOf a)
  arKey : ∀ a ∈ m, (ht'.mem a).arKey = (ht.mem a).arKey
  inlineKey : ∀ a ∈ m, (ht'.mem a).inlineKey = (ht.mem a).inlineKey
  pData : ∀ a ∈ m, (ht'.mem a).pData = (ht.mem a).pData

/-- The array `arTmp` as `sort_func` leaves it. -/
def HashTable.sorted (ht : HashTable α) (f : SortFunc α) : List Addr := f.run ht.mem ht.buckets

theorem Inv.sortedTo (h : Inv ht l) (hl : l ≠ []) (hroom : l.length < 2 ^ 31)
    (f : SortFunc α) : SortedTo ht (ht.zendHashSort f true) (ht.sorted f) := by
  have hcount : ¬ (¬ 1 < ht.nNumOfElements ∧ ¬ (true = true ∧ 0 < ht.nNumOfElements)) := by
    rintro ⟨-, h0⟩
    exact h0 ⟨rfl, h.count ▸ List.length_pos_iff.mpr hl⟩
  unfold HashTable.zendHashSort HashTable.sorted
  rw [if_neg hcount, h.buckets_eq]
  dsimp only
  rw [h.collect_eq]
  have hperm := f.perm ht.mem l
  generalize f.run ht.mem l = m at *
  obtain ⟨hi, -⟩ := h.relink hperm
  have hstep := (relink_spec ({ ht with
    pListHead := m.head?
    pListTail := m.getLast?
    pInternalPointer := m.head? }) none hi.list.nodup).1
  have hmask1 : (HashTable.relink none m { ht with
      pListHead := m.head?
      pListTail := m.getLast?
      pInternalPointer := m.head? }).nTableMask = ht.nTableMask := by rw [hstep.frame]
  have hpay1 : ∀ x, ((HashTable.relink none m { ht with
      pListHead := m.head?
      pListTail := m.getLast?
      pInternalPointer := m.head? }).mem x).payload = (ht.mem x).payload := hstep.payload
  clear hstep
  generalize HashTable.relink none m _ = ht1 at *
  rw [if_pos rfl]
  have hm : m ≠ [] := by
    rintro rfl
    exact hl hperm.nil_eq.symm
  obtain ⟨hcore, hf, hin⟩ := hi.renumberLoop (by rw [hperm.length_eq]; exact hroom)
    (UInt64.ofNat m.length)
  have hmask2 : (HashTable.renumberLoop ht1.loopBound 0 ht1.pListHead ht1).nTableMask =
      ht1.nTableMask := by rw [hf]
  clear hf
  generalize HashTable.renumberLoop ht1.loopBound 0 ht1.pListHead ht1 = ht2 at *
  obtain ⟨hinv, hchain⟩ := hcore.zendHashRehash hm
  have hpay3 : ∀ x, ((HashTable.zendHashRehash
      { ht2 with nNextFreeElement := UInt64.ofNat m.length }).mem x).payload =
      (ht2.mem x).payload := hchain.payload
  have hmask3 : (HashTable.zendHashRehash
      { ht2 with nNextFreeElement := UInt64.ofNat m.length }).nTableMask = ht2.nTableMask := by
    rw [hchain.frame]
  have hnext : (HashTable.zendHashRehash
      { ht2 with nNextFreeElement := UInt64.ofNat m.length }).nNextFreeElement =
      UInt64.ofNat m.length := by
    rw [hchain.frame]
  clear hchain
  generalize HashTable.zendHashRehash _ = ht3 at *
  refine ⟨hinv, hmask3.trans (hmask2.trans hmask1), hnext, fun a ha => ?_, fun a ha => ?_,
    fun a ha => ?_, fun a ha => ?_, fun a ha => ?_⟩
  · rw [nKeyLength_of_payload (hpay3 a), hin a ha]
  · rw [h_of_payload (hpay3 a), hin a ha]
  · rw [arKey_of_payload (hpay3 a), hin a ha]
    exact arKey_of_payload (hpay1 a)
  · have hi3 : (ht3.mem a).inlineKey = (ht2.mem a).inlineKey := congrArg (·.2.2.2.1) (hpay3 a)
    rw [hi3, hin a ha]
    exact congrArg (·.2.2.2.1) (hpay1 a)
  · rw [pData_of_payload (hpay3 a), hin a ha]
    exact pData_of_payload (hpay1 a)

/-- The outcome that sorting with renumbering is for: the values in the order of `m`, under
the keys 0, 1, .., each found by its number, and no string found. -/
structure Renumbered (ht ht' : HashTable α) (m : List Addr) : Prop where
  perm : m.Perm ht.buckets
  keys : keys ht'.toMap = (List.range m.length).map fun i => Key.int (UInt64.ofNat i)
  values : ht'.toMap.map Prod.snd = m.map fun a => (ht.mem a).pData
  nNextFreeElement : ht'.nNextFreeElement = UInt64.ofNat m.length
  indexFind : ∀ i a, m[i]? = some a →
    ht'.zendHashIndexFind (UInt64.ofNat i) = some (ht.mem a).pData
  find : ∀ key, ValidKey ht' ht'.buckets key → key.nKeyLength ≠ 0 →
    ht'.zendHashFind key = none ∧
      ht'.zendHashQuickFind key (zendInlineHashFunc key.bytes) = none

/-- A bucket comes, by its new number, into the slot of a string that its key pointer points
to. -/
def LandsInKeySlot (ht : HashTable α) (m : List Addr) : Prop :=
  ∃ a ∈ m, ∃ key, ValidKey ht ht.buckets key ∧ key.nKeyLength ≠ 0 ∧
    (ht.mem a).arKey = key.arKey ∧
    ht.nIndex (zendInlineHashFunc key.bytes) = ht.nIndex (UInt64.ofNat (m.idxOf a))

theorem map_idxOf_eq_range {m : List Addr} (hm : m.Nodup) :
    m.map (fun a => m.idxOf a) = List.range m.length := by
  refine List.ext_getElem (by simp) fun i h1 h2 => ?_
  simp only [List.getElem_map, List.getElem_range]
  exact hm.idxOf_getElem i _

namespace SortedTo

variable (h : SortedTo ht ht' m)
include h

theorem keyOf_eq (ha : a ∈ m) : ht'.keyOf a = .int (UInt64.ofNat (m.idxOf a)) :=
  keyOf_eq_int_iff.mpr ⟨h.nKeyLength a ha, h.h a ha⟩

theorem keys_eq :
    keys ht'.toMap = (List.range m.length).map fun i => Key.int (UInt64.ofNat i) := by
  rw [h.inv.toMap_eq, keys_entries, ← map_idxOf_eq_range h.inv.list.nodup, List.map_map]
  exact List.map_congr_left fun a ha => h.keyOf_eq ha

theorem values_eq : ht'.toMap.map Prod.snd = m.map fun a => (ht.mem a).pData := by
  rw [h.inv.toMap_eq, HashTable.entries, List.map_map]
  exact List.map_congr_left fun a ha => h.pData a ha

theorem indexFind_eq {i : ℕ} (hi : m[i]? = some a) :
    ht'.zendHashIndexFind (UInt64.ofNat i) = some (ht.mem a).pData := by
  obtain ⟨hlt, rfl⟩ := List.getElem?_eq_some_iff.mp hi
  have ha : m[i] ∈ m := List.getElem_mem hlt
  have hfind : ht'.findIndex (UInt64.ofNat i) = some m[i] := by
    refine (h.inv.findIndex_iff m[i]).mpr ⟨ha, ?_⟩
    rw [h.keyOf_eq ha, h.inv.list.nodup.idxOf_getElem]
  rw [HashTable.zendHashIndexFind, hfind, Option.map_some, h.pData _ ha]

theorem matchesKey_eq (hlen : key.nKeyLength ≠ 0) (ha : a ∈ m) (n : UInt64) :
    ht'.matchesKey key n a = ((ht.mem a).arKey == key.arKey) := by
  have hne : ((0 : ℕ) == key.nKeyLength) = false := by simpa using Ne.symm hlen
  rw [HashTable.matchesKey, h.arKey a ha, h.nKeyLength a ha, hne]
  simp

theorem findKey_eq_none_iff (hlen : key.nKeyLength ≠ 0) :
    ht'.findKey key (zendInlineHashFunc key.bytes) = none ↔
      ∀ a ∈ m, (ht.mem a).arKey = key.arKey →
        ht.nIndex (zendInlineHashFunc key.bytes) ≠ ht.nIndex (UInt64.ofNat (m.idxOf a)) := by
  have hindex : ∀ k, ht'.nIndex k = ht.nIndex k := fun k => by
    rw [HashTable.nIndex, HashTable.nIndex, h.nTableMask]
  rw [HashTable.findKey, h.inv.chainFind_eq_none_iff]
  refine forall₂_congr fun a ha => ?_
  rw [h.matchesKey_eq hlen ha, hindex, hindex, h.h a ha, beq_eq_false_iff_ne]
  constructor
  · exact fun hall hkey hslot => hall hslot.symm hkey
  · exact fun hall hslot hkey => hall hkey hslot.symm

theorem validKey_iff (hperm : m.Perm l) :
    ValidKey ht' m key ↔ ValidKey ht l key := by
  constructor
  · intro hv
    refine ⟨hv.null, hv.interned, fun b hb hk => ?_⟩
    rw [← h.inlineKey b (hperm.mem_iff.mpr hb)]
    exact hv.inline b (hperm.mem_iff.mpr hb) hk
  · intro hv
    refine ⟨hv.null, hv.interned, fun b hb hk => ?_⟩
    rw [h.inlineKey b hb]
    exact hv.inline b (hperm.mem_iff.mp hb) hk

end SortedTo

theorem find_eq_none_iff (ht : HashTable α) (hlen : key.nKeyLength ≠ 0) :
    ht.zendHashFind key = none ∧
      ht.zendHashQuickFind key (zendInlineHashFunc key.bytes) = none ↔
      ht.findKey key (zendInlineHashFunc key.bytes) = none := by
  rw [HashTable.zendHashQuickFind, if_neg hlen, HashTable.zendHashFind, and_self,
    Option.map_eq_none_iff]

/-- **Sorting with renumbering does what it is for** exactly when no bucket lands in the slot
of its old key, and, for a table without elements, which is returned as it is, when its
`nNextFreeElement` is 0 already. -/
theorem renumbered_iff (h : Inv ht ht.buckets) (hroom : ht.nNumOfElements < 2147483648)
    (f : SortFunc α) :
    Renumbered ht (ht.zendHashSort f true) (ht.sorted f) ↔
      (ht.buckets = [] → ht.nNextFreeElement = 0) ∧ ¬ LandsInKeySlot ht (ht.sorted f) := by
  have hperm : (ht.sorted f).Perm ht.buckets := f.perm ht.mem ht.buckets
  by_cases hl : ht.buckets = []
  · have hm : ht.sorted f = [] := by
      rw [hl] at hperm
      exact hperm.eq_nil
    have hcount : ht.nNumOfElements = 0 := by rw [h.count, hl]; rfl
    have hsort : ht.zendHashSort f true = ht := by simp [HashTable.zendHashSort, hcount]
    have hmap : ht.toMap = [] := by rw [HashTable.toMap, hl]; rfl
    have hnone : ¬ LandsInKeySlot ht (ht.sorted f) := by
      rintro ⟨a, ha, -⟩
      rw [hm] at ha
      exact absurd ha (by simp)
    have hfind : ∀ key : KeyArg, ht.findKey key (zendInlineHashFunc key.bytes) = none := by
      intro key
      rw [HashTable.findKey, h.chainFind_eq_none_iff, hl]
      simp
    rw [hsort]
    refine ⟨fun hr => ⟨fun _ => hr.nNextFreeElement.trans (by rw [hm]; rfl), hnone⟩, ?_⟩
    rintro ⟨h0, -⟩
    refine ⟨hperm, by rw [hm, hmap]; rfl, by rw [hm, hmap]; rfl, by rw [h0 hl, hm]; rfl, ?_, ?_⟩
    · intro i a hi
      rw [hm] at hi
      exact absurd hi (by simp)
    · exact fun key _ hlen => (find_eq_none_iff ht hlen).mpr (hfind key)
  · have hs := h.sortedTo hl (by rw [← h.count]; exact hroom) f
    have hv : ∀ key, ValidKey (ht.zendHashSort f true) (ht.zendHashSort f true).buckets key ↔
        ValidKey ht ht.buckets key := fun key => by
      rw [hs.inv.buckets_eq, hs.validKey_iff hperm]
    constructor
    · intro hr
      refine ⟨fun h0 => absurd h0 hl, ?_⟩
      rintro ⟨a, ha, key, hvalid, hlen, hkey, hslot⟩
      have hnone := (find_eq_none_iff _ hlen).mp (hr.find key ((hv key).mpr hvalid) hlen)
      exact (hs.findKey_eq_none_iff hlen).mp hnone a ha hkey hslot
    · rintro ⟨-, hnone⟩
      refine ⟨hperm, hs.keys_eq, hs.values_eq, hs.nNextFreeElement,
        fun i a hi => hs.indexFind_eq hi, fun key hvalid hlen => ?_⟩
      refine (find_eq_none_iff _ hlen).mpr ((hs.findKey_eq_none_iff hlen).mpr ?_)
      exact fun a ha hkey hslot => hnone ⟨a, ha, key, (hv key).mp hvalid, hlen, hkey, hslot⟩

theorem inv_oneKeyTable : Inv oneKeyTable oneKeyTable.buckets := by
  have hclean : CleanRun oneKeyTable :=
    Run.step (Run.init zeroMem 8) _ ⟨by simp, by simp, by simp⟩
      ⟨fun a ha => by simp [(Inv.zendHashInit zeroMem 8).buckets_eq] at ha, by decide⟩
      (by simp [Op.source])
  obtain ⟨l, hl⟩ := hclean.exists_inv
  rw [hl.buckets_eq]
  exact hl

theorem renumbered_oneKeyTable :
    Renumbered oneKeyTable (oneKeyTable.zendHashSort keepOrder true)
        (oneKeyTable.sorted keepOrder) ↔
      (oneKeyTable.buckets = [] → oneKeyTable.nNextFreeElement = 0) ∧
        ¬ LandsInKeySlot oneKeyTable (oneKeyTable.sorted keepOrder) :=
  renumbered_iff inv_oneKeyTable (by decide +kernel) keepOrder

/-- The string `c`, which has the slot 0, is found after the sort: its bucket has the number 0. -/
theorem not_renumbered : ¬ ∀ (ht : HashTable ℕ) (f : SortFunc ℕ), Inv ht ht.buckets →
    ht.nNumOfElements < 2147483648 → Renumbered ht (ht.zendHashSort f true) (ht.sorted f) := by
  intro hall
  have hfind := (hall oneKeyTable keepOrder inv_oneKeyTable (by decide +kernel)).find
    ⟨.interned cBytes, cBytes⟩ ⟨by simp, by simp, by simp⟩ (by decide)
  have hsome : (oneKeyTable.zendHashSort keepOrder true).zendHashFind ⟨.interned cBytes, cBytes⟩ =
      some 1 := by decide +kernel
  rw [hsome] at hfind
  exact absurd hfind.1 (by simp)

end PhpRuntime.Hash
