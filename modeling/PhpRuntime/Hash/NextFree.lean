import PhpRuntime.Hash.Compare
import PhpRuntime.Hash.Renumber

/-!
# The next free index

`nNextFreeElement` is raised by every store under an integer key, set by
`zend_hash_sort` with `renumber` and reset by `zend_hash_clean`; nothing else stores to
it. In particular `zend_hash_update_current_key_ex` gives a bucket an integer key without
raising it. Along runs without such a key change to a key that the counter has not passed,
the counter is above every integer key stored, and `zend_hash_next_index_insert` appends.
-/

set_option autoImplicit false

namespace PhpRuntime.Hash

open PhpRuntime.Lib PhpRuntime.Lib.OrderedMap

variable {α : Type} {ht ht' source target : HashTable α} {l ls lt t : List Addr} {p a : Addr}
  {key : KeyArg} {n : UInt64} {v : α} {malloc : Malloc}

/-! ## Who stores to the counter -/

namespace HashTable

@[simp] theorem nNextFreeElement_connectToBucketDllist (ht : HashTable α) (p : Addr)
    (o : Option Addr) :
    (ht.connectToBucketDllist p o).nNextFreeElement = ht.nNextFreeElement := by
  simp [connectToBucketDllist]

@[simp] theorem nNextFreeElement_linkBucket (ht : HashTable α) (p : Addr) (i : ℕ) :
    (ht.linkBucket p i).nNextFreeElement = ht.nNextFreeElement := by
  simp [linkBucket, connectToGlobalDllist]

@[simp] theorem nNextFreeElement_checkInit (ht : HashTable α) :
    ht.checkInit.nNextFreeElement = ht.nNextFreeElement := by
  unfold checkInit
  split <;> rfl

@[simp] theorem nNextFreeElement_rehashLoop (fuel : ℕ) (o : Option Addr) (ht : HashTable α) :
    (rehashLoop fuel o ht).nNextFreeElement = ht.nNextFreeElement := by
  induction fuel generalizing o ht with
  | zero => rfl
  | succ fuel ih =>
    cases o with
    | none => rfl
    | some p =>
      rw [rehashLoop, ih]
      simp

@[simp] theorem nNextFreeElement_zendHashRehash (ht : HashTable α) :
    ht.zendHashRehash.nNextFreeElement = ht.nNextFreeElement := by
  unfold zendHashRehash
  split
  · rfl
  · simp

@[simp] theorem nNextFreeElement_zendHashDoResize (ht : HashTable α) :
    ht.zendHashDoResize.nNextFreeElement = ht.nNextFreeElement := by
  unfold zendHashDoResize
  dsimp only
  split
  · simp
  · rfl

@[simp] theorem nNextFreeElement_countBucket (ht : HashTable α) :
    ht.countBucket.nNextFreeElement = ht.nNextFreeElement := by
  unfold countBucket ifFullDoResize
  split
  · simp
  · rfl

@[simp] theorem nNextFreeElement_updateData (ht : HashTable α) (p : Addr) (v : α) :
    (ht.updateData p v).nNextFreeElement = ht.nNextFreeElement := by
  simp [updateData]

@[simp] theorem nNextFreeElement_unlist (ht : HashTable α) (p : Addr) :
    (ht.unlist p).nNextFreeElement = ht.nNextFreeElement := by
  simp [unlist]

@[simp] theorem nNextFreeElement_deleteBucket (ht : HashTable α) (p : Addr) (i : ℕ) :
    (ht.deleteBucket p i).nNextFreeElement = ht.nNextFreeElement := by
  simp only [deleteBucket, pefree_nNextFreeElement, callDestructor_nNextFreeElement,
    nNextFreeElement_unlist, unchain]
  split <;> simp

@[simp] theorem nNextFreeElement_zendHashApplyDeleter (ht : HashTable α) (p : Addr) :
    (ht.zendHashApplyDeleter p).1.nNextFreeElement = ht.nNextFreeElement := by
  simp [zendHashApplyDeleter, unchainByLast]

/-- `_zend_hash_add_or_update` leaves the counter. -/
theorem nNextFreeElement_addOrUpdate (malloc : Malloc) (ht : HashTable α) (key : KeyArg)
    (h : UInt64) (v : α) (flag : Flag) :
    (ht.addOrUpdate malloc key h v flag).1.nNextFreeElement = ht.nNextFreeElement := by
  unfold addOrUpdate
  dsimp only
  cases ht.checkInit.findKey key h with
  | some p =>
    dsimp only
    split <;> simp
  | none => simp [pemalloc]

theorem nNextFreeElement_zendHashDelKeyOrIndex (ht : HashTable α) (key : KeyArg) (h : UInt64)
    (flag : DelFlag) :
    (ht.zendHashDelKeyOrIndex key h flag).1.nNextFreeElement = ht.nNextFreeElement := by
  unfold zendHashDelKeyOrIndex
  dsimp only
  split <;> simp

theorem nNextFreeElement_applyLoop (f : ℕ → α → ApplyResult α) (fuel n : ℕ) (o : Option Addr)
    (ht : HashTable α) : (applyLoop f fuel n o ht).nNextFreeElement = ht.nNextFreeElement := by
  induction fuel generalizing n o ht with
  | zero => rfl
  | succ fuel ih =>
    cases o with
    | none => rfl
    | some p =>
      rw [applyLoop]
      dsimp only
      split <;> split <;> simp [ih]

theorem nNextFreeElement_reverseApplyLoop (f : ℕ → α → ApplyResult α) (fuel n : ℕ)
    (o : Option Addr) (ht : HashTable α) :
    (reverseApplyLoop f fuel n o ht).nNextFreeElement = ht.nNextFreeElement := by
  induction fuel generalizing n o ht with
  | zero => rfl
  | succ fuel ih =>
    cases o with
    | none => rfl
    | some p =>
      rw [reverseApplyLoop]
      split <;> split <;> simp [ih]

theorem nNextFreeElement_gracefulDestroyLoop (fuel : ℕ) (o : Option Addr) (ht : HashTable α) :
    (gracefulDestroyLoop fuel o ht).nNextFreeElement = ht.nNextFreeElement := by
  induction fuel generalizing o ht with
  | zero => rfl
  | succ fuel ih =>
    cases o with
    | none => rfl
    | some p =>
      rw [gracefulDestroyLoop]
      simp [ih]

theorem nNextFreeElement_gracefulReverseDestroyLoop (fuel : ℕ) (ht : HashTable α) :
    (gracefulReverseDestroyLoop fuel ht).nNextFreeElement = ht.nNextFreeElement := by
  induction fuel generalizing ht with
  | zero => rfl
  | succ fuel ih =>
    unfold gracefulReverseDestroyLoop
    cases ht.pListTail with
    | none => rfl
    | some p => simp [ih]

theorem nNextFreeElement_relink (o : Option Addr) (m : List Addr) (ht : HashTable α) :
    (relink o m ht).nNextFreeElement = ht.nNextFreeElement := by
  induction m generalizing o ht with
  | nil => rfl
  | cons p m ih => exact ih _ _

theorem nNextFreeElement_rekey (malloc : Malloc) (ht : HashTable α) (k : KeyIndex) (p : Addr) :
    (ht.rekey malloc k p).1.nNextFreeElement = ht.nNextFreeElement := by
  have hstore : ∀ (ht : HashTable α) p, (ht.storeKey k p).nNextFreeElement =
      ht.nNextFreeElement := by
    intro ht p
    cases k <;> rfl
  unfold rekey
  dsimp only
  split <;> simp [hstore, moveBucket, pemalloc, rechainOut]

theorem nNextFreeElement_zendHashUpdateCurrentKeyEx (malloc : Malloc) (ht : HashTable α)
    (k : KeyIndex) (mode : UpdateMode) (pos : Option (Option Addr)) :
    (ht.zendHashUpdateCurrentKeyEx malloc k mode pos).1.nNextFreeElement =
      ht.nNextFreeElement := by
  unfold zendHashUpdateCurrentKeyEx
  cases pos.getD ht.pInternalPointer with
  | none => rfl
  | some p =>
    dsimp only
    split
    · rfl
    · split
      · rfl
      · cases ht.findTarget k with
        | none => exact nNextFreeElement_rekey ..
        | some q =>
          dsimp only
          split
          · simp
          · rw [nNextFreeElement_rekey]
            simp

def intKeys (ht : HashTable α) : Set UInt64 := {n | Key.int n ∈ keys ht.toMap}

theorem mem_intKeys : n ∈ ht.intKeys ↔ Key.int n ∈ keys ht.toMap := Iff.rfl

end HashTable

/-! ## The counter is above the integer keys -/

/-- The counter is above every key of `ks`, or as high as it gets. -/
def Above (m : UInt64) (ks : Set UInt64) : Prop :=
  ∀ n ∈ ks, toLong n < toLong m ∨ m = longMax

/-- A table in order whose counter, a non-negative `long`, is above its integer keys. -/
structure CounterOk (ht : HashTable α) : Prop where
  inv : Inv ht ht.buckets
  nonneg : 0 ≤ toLong ht.nNextFreeElement
  above : Above ht.nNextFreeElement ht.intKeys

theorem toLong_le_longMax (m : UInt64) : toLong m ≤ 9223372036854775807 := by
  have hlt := m.toNat_lt
  rw [toLong_eq]
  split <;> omega

theorem Above.mono {m m' : UInt64} {ks : Set UInt64} (h : Above m ks) (hle : toLong m ≤ toLong m') :
    Above m' ks := by
  intro n hn
  rcases h n hn with hlt | rfl
  · exact Or.inl (hlt.trans_le hle)
  · right
    refine toLong_injective (le_antisymm ?_ hle)
    exact toLong_le_longMax m'

theorem Above.subset {m : UInt64} {ks ks' : Set UInt64} (h : Above m ks) (hs : ks' ⊆ ks) :
    Above m ks' := fun n hn => h n (hs hn)

theorem bumpNextFree_spec (ht : HashTable α) (n : UInt64) :
    toLong ht.nNextFreeElement ≤ toLong (ht.bumpNextFree n).nNextFreeElement ∧
      (toLong n < toLong (ht.bumpNextFree n).nNextFreeElement ∨
        (ht.bumpNextFree n).nNextFreeElement = longMax) := by
  unfold HashTable.bumpNextFree
  split
  · rename_i hle
    have hmax : longMax.toNat = 9223372036854775807 := rfl
    by_cases hlt : n < longMax
    · have hlt' := UInt64.lt_iff_toNat_lt.mp hlt
      have h1 : (n + 1).toNat = n.toNat + 1 := by
        rw [UInt64.toNat_add]
        have : (1 : UInt64).toNat = 1 := rfl
        omega
      have hbump : toLong (n + 1) = toLong n + 1 := by
        rw [toLong_eq, toLong_eq, h1, if_pos (by omega), if_pos (by omega)]
        omega
      simp only [hlt, if_true, hbump]
      exact ⟨by omega, Or.inl (by omega)⟩
    · simp only [hlt, if_false]
      refine ⟨?_, by simp⟩
      exact toLong_le_longMax _
  · rename_i hle
    exact ⟨le_rfl, Or.inl (by omega)⟩

theorem CounterOk.of_keys_subset (h : CounterOk ht) (hi : Inv ht' l)
    (hn : ht'.nNextFreeElement = ht.nNextFreeElement)
    (hk : ∀ n, Key.int n ∈ keys (ht'.entries l) → Key.int n ∈ keys ht.toMap) : CounterOk ht' := by
  refine ⟨hi.buckets_eq ▸ hi, hn ▸ h.nonneg, hn ▸ h.above.subset fun n hmem => ?_⟩
  rw [HashTable.mem_intKeys, hi.toMap_eq] at hmem
  exact hk n hmem

/-! ## The single operations -/

theorem mem_keys_set {m : List (Key × α)} {k k' : Key} {v : α} (h : k' ∈ keys (OrderedMap.set m k v)) :
    k' = k ∨ k' ∈ keys m := by
  unfold OrderedMap.set at h
  split at h
  · right
    have hkeys : keys (replace m k v) = keys m := by
      simp only [keys, replace, List.map_map]
      refine List.map_congr_left fun e _ => ?_
      by_cases he : e.1 = k <;> simp [he]
    rwa [hkeys] at h
  · simpa [keys, or_comm] using h

theorem keys_subset_of_sublist {m m' : List (Key × α)} (h : List.Sublist m' m) {k : Key}
    (hk : k ∈ keys m') : k ∈ keys m :=
  (h.map Prod.fst).subset hk

theorem StoreSpec.keys_subset {k : Key} {addOnly : Prop} {r : HashTable α × Status × Option Addr}
    (h : StoreSpec malloc ht l k v addOnly r) :
    ∃ l', Inv r.1 l' ∧ ∀ k', k' ∈ keys (r.1.entries l') → k' = k ∨ k' ∈ keys (ht.entries l) := by
  rcases h with ⟨-, h⟩ | ⟨-, l', h⟩
  · exact ⟨l, h.inv, fun k' hk' => Or.inr (h.entries ▸ hk')⟩
  · refine ⟨l', h.inv, fun k' hk' => ?_⟩
    rw [h.entries] at hk'
    exact mem_keys_set hk'

theorem CounterOk.addOrUpdate (h : CounterOk ht) (malloc : Malloc)
    (hv : ValidKey ht ht.buckets key) (hlen : key.nKeyLength ≠ 0)
    (hroom : ht.nNumOfElements + 1 < 2 ^ 32) (v : α) (flag : Flag) :
    CounterOk (ht.addOrUpdate malloc key (zendInlineHashFunc key.bytes) v flag).1 := by
  have hspec := h.inv.addOrUpdate_any malloc hv hlen (room_of_count h.inv hroom) v flag
  obtain ⟨l', hi, hkeys⟩ := hspec.keys_subset
  refine h.of_keys_subset hi (HashTable.nNextFreeElement_addOrUpdate ..) fun n hn => ?_
  rcases hkeys _ hn with hkey | hn
  · rw [hkey]
    exact h.inv.storedKey_mem (by rw [← hkey]; simp)
  · exact hn

theorem bumpNextFree_congr (h : ht'.nNextFreeElement = ht.nNextFreeElement) (n : UInt64) :
    (ht'.bumpNextFree n).nNextFreeElement = (ht.bumpNextFree n).nNextFreeElement := by
  unfold HashTable.bumpNextFree
  rw [h]
  split
  · rfl
  · exact h

theorem indexUpdate_cases (malloc : Malloc) (ht : HashTable α) (n : UInt64) (v : α)
    (flag : Flag) :
    (ht.zendHashIndexUpdateOrNextInsert malloc n v flag).2.1 = .FAILURE ∧
        (ht.zendHashIndexUpdateOrNextInsert malloc n v flag).1 = ht.checkInit ∨
      (ht.zendHashIndexUpdateOrNextInsert malloc n v flag).2.1 = .SUCCESS ∧
        (ht.zendHashIndexUpdateOrNextInsert malloc n v flag).1.nNextFreeElement =
          (ht.bumpNextFree
            (if flag = .HASH_NEXT_INSERT then ht.nNextFreeElement else n)).nNextFreeElement := by
  unfold HashTable.zendHashIndexUpdateOrNextInsert
  dsimp only
  rw [HashTable.nNextFreeElement_checkInit]
  generalize (if flag = .HASH_NEXT_INSERT then ht.nNextFreeElement else n) = h'
  cases ht.checkInit.findIndex h' with
  | some p =>
    dsimp only
    split
    · exact Or.inl ⟨rfl, rfl⟩
    · exact Or.inr ⟨rfl, bumpNextFree_congr (by simp) h'⟩
  | none =>
    right
    refine ⟨rfl, ?_⟩
    rw [HashTable.nNextFreeElement_countBucket]
    exact bumpNextFree_congr (by simp [HashTable.pemalloc]) h'

theorem CounterOk.indexUpdate (h : CounterOk ht) (malloc : Malloc)
    (hroom : ht.nNumOfElements + 1 < 2 ^ 32) (n : UInt64) (v : α) (flag : Flag) :
    CounterOk (ht.zendHashIndexUpdateOrNextInsert malloc n v flag).1 ∧
      toLong ht.nNextFreeElement ≤
        toLong (ht.zendHashIndexUpdateOrNextInsert malloc n v flag).1.nNextFreeElement := by
  have hspec := h.inv.zendHashIndexUpdateOrNextInsert malloc (room_of_count h.inv hroom) n v flag
  obtain ⟨l', hi, hkeys⟩ := hspec.keys_subset
  rcases indexUpdate_cases malloc ht n v flag with ⟨-, hr⟩ | ⟨-, hr⟩
  · have hi' := h.inv.checkInit.1
    have he := entries_of_mem h.inv.checkInit.2.2 ht.buckets
    rw [hr]
    refine ⟨h.of_keys_subset hi' (by simp) fun n hn => ?_, by simp⟩
    rw [he] at hn
    exact hn
  · generalize (if flag = .HASH_NEXT_INSERT then ht.nNextFreeElement else n) = h' at *
    obtain ⟨hle, habove⟩ := bumpNextFree_spec ht h'
    rw [← hr] at hle habove
    refine ⟨⟨hi.buckets_eq ▸ hi, h.nonneg.trans hle, fun k hk => ?_⟩, hle⟩
    rw [HashTable.mem_intKeys, hi.toMap_eq] at hk
    rcases hkeys _ hk with heq | hold
    · rw [Key.int.injEq] at heq
      exact heq ▸ habove
    · rw [← h.inv.toMap_eq] at hold
      exact (h.above.mono hle) k hold

/-! ## Copying and merging -/

/-- A target between two turns: its counter is in order and not below `m`, and none of its
blocks is one of the source. -/
structure CounterTarget (ls : List Addr) (m : UInt64) (target : HashTable α) : Prop where
  counter : CounterOk target
  apart : ∀ a ∈ target.buckets, a ∉ ls
  mono : toLong m ≤ toLong target.nNextFreeElement

/-- A turn of a loop: the target stays in order and gets one bucket at most. -/
structure CounterTurn (ls : List Addr) (m : UInt64) (target target' : HashTable α) : Prop where
  ok : CounterTarget ls m target'
  count : target'.nNumOfElements ≤ target.nNumOfElements + 1

theorem StoreSpec.mem_buckets {k : Key} {addOnly : Prop} {r : HashTable α × Status × Option Addr}
    (h : StoreSpec malloc ht l k v addOnly r) :
    ∀ a ∈ r.1.buckets, a ∈ l ∨ ∃ s, a = malloc.addr s := by
  rcases h with ⟨-, h⟩ | ⟨-, l', h⟩
  · rw [h.inv.buckets_eq]
    exact fun a ha => Or.inl ha
  · rw [h.inv.buckets_eq]
    exact fun a ha => (h.buckets a ha).imp And.left And.left

theorem StoreSpec.length_buckets_le {k : Key} {addOnly : Prop}
    {r : HashTable α × Status × Option Addr} (h : StoreSpec malloc ht l k v addOnly r) :
    r.1.buckets.length ≤ l.length + 1 := by
  rcases h with ⟨-, h⟩ | ⟨-, l', h⟩
  · rw [h.inv.buckets_eq]
    omega
  · rw [h.inv.buckets_eq]
    have hle : (OrderedMap.set (ht.entries l) k v).length ≤ (ht.entries l).length + 1 :=
      length_set_le
    rw [← h.entries] at hle
    simpa [HashTable.entries] using hle

theorem CounterOk.copyConstruct (h : CounterOk ht) (ctor : Option (α → α)) (o : Option Addr) :
    CounterOk (HashTable.copyConstruct ctor o ht) ∧
      (HashTable.copyConstruct ctor o ht).buckets = ht.buckets ∧
      (HashTable.copyConstruct ctor o ht).nNextFreeElement = ht.nNextFreeElement := by
  cases ctor with
  | none => exact ⟨h, rfl, rfl⟩
  | some f =>
    have hmem : ∀ x, ∃ v, (HashTable.copyConstruct (some f) o ht).mem x =
        { ht.mem x with pData := v } := by
      intro x
      simp only [HashTable.copyConstruct, HashTable.storeAt_mem]
      split
      · exact ⟨_, rfl⟩
      · exact ⟨(ht.mem x).pData, rfl⟩
    obtain ⟨hi, hk⟩ := h.inv.of_pData (HashTable.copyConstruct (some f) o ht) rfl hmem
    refine ⟨h.of_keys_subset hi rfl fun n hn => ?_, hi.buckets_eq, rfl⟩
    obtain ⟨a, ha, hka⟩ := mem_keys_entries.mp hn
    rw [hk a ha] at hka
    exact mem_keys_entries.mpr ⟨a, ha, hka⟩

theorem CounterTarget.of_store {m : UInt64} (h : CounterTarget ls m target)
    (hm : ∀ s, malloc.addr s ∉ ls) {k : Key} {addOnly : Prop}
    {r : HashTable α × Status × Option Addr}
    (hspec : StoreSpec malloc target target.buckets k v addOnly r) (hc : CounterOk r.1)
    (hmono : toLong target.nNextFreeElement ≤ toLong r.1.nNextFreeElement) :
    CounterTurn ls m target r.1 ∧ ∀ ctor : Option (α → α),
      CounterTurn ls m target (HashTable.copyConstruct ctor r.2.2 r.1) := by
  have hapart : ∀ a ∈ r.1.buckets, a ∉ ls := by
    intro a ha
    rcases hspec.mem_buckets a ha with ha | ⟨s, rfl⟩
    · exact h.apart a ha
    · exact hm s
  have hcount : r.1.nNumOfElements ≤ target.nNumOfElements + 1 := by
    rw [hc.inv.count, h.counter.inv.count]
    exact hspec.length_buckets_le
  refine ⟨⟨⟨hc, hapart, h.mono.trans hmono⟩, hcount⟩, fun ctor => ?_⟩
  obtain ⟨hc', hb, hn⟩ := hc.copyConstruct ctor r.2.2
  refine ⟨⟨hc', hb ▸ hapart, by rw [hn]; exact h.mono.trans hmono⟩, ?_⟩
  rw [hc'.inv.count, hb, ← hc.inv.count]
  exact hcount

theorem CounterTarget.quickUpdate {m : UInt64} (h : CounterTarget ls m target)
    (hsrc : Inv source ls) (hm : ∀ s, malloc.addr s ∉ ls) (hp : p ∈ ls)
    (h0 : (source.mem p).nKeyLength ≠ 0) (hroom : target.nNumOfElements + 1 < 2 ^ 32)
    (flag : Flag) :
    let r := target.zendHashQuickAddOrUpdate malloc (source.keyArg p) (source.mem p).h
      (source.mem p).pData flag
    CounterTurn ls m target r.1 ∧ ∀ ctor : Option (α → α),
      CounterTurn ls m target (HashTable.copyConstruct ctor r.2.2 r.1) := by
  have hk := hsrc.keys p hp
  have hlen := keyArg_nKeyLength hk h0
  have hv : ValidKey target target.buckets (source.keyArg p) :=
    validKey_of_apart h.apart hp hk h0
  have hh : (source.mem p).h = zendInlineHashFunc (source.keyArg p).bytes := hk.hash h0
  dsimp only
  rw [HashTable.zendHashQuickAddOrUpdate, if_neg hlen, hh]
  have hspec := h.counter.inv.addOrUpdate_any malloc hv hlen
    (room_of_count h.counter.inv hroom) (source.mem p).pData flag
  refine h.of_store hm hspec (h.counter.addOrUpdate malloc hv hlen hroom _ flag) ?_
  rw [HashTable.nNextFreeElement_addOrUpdate]

theorem CounterTarget.indexUpdate {m : UInt64} (h : CounterTarget ls m target)
    (hm : ∀ s, malloc.addr s ∉ ls) (hroom : target.nNumOfElements + 1 < 2 ^ 32) (n : UInt64)
    (v : α) :
    let r := target.zendHashIndexUpdateOrNextInsert malloc n v .HASH_UPDATE
    CounterTurn ls m target r.1 ∧ ∀ ctor : Option (α → α),
      CounterTurn ls m target (HashTable.copyConstruct ctor r.2.2 r.1) := by
  obtain ⟨hc, hmono⟩ := h.counter.indexUpdate malloc hroom n v .HASH_UPDATE
  exact h.of_store hm (h.counter.inv.zendHashIndexUpdateOrNextInsert malloc
    (room_of_count h.counter.inv hroom) n v .HASH_UPDATE) hc hmono

/-- One turn of `zend_hash_copy`. -/
theorem CounterTarget.copyElement {m : UInt64} (h : CounterTarget ls m target)
    (hsrc : Inv source ls) (hm : ∀ s, malloc.addr s ∉ ls) (hp : p ∈ ls)
    (hroom : target.nNumOfElements + 1 < 2 ^ 32) (ctor : Option (α → α)) (b : Bool) :
    CounterTurn ls m target (HashTable.copyElement malloc source ctor b p target) := by
  -- the target with its internal pointer perhaps reset
  obtain ⟨t1, ht1, h1, hc1⟩ : ∃ t1, t1 = (if b = true ∧ source.pInternalPointer = some p
      then { target with pInternalPointer := none } else target) ∧ CounterTarget ls m t1 ∧
      t1.nNumOfElements = target.nNumOfElements := by
    refine ⟨_, rfl, ?_⟩
    split
    · have hi := h.counter.inv.of_pInternalPointer (o := none) (by simp)
      exact ⟨⟨h.counter.of_keys_subset hi rfl fun n hn => hn, hi.buckets_eq ▸ h.apart, h.mono⟩, rfl⟩
    · exact ⟨h, rfl⟩
  suffices hturn : CounterTurn ls m t1 (HashTable.copyElement malloc source ctor b p target) from
    ⟨hturn.ok, hc1 ▸ hturn.count⟩
  unfold HashTable.copyElement
  dsimp only
  rw [← ht1]
  by_cases h0 : (source.mem p).nKeyLength = 0
  · rw [if_neg (not_not.mpr h0)]
    exact (h1.indexUpdate hm (by rw [hc1]; exact hroom) _ _).2 ctor
  · rw [if_pos h0]
    exact (h1.quickUpdate hsrc hm hp h0 (by rw [hc1]; exact hroom) _).2 ctor

/-- One turn of `_zend_hash_merge`. -/
theorem CounterTarget.mergeElement {m : UInt64} (h : CounterTarget ls m target)
    (hsrc : Inv source ls) (hm : ∀ s, malloc.addr s ∉ ls) (hp : p ∈ ls)
    (hroom : target.nNumOfElements + 1 < 2 ^ 32) (ctor : Option (α → α)) (overwrite : Bool) :
    CounterTurn ls m target (HashTable.mergeElement malloc source ctor overwrite p target) := by
  unfold HashTable.mergeElement
  dsimp only
  by_cases h0 : (source.mem p).nKeyLength = 0
  · rw [if_neg (by omega)]
    split
    · obtain ⟨hr, hctor⟩ := h.indexUpdate hm hroom (source.mem p).h (source.mem p).pData
      split
      · exact hctor ctor
      · exact hr
    · exact ⟨h, by omega⟩
  · rw [if_pos (by omega)]
    obtain ⟨hr, hctor⟩ := h.quickUpdate hsrc hm hp h0 hroom
      (if overwrite then .HASH_UPDATE else .HASH_ADD)
    generalize (if overwrite = true then Flag.HASH_UPDATE else .HASH_ADD) = flag at *
    split
    · exact hctor ctor
    · exact hr

theorem CounterTarget.sourceLoop {m : UInt64} {f : Addr → HashTable α → HashTable α}
    (hturn : ∀ target p, CounterTarget ls m target → p ∈ ls →
      target.nNumOfElements + 1 < 2 ^ 32 → CounterTurn ls m target (f p target))
    (hsrc : Inv source ls) (h : CounterTarget ls m target)
    (hroom : target.nNumOfElements + source.nNumOfElements < 2 ^ 32) :
    CounterTarget ls m (HashTable.sourceLoop source f source.loopBound source.pListHead
      target) := by
  have hfold : ∀ (t : List Addr) (target : HashTable α), (∀ a ∈ t, a ∈ ls) →
      CounterTarget ls m target → target.nNumOfElements + t.length < 2 ^ 32 →
      CounterTarget ls m (t.foldl (fun target p => f p target) target) := by
    intro t
    induction t with
    | nil => exact fun target _ h _ => h
    | cons p t ih =>
      intro target hsub h hroom
      rw [List.length_cons] at hroom
      have hone := hturn target p h (hsub p (by simp)) (by omega)
      have hcount := hone.count
      refine ih _ (fun a ha => hsub a (by simp [ha])) hone.ok ?_
      show (f p target).nNumOfElements + t.length < 2 ^ 32
      omega
  rw [hsrc.list.head, sourceLoop_eq_foldl _ _ hsrc.list.seg (by rw [hsrc.loopBound_eq]; omega)]
  exact hfold ls target (fun _ ha => ha) h (by rw [← hsrc.count]; exact hroom)

/-! ## Runs with their integer keys -/

/-- `zend_hash_clean`, and `zend_hash_sort` with `renumber` on a table with elements. -/
def Op.Renumbers (ht : HashTable α) : Op α → Prop
  | .clean => True
  | .sort _ renumber => renumber = true ∧ ht.nNumOfElements ≠ 0
  | _ => False

/-- The integer keys stored since the last clean or renumbering, when these were `ks` before
the operation. -/
def Op.history (ht : HashTable α) (ks : Set UInt64) (op : Op α) : Set UInt64 :=
  {n | n ∈ (op.run ht).intKeys ∨ ¬ op.Renumbers ht ∧ n ∈ ks}

/-- The tables reached by operations that satisfy `P`, with the integer keys stored since the
last clean or renumbering. -/
inductive HistoryRun (P : HashTable α → Op α → Prop) : HashTable α → Set UInt64 → Prop
  | init (mem : Addr → Bucket α) (nSize : ℕ) : HistoryRun P (zendHashInit mem nSize) ∅
  | step {ht : HashTable α} {ks : Set UInt64} (h : HistoryRun P ht ks) (op : Op α)
      (ha : Admissible ht op) (hp : P ht op) (sourceKeys : Set UInt64)
      (hs : ∀ source, op.source = some source → HistoryRun P source sourceKeys) :
      HistoryRun P (op.run ht) (op.history ht ks)

/-- A key change gives no bucket an integer key that the counter has not passed, and no
string by the key pointer of an integer bucket; the counters of buckets do not wrap. -/
def KeyChangeOk (ht : HashTable α) : Op α → Prop
  | .addOrUpdate _ _ _ _ => ht.nNumOfElements + 1 < 2 ^ 32
  | .quickAddOrUpdate _ _ _ _ _ => ht.nNumOfElements + 1 < 2 ^ 32
  | .indexUpdateOrNextInsert _ _ _ _ => ht.nNumOfElements + 1 < 2 ^ 32
  | .sort _ _ => ht.nNumOfElements < 2 ^ 31
  | .updateCurrentKeyEx _ key _ pos =>
      key.NotStale ht ht.buckets ∧ ∀ n, key = .long n → pos.getD ht.pInternalPointer ≠ none →
        toLong n < toLong ht.nNextFreeElement ∨ ht.nNextFreeElement = longMax
  | .copy _ source _ => ht.nNumOfElements + source.nNumOfElements < 2 ^ 32
  | .merge _ source _ _ => ht.nNumOfElements + source.nNumOfElements < 2 ^ 32
  | _ => True

theorem toLong_zero : toLong 0 = 0 := by decide

theorem nNextFreeElement_zendHashClean (ht : HashTable α) :
    ht.zendHashClean.nNextFreeElement = 0 := by
  have hloop : ∀ (fuel : ℕ) (o : Option Addr) (ht : HashTable α),
      (HashTable.cleanLoop fuel o ht).nNextFreeElement = ht.nNextFreeElement := by
    intro fuel
    induction fuel with
    | zero => exact fun o ht => rfl
    | succ fuel ih =>
      intro o ht
      cases o with
      | none => rfl
      | some q =>
        rw [HashTable.cleanLoop, ih]
        simp
  rw [HashTable.zendHashClean, hloop]

theorem CounterOk.of_empty (hi : Inv ht []) (hn : 0 ≤ toLong ht.nNextFreeElement) :
    CounterOk ht := by
  refine ⟨hi.buckets_eq ▸ hi, hn, fun n hmem => ?_⟩
  rw [HashTable.mem_intKeys, hi.toMap_eq] at hmem
  exact absurd hmem (by simp [keys])

theorem mem_keys_applyEntries (f : ℕ → α → ApplyResult α) (n : ℕ) {m : List (Key × α)} {k : Key}
    (h : k ∈ keys (applyEntries f n m)) : k ∈ keys m := by
  induction m generalizing n with
  | nil => exact h
  | cons e m ih =>
    obtain ⟨k', v'⟩ := e
    have hrest : ∀ rest : List (Key × α), (k ∈ keys rest → k ∈ keys m) →
        k ∈ keys (if (f n v').remove then rest else (k', (f n v').pDest) :: rest) →
        k ∈ keys ((k', v') :: m) := by
      intro rest hsub hk
      split at hk
      · exact List.mem_cons_of_mem _ (hsub hk)
      · rcases List.mem_cons.mp hk with rfl | hk
        · exact List.mem_cons_self
        · exact List.mem_cons_of_mem _ (hsub hk)
    refine hrest _ (fun hk => ?_) h
    split at hk
    · exact hk
    · exact ih (n + 1) hk

theorem mem_keys_rekeyEntries {m : List (Key × α)} {k k' k'' : Key} {b : Bool}
    (h : k'' ∈ keys (rekeyEntries m k k' b)) : k'' = k' ∨ k'' ∈ keys m := by
  unfold rekeyEntries at h
  split at h
  · exact Or.inr (keys_subset_of_sublist List.filter_sublist h)
  · obtain ⟨e, he, rfl⟩ := List.mem_map.mp h
    obtain ⟨e0, he0, rfl⟩ := List.mem_map.mp he
    split
    · exact Or.inl rfl
    · exact Or.inr (keys_subset_of_sublist List.filter_sublist (List.mem_map_of_mem he0))

theorem CounterOk.updateCurrentKeyEx (h : CounterOk ht) (malloc : Malloc) {k : KeyIndex}
    (hv : k.Valid ht ht.buckets) (mode : UpdateMode) (pos : Option (Option Addr))
    (hpos : ∀ p, pos = some (some p) → p ∈ ht.buckets) (hs : k.NotStale ht ht.buckets)
    (hlt : ∀ n, k = .long n → pos.getD ht.pInternalPointer ≠ none →
      toLong n < toLong ht.nNextFreeElement ∨ ht.nNextFreeElement = longMax) :
    CounterOk (ht.zendHashUpdateCurrentKeyEx malloc k mode pos).1 := by
  have hpos' : ∀ p, pos.getD ht.pInternalPointer = some p → p ∈ ht.buckets := by
    intro p hp
    cases pos with
    | none => exact h.inv.list.pointer p hp
    | some o => exact hpos p (congrArg some hp)
  obtain ⟨l', hi, he⟩ := h.inv.zendHashUpdateCurrentKeyEx malloc hv mode pos (hs.noHit hpos')
    hpos'
  have hn := HashTable.nNextFreeElement_zendHashUpdateCurrentKeyEx malloc ht k mode pos
  refine ⟨hi.buckets_eq ▸ hi, hn ▸ h.nonneg, ?_⟩
  cases hp : pos.getD ht.pInternalPointer with
  | none =>
    have hsame : (ht.zendHashUpdateCurrentKeyEx malloc k mode pos).1 = ht := by
      simp [HashTable.zendHashUpdateCurrentKeyEx, hp]
    rw [hsame]
    exact h.above
  | some p =>
    by_cases hk : k = .other
    · have hsame : (ht.zendHashUpdateCurrentKeyEx malloc k mode pos).1 = ht := by
        simp [HashTable.zendHashUpdateCurrentKeyEx, hp, hk]
      rw [hsame]
      exact h.above
    by_cases hkey : ht.keyOf p = k.toKey
    · have hhas := (h.inv.hasKeyIndex_iff hv hk (hpos' p hp)
        ((hs.noHit hpos').current p hp)).mpr hkey
      have hsame : (ht.zendHashUpdateCurrentKeyEx malloc k mode pos).1 = ht := by
        simp [HashTable.zendHashUpdateCurrentKeyEx, hp, hk, hhas]
      rw [hsame]
      exact h.above
    · have he := he p hp hk hkey
      intro n hmem
      rw [hn]
      rw [HashTable.mem_intKeys, hi.toMap_eq, he] at hmem
      rcases mem_keys_rekeyEntries hmem with heq | hold
      · cases k with
        | long m =>
          rw [KeyIndex.toKey, Key.int.injEq] at heq
          exact heq ▸ hlt m rfl (by simp [hp])
        | string k => exact absurd heq (by simp [KeyIndex.toKey])
        | other => exact absurd rfl hk
      · rw [← h.inv.toMap_eq] at hold
        exact h.above n hold

/-- `zend_hash_sort`. -/
theorem CounterOk.sort (h : CounterOk ht) (f : SortFunc α) (renumber : Bool)
    (hroom : ht.nNumOfElements < 2 ^ 31) :
    CounterOk (ht.zendHashSort f renumber) ∧
      (¬ (renumber = true ∧ ht.nNumOfElements ≠ 0) →
        (ht.zendHashSort f renumber).nNextFreeElement = ht.nNextFreeElement) := by
  have hroom' : ht.buckets.length < 2 ^ 31 := by rw [← h.inv.count]; exact hroom
  cases renumber with
  | false =>
    obtain ⟨l', hi, hperm, he⟩ := h.inv.zendHashSort f false hroom'
    have hn : (ht.zendHashSort f false).nNextFreeElement = ht.nNextFreeElement := by
      unfold HashTable.zendHashSort
      split
      · rfl
      · simp [HashTable.nNextFreeElement_relink]
    refine ⟨h.of_keys_subset hi hn fun n hmem => ?_, fun _ => hn⟩
    rw [he, if_neg (by simp)] at hmem
    obtain ⟨a, ha, hka⟩ := mem_keys_entries.mp hmem
    exact mem_keys_entries.mpr ⟨a, hperm.mem_iff.mp ha, hka⟩
  | true =>
    by_cases hl : ht.buckets = []
    · have h0 : ht.nNumOfElements = 0 := by rw [h.inv.count, hl]; rfl
      have hsame : ht.zendHashSort f true = ht := by simp [HashTable.zendHashSort, h0]
      rw [hsame]
      exact ⟨h, fun _ => rfl⟩
    · have h0 : ht.nNumOfElements ≠ 0 := by
        rw [h.inv.count]
        exact fun h0 => hl (List.length_eq_zero_iff.mp h0)
      refine ⟨?_, fun hr => absurd ⟨rfl, h0⟩ hr⟩
      have hs := h.inv.sortedTo hl hroom' f
      have hperm : (ht.sorted f).Perm ht.buckets := f.perm ht.mem ht.buckets
      have hlen : (ht.sorted f).length < 2147483648 := by
        rw [hperm.length_eq]
        exact hroom'
      have hnat : ∀ i, i ≤ (ht.sorted f).length → toLong (UInt64.ofNat i) = i := by
        intro i hi
        have hi' : (UInt64.ofNat i).toNat = i := UInt64.toNat_ofNat_of_lt' (by
          have : UInt64.size = 18446744073709551616 := rfl
          omega)
        rw [toLong_eq, hi', if_pos (by omega)]
      refine ⟨hs.inv.buckets_eq ▸ hs.inv, ?_, fun n hmem => ?_⟩
      · rw [hs.nNextFreeElement, hnat _ le_rfl]
        omega
      · rw [HashTable.mem_intKeys, hs.keys_eq, List.mem_map] at hmem
        obtain ⟨i, hi, heq⟩ := hmem
        rw [List.mem_range] at hi
        rw [Key.int.injEq] at heq
        left
        rw [← heq, hs.nNextFreeElement, hnat i hi.le, hnat _ le_rfl]
        omega

/-- **One step** keeps the counter above the integer keys, and lowers it only when it is a
clean or a renumbering. -/
theorem CounterOk.step (h : CounterOk ht) (op : Op α) (ha : Admissible ht op)
    (hp : KeyChangeOk ht op) (hs : ∀ source, op.source = some source → CounterOk source) :
    CounterOk (op.run ht) ∧
      (¬ op.Renumbers ht → toLong ht.nNextFreeElement ≤ toLong (op.run ht).nNextFreeElement) := by
  have hb := h.inv.toMap_eq
  cases op with
  | addOrUpdate malloc key v flag =>
    simp only [Op.run, HashTable.zendHashAddOrUpdate]
    split
    · exact ⟨h, fun _ => le_rfl⟩
    · rename_i hlen
      refine ⟨h.addOrUpdate malloc ha hlen hp v flag, fun _ => ?_⟩
      rw [HashTable.nNextFreeElement_addOrUpdate]
  | quickAddOrUpdate malloc key n v flag =>
    simp only [Op.run, HashTable.zendHashQuickAddOrUpdate]
    split
    · obtain ⟨hc, hle⟩ := h.indexUpdate malloc hp n v .HASH_UPDATE
      exact ⟨hc, fun _ => hle⟩
    · rename_i hlen
      obtain ⟨hv, rfl⟩ := ha hlen
      refine ⟨h.addOrUpdate malloc hv hlen hp v flag, fun _ => ?_⟩
      rw [HashTable.nNextFreeElement_addOrUpdate]
  | indexUpdateOrNextInsert malloc n v flag =>
    obtain ⟨hc, hle⟩ := h.indexUpdate malloc hp n v flag
    exact ⟨hc, fun _ => hle⟩
  | delKeyOrIndex key n flag =>
    simp only [Op.run]
    obtain ⟨l', hi, he, -⟩ := h.inv.zendHashDelKeyOrIndex n flag ha
    have hn := HashTable.nNextFreeElement_zendHashDelKeyOrIndex ht key n flag
    refine ⟨h.of_keys_subset hi hn fun m hm => ?_, fun _ => by rw [hn]⟩
    rw [he, ← hb] at hm
    exact keys_subset_of_sublist List.filter_sublist hm
  | applyDeleter p =>
    simp only [Op.run]
    obtain ⟨s, t, hst⟩ := List.append_of_mem ha
    have hinv := h.inv
    rw [hst] at hinv
    obtain ⟨hr, -⟩ := hinv.zendHashApplyDeleter
    refine ⟨h.of_keys_subset hr.inv (by simp) fun m hm => ?_, fun _ => by simp⟩
    rw [hr.entries, ← hst, ← hb] at hm
    exact keys_subset_of_sublist List.filter_sublist hm
  | apply f =>
    simp only [Op.run]
    obtain ⟨l', hi, he⟩ := h.inv.zendHashApply f
    have hn : (ht.zendHashApply f).nNextFreeElement = ht.nNextFreeElement :=
      HashTable.nNextFreeElement_applyLoop ..
    refine ⟨h.of_keys_subset hi hn fun m hm => ?_, fun _ => by rw [hn]⟩
    rw [he, ← hb] at hm
    exact mem_keys_applyEntries f 0 hm
  | reverseApply f =>
    simp only [Op.run]
    obtain ⟨l', hi, he⟩ := h.inv.zendHashReverseApply f
    have hn : (ht.zendHashReverseApply f).nNextFreeElement = ht.nNextFreeElement :=
      HashTable.nNextFreeElement_reverseApplyLoop ..
    refine ⟨h.of_keys_subset hi hn fun m hm => ?_, fun _ => by rw [hn]⟩
    rw [he, ← hb] at hm
    simp only [keys, List.map_reverse, List.mem_reverse] at hm
    have hmem := mem_keys_applyEntries f 0 (m := ht.toMap.reverse) hm
    simpa [keys] using hmem
  | gracefulDestroy =>
    simp only [Op.run]
    have hn : ht.zendHashGracefulDestroy.nNextFreeElement = ht.nNextFreeElement :=
      HashTable.nNextFreeElement_gracefulDestroyLoop ..
    refine ⟨CounterOk.of_empty h.inv.zendHashGracefulDestroy (by rw [hn]; exact h.nonneg),
      fun _ => by rw [hn]⟩
  | gracefulReverseDestroy =>
    simp only [Op.run]
    have hn : ht.zendHashGracefulReverseDestroy.nNextFreeElement = ht.nNextFreeElement :=
      HashTable.nNextFreeElement_gracefulReverseDestroyLoop ..
    refine ⟨CounterOk.of_empty h.inv.zendHashGracefulReverseDestroy (by rw [hn]; exact h.nonneg),
      fun _ => by rw [hn]⟩
  | clean =>
    simp only [Op.run]
    have hn : ht.zendHashClean.nNextFreeElement = 0 := nNextFreeElement_zendHashClean ht
    exact ⟨CounterOk.of_empty h.inv.zendHashClean (by rw [hn, toLong_zero]),
      fun hr => absurd trivial hr⟩
  | rehash =>
    simp only [Op.run]
    obtain ⟨hi, hstep⟩ := h.inv.zendHashRehash
    refine ⟨h.of_keys_subset hi (by simp) fun m hm => ?_, fun _ => by simp⟩
    rw [hstep.entries h.inv.toInvCore, ← hb] at hm
    exact hm
  | doResize =>
    simp only [Op.run]
    have hl : ht.buckets ≠ [] := fun hl => ha (by rw [h.inv.count, hl]; rfl)
    obtain ⟨hi, hpay⟩ := h.inv.zendHashDoResize hl
    refine ⟨h.of_keys_subset hi (by simp) fun m hm => ?_, fun _ => by simp⟩
    rw [entries_congr h.inv.keys fun a _ => hpay a, ← hb] at hm
    exact hm
  | sort f renumber =>
    simp only [Op.run]
    obtain ⟨hc, hn⟩ := h.sort f renumber hp
    refine ⟨hc, fun hr => ?_⟩
    rw [hn hr]
  | updateCurrentKeyEx malloc key mode pos =>
    simp only [Op.run]
    refine ⟨h.updateCurrentKeyEx malloc ha.1 mode pos ha.2 hp.1 hp.2, fun _ => ?_⟩
    rw [HashTable.nNextFreeElement_zendHashUpdateCurrentKeyEx]
  | copy malloc source ctor =>
    have hsrc := (hs source rfl).inv
    have htarget : CounterTarget source.buckets ht.nNextFreeElement ht := ⟨h, ha.1, le_rfl⟩
    have hloop := htarget.sourceLoop
      (f := HashTable.copyElement malloc source ctor ht.pInternalPointer.isNone)
      (fun target p ht_ hp hroom => ht_.copyElement hsrc ha.2 hp hroom ctor _) hsrc hp
    simp only [Op.run, HashTable.zendHashCopy]
    generalize HashTable.sourceLoop source _ source.loopBound source.pListHead ht = target at *
    split
    · have hi := hloop.counter.inv.of_pInternalPointer (o := target.pListHead) fun a ha =>
        List.mem_of_head? (hloop.counter.inv.list.head ▸ ha)
      exact ⟨hloop.counter.of_keys_subset hi rfl fun n hn => hn, fun _ => hloop.mono⟩
    · exact ⟨hloop.counter, fun _ => hloop.mono⟩
  | merge malloc source ctor overwrite =>
    have hsrc := (hs source rfl).inv
    have htarget : CounterTarget source.buckets ht.nNextFreeElement ht := ⟨h, ha.1, le_rfl⟩
    have hloop := htarget.sourceLoop
      (f := HashTable.mergeElement malloc source ctor overwrite)
      (fun target p ht_ hp hroom => ht_.mergeElement hsrc ha.2 hp hroom ctor _) hsrc hp
    simp only [Op.run, HashTable.zendHashMerge]
    generalize HashTable.sourceLoop source _ source.loopBound source.pListHead ht = target at *
    have hi := hloop.counter.inv.of_pInternalPointer (o := target.pListHead) fun a ha =>
      List.mem_of_head? (hloop.counter.inv.list.head ▸ ha)
    exact ⟨hloop.counter.of_keys_subset hi rfl fun n hn => hn, fun _ => hloop.mono⟩

/-- **Along a run** the counter stays above every integer key stored since the last clean or
renumbering. -/
theorem HistoryRun.counterOk {ks : Set UInt64} (h : HistoryRun KeyChangeOk ht ks) :
    CounterOk ht ∧ Above ht.nNextFreeElement ks := by
  induction h with
  | init mem nSize =>
    refine ⟨CounterOk.of_empty (Inv.zendHashInit mem nSize) ?_, fun n hn => absurd hn (by simp)⟩
    exact toLong_zero.ge
  | step h op ha hp sourceKeys hs ih ihs =>
    obtain ⟨hc, habove⟩ := ih
    obtain ⟨hc', hmono⟩ := hc.step op ha hp fun source hsource => (ihs source hsource).1
    refine ⟨hc', fun n hn => ?_⟩
    rcases hn with hn | ⟨hr, hn⟩
    · exact hc'.above n hn
    · exact habove.mono (hmono hr) n hn

/-! ## Inserting under the next free index -/

/-- What the counter is for, in a table with the integer keys `ks` stored since the last
clean or renumbering. -/
structure NextFreeOk (ht : HashTable α) (ks : Set UInt64) : Prop where
  /-- The counter is above the keys, unless it has reached `LONG_MAX`. -/
  above : 0 ≤ toLong ht.nNextFreeElement ∧ Above ht.nNextFreeElement ks
  /-- `zend_hash_next_index_insert` appends, or fails and changes nothing. -/
  appends : ∀ malloc h v, ht.nNumOfElements + 1 < 2 ^ 32 →
    (ht.zendHashIndexUpdateOrNextInsert malloc h v .HASH_NEXT_INSERT).2.1 = .SUCCESS ∧
        (ht.zendHashIndexUpdateOrNextInsert malloc h v .HASH_NEXT_INSERT).1.toMap =
          ht.toMap ++ [(.int ht.nNextFreeElement, v)] ∨
      (ht.zendHashIndexUpdateOrNextInsert malloc h v .HASH_NEXT_INSERT).2.1 = .FAILURE ∧
        (ht.zendHashIndexUpdateOrNextInsert malloc h v .HASH_NEXT_INSERT).1 = ht
  /-- Below `LONG_MAX` it appends, with a key above all integer keys. -/
  below : toLong ht.nNextFreeElement < toLong longMax →
    (∀ n ∈ ht.intKeys, toLong n < toLong ht.nNextFreeElement) ∧
      ∀ malloc h v, ht.nNumOfElements + 1 < 2 ^ 32 →
        (ht.zendHashIndexUpdateOrNextInsert malloc h v .HASH_NEXT_INSERT).2.1 = .SUCCESS
  /-- At `LONG_MAX` it fails when that key is present. -/
  full : ht.nNextFreeElement = longMax → longMax ∈ ht.intKeys → ∀ malloc h v,
    ht.nNumOfElements + 1 < 2 ^ 32 →
      (ht.zendHashIndexUpdateOrNextInsert malloc h v .HASH_NEXT_INSERT).2.1 = .FAILURE ∧
        (ht.zendHashIndexUpdateOrNextInsert malloc h v .HASH_NEXT_INSERT).1 = ht

theorem CounterOk.nextInsert (h : CounterOk ht) (malloc : Malloc) (n : UInt64) (v : α)
    (hroom : ht.nNumOfElements + 1 < 2 ^ 32) :
    ht.nNextFreeElement ∈ ht.intKeys ∧
        (ht.zendHashIndexUpdateOrNextInsert malloc n v .HASH_NEXT_INSERT).2.1 = .FAILURE ∧
        (ht.zendHashIndexUpdateOrNextInsert malloc n v .HASH_NEXT_INSERT).1 = ht ∨
      ht.nNextFreeElement ∉ ht.intKeys ∧
        (ht.zendHashIndexUpdateOrNextInsert malloc n v .HASH_NEXT_INSERT).2.1 = .SUCCESS ∧
        (ht.zendHashIndexUpdateOrNextInsert malloc n v .HASH_NEXT_INSERT).1.toMap =
          ht.toMap ++ [(.int ht.nNextFreeElement, v)] := by
  have hspec := h.inv.zendHashIndexUpdateOrNextInsert malloc (room_of_count h.inv hroom) n v
    .HASH_NEXT_INSERT
  rw [if_pos rfl] at hspec
  rw [HashTable.mem_intKeys, h.inv.toMap_eq]
  rcases hspec with ⟨-, hr⟩ | ⟨hnew, l', hr⟩
  · left
    have hl : ht.buckets ≠ [] := by
      obtain ⟨a, ha, -⟩ := mem_keys_entries.mp hr.present
      exact List.ne_nil_of_mem ha
    refine ⟨hr.present, hr.status, ?_⟩
    rcases indexUpdate_cases malloc ht n v .HASH_NEXT_INSERT with ⟨-, hc⟩ | ⟨hs, -⟩
    · rw [hc, h.inv.checkInit_eq hl]
    · rw [hr.status] at hs
      exact absurd hs (by decide)
  · right
    have hnew := hnew (Or.inl rfl)
    refine ⟨hnew, hr.status, ?_⟩
    rw [hr.inv.toMap_eq, hr.entries, set_of_notMem hnew]

/-- **The next free index along a run.** -/
theorem nextFreeOk_of_historyRun {ks : Set UInt64} (h : HistoryRun KeyChangeOk ht ks) :
    NextFreeOk ht ks := by
  obtain ⟨hc, habove⟩ := h.counterOk
  have hnot : toLong ht.nNextFreeElement < toLong longMax →
      ∀ n ∈ ht.intKeys, toLong n < toLong ht.nNextFreeElement := by
    intro hlt n hn
    refine (hc.above n hn).resolve_right fun heq => ?_
    rw [heq] at hlt
    exact lt_irrefl _ hlt
  refine ⟨⟨hc.nonneg, habove⟩, fun malloc n v hroom => ?_, fun hlt => ⟨hnot hlt, ?_⟩, ?_⟩
  · rcases hc.nextInsert malloc n v hroom with ⟨-, hs, hr⟩ | ⟨-, hs, hr⟩
    · exact Or.inr ⟨hs, hr⟩
    · exact Or.inl ⟨hs, hr⟩
  · intro malloc n v hroom
    rcases hc.nextInsert malloc n v hroom with ⟨hmem, -, -⟩ | ⟨-, hs, -⟩
    · exact absurd (hnot hlt _ hmem) (lt_irrefl _)
    · exact hs
  · intro hmax hmem malloc n v hroom
    rcases hc.nextInsert malloc n v hroom with ⟨-, hs, hr⟩ | ⟨hno, -, -⟩
    · exact ⟨hs, hr⟩
    · rw [hmax] at hno
      exact absurd hmem hno

theorem historyRun_oneIndexTable :
    HistoryRun KeyChangeOk (oneIndexTable 5)
      ((Op.indexUpdateOrNextInsert bump 5 1 .HASH_UPDATE).history (zendHashInit zeroMem 8) ∅) := by
  have hroom : (zendHashInit zeroMem 8).nNumOfElements + 1 < 2 ^ 32 := by decide
  exact HistoryRun.step (HistoryRun.init zeroMem 8) _ trivial hroom ∅ (by simp [Op.source])

theorem nextFreeOk_oneIndexTable :
    NextFreeOk (oneIndexTable 5)
      ((Op.indexUpdateOrNextInsert bump 5 1 .HASH_UPDATE).history (zendHashInit zeroMem 8) ∅) :=
  nextFreeOk_of_historyRun historyRun_oneIndexTable

/-- The element 0 gets the key 1, which the counter is then equal to: the next insertion
fails. -/
def rekeyedTable : HashTable ℕ :=
  (Op.updateCurrentKeyEx bump (.long 1) .HASH_UPDATE_KEY_ANYWAY none).run (oneIndexTable 0)

theorem not_nextFreeOk_of_historyRun : ¬ ∀ (ht : HashTable ℕ) (ks : Set UInt64),
    HistoryRun (fun _ _ => True) ht ks → NextFreeOk ht ks := by
  intro hall
  have h1 := HistoryRun.step (P := fun _ _ => True) (HistoryRun.init zeroMem 8)
    (Op.indexUpdateOrNextInsert bump 0 1 .HASH_UPDATE) trivial trivial ∅ (by simp [Op.source])
  have h2 := HistoryRun.step h1
    (Op.updateCurrentKeyEx bump (.long 1) .HASH_UPDATE_KEY_ANYWAY none)
    ⟨trivial, by simp⟩ trivial ∅ (by simp [Op.source])
  have hok := (hall rekeyedTable _ h2).below (by decide +kernel)
  have hs := hok.2 bump 0 2 (by decide +kernel)
  have hf : (rekeyedTable.zendHashIndexUpdateOrNextInsert bump 0 2 .HASH_NEXT_INSERT).2.1 =
      .FAILURE := by decide +kernel
  rw [hf] at hs
  exact absurd hs (by decide)

end PhpRuntime.Hash
