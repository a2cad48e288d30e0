import PhpRuntime.Hash.Lookup

/-!
# Rehashing and storing

`zend_hash_rehash` builds the chains anew from the list of all buckets, so it needs no
chains to start with: it turns `InvCore` into `Inv`. The storing operations then are a
lookup, and an update in place or an insertion at the end followed by a resize.
-/

set_option autoImplicit false

namespace PhpRuntime.Hash

open PhpRuntime.Lib PhpRuntime.Lib.OrderedMap

variable {α : Type} {ht ht' ht'' : HashTable α} {l s t : List Addr} {p q a x : Addr}
  {ch : ℕ → List Addr} {key : KeyArg} {n : UInt64} {v : α}

/-! ## Rehashing -/

theorem ChainStep.refl (ht : HashTable α) : ChainStep ht ht :=
  ⟨rfl, fun _ => rfl, fun _ => rfl, fun _ => rfl⟩

theorem ChainStep.trans (h1 : ChainStep ht ht') (h2 : ChainStep ht' ht'') :
    ChainStep ht ht'' where
  frame := by
    have hf1 := h1.frame
    have hf2 := h2.frame
    cases ht; cases ht'; cases ht''
    simp_all
  payload := fun x => (h2.payload x).trans (h1.payload x)
  listNext := fun x => (h2.listNext x).trans (h1.listNext x)
  listLast := fun x => (h2.listLast x).trans (h1.listLast x)

theorem chainStep_connect (ht : HashTable α) (p : Addr) (o : Option Addr) (i : ℕ) :
    ChainStep ht ((ht.connectToBucketDllist p o).setBucket i (some p)) :=
  ⟨rfl, fun x => HashTable.payload_connectToBucketDllist ht p x o,
    fun x => HashTable.connectToBucketDllist_listNext ht p x o,
    fun x => HashTable.connectToBucketDllist_listLast ht p x o⟩

/-- The buckets of a list that belong to a slot, from the last one to the first. -/
def HashTable.slotOf (ht : HashTable α) (l : List Addr) (i : ℕ) : List Addr :=
  (l.filter fun a => ht.nIndex (ht.mem a).h = i).reverse

theorem slotOf_append_singleton (ht : HashTable α) (s : List Addr) (p : Addr) :
    ht.slotOf (s ++ [p]) =
      Function.update (ht.slotOf s) (ht.nIndex (ht.mem p).h)
        (p :: ht.slotOf s (ht.nIndex (ht.mem p).h)) := by
  funext i
  unfold HashTable.slotOf
  rw [List.filter_append, List.reverse_append]
  by_cases hi : i = ht.nIndex (ht.mem p).h
  · subst hi
    simp
  · have hne : ht.nIndex (ht.mem p).h ≠ i := fun h0 => hi h0.symm
    rw [Function.update_of_ne hi]
    simp [hne]

theorem slotOf_congr (hm : ht'.nTableMask = ht.nTableMask)
    (hh : ∀ a ∈ l, (ht'.mem a).h = (ht.mem a).h) : ht'.slotOf l = ht.slotOf l := by
  funext i
  unfold HashTable.slotOf
  rw [List.filter_congr]
  intro a ha
  rw [hh a ha, HashTable.nIndex, HashTable.nIndex, hm]

theorem ChainStep.slotOf (h : ChainStep ht ht') (l : List Addr) : ht'.slotOf l = ht.slotOf l := by
  apply slotOf_congr
  · rw [h.frame]
  · exact fun a _ => h_of_payload (h.payload a)

theorem rehash_turn (hch : Chains ht s (ht.slotOf s)) (hp : p ∉ s)
    (hlt : ht.nIndex (ht.mem p).h < ht.nTableSize) :
    Chains ((ht.connectToBucketDllist p (ht.arBuckets (ht.nIndex (ht.mem p).h))).setBucket
      (ht.nIndex (ht.mem p).h) (some p)) (s ++ [p]) (ht.slotOf (s ++ [p])) := by
  rw [slotOf_append_singleton]
  exact (hch.connect hp rfl hlt).of_mem_iff (by simp [or_comm])

/-- The step stores to buckets of `l` only. -/
def KeepsOutside (l : List Addr) (ht ht' : HashTable α) : Prop := ∀ a, a ∉ l → ht'.mem a = ht.mem a

theorem KeepsOutside.trans (h1 : KeepsOutside l ht ht') (h2 : KeepsOutside l ht' ht'') :
    KeepsOutside l ht ht'' := fun a ha => (h2 a ha).trans (h1 a ha)

theorem keepsOutside_connect (ht : HashTable α) {o : Option Addr} (hp : p ∈ l)
    (ho : ∀ a, o = some a → a ∈ l) (i : ℕ) :
    KeepsOutside l ht ((ht.connectToBucketDllist p o).setBucket i (some p)) := by
  intro a ha
  have hap : a ≠ p := fun hap => ha (hap ▸ hp)
  have hao : o ≠ some a := fun hao => ha (ho a hao)
  simp [HashTable.connectToBucketDllist, hap, hao]

theorem Chains.mem_of_arBuckets {c : List Addr} (h : Chains ht c ch) {i : ℕ}
    (hlt : i < ht.nTableSize) (ha : ht.arBuckets i = some a) : a ∈ c := by
  rw [h.head i hlt] at ha
  exact ((h.mem i hlt a).mp (List.mem_of_head? ha)).1

theorem rehashLoop_spec (fuel : ℕ) (hcore : InvCore ht (s ++ t))
    (hch : Chains ht s (ht.slotOf s)) (hf : t.length < fuel) :
    ChainStep ht (HashTable.rehashLoop fuel t.head? ht) ∧
      Chains (HashTable.rehashLoop fuel t.head? ht) (s ++ t) (ht.slotOf (s ++ t)) ∧
      KeepsOutside (s ++ t) ht (HashTable.rehashLoop fuel t.head? ht) := by
  induction t generalizing ht s fuel with
  | nil =>
    obtain ⟨fuel, rfl⟩ : ∃ n, fuel = n + 1 := ⟨fuel - 1, by simp at hf; omega⟩
    exact ⟨ChainStep.refl ht, by simpa [HashTable.rehashLoop] using hch, fun _ _ => rfl⟩
  | cons p t ih =>
    obtain ⟨fuel, rfl⟩ : ∃ n, fuel = n + 1 := ⟨fuel - 1, by simp at hf; omega⟩
    have hp : p ∉ s := fun hps =>
      (List.nodup_append.mp hcore.list.nodup).2.2 p hps p (by simp) rfl
    have hstep := chainStep_connect ht p (ht.arBuckets (ht.nIndex (ht.mem p).h))
      (ht.nIndex (ht.mem p).h)
    have hch1 := rehash_turn hch hp (hcore.nIndex_lt _)
    have hkeep : KeepsOutside (s ++ p :: t) ht _ :=
      keepsOutside_connect ht (o := ht.arBuckets (ht.nIndex (ht.mem p).h)) (p := p) (by simp)
        (fun a ha => by simp [hch.mem_of_arBuckets (hcore.nIndex_lt _) ha])
        (ht.nIndex (ht.mem p).h)
    have hcore1 := hstep.core hcore
    have hnext : (ht.mem p).pListNext = t.head? := by
      simpa [HashTable.listNext] using hcore.list.seg.at_middle.2
    have heq : HashTable.rehashLoop (fuel + 1) (some p) ht = HashTable.rehashLoop fuel t.head?
        ((ht.connectToBucketDllist p (ht.arBuckets (ht.nIndex (ht.mem p).h))).setBucket
          (ht.nIndex (ht.mem p).h) (some p)) := by
      rw [← hnext, ← hstep.listNext p]
      rfl
    rw [List.head?_cons, heq]
    generalize (ht.connectToBucketDllist p (ht.arBuckets (ht.nIndex (ht.mem p).h))).setBucket
      (ht.nIndex (ht.mem p).h) (some p) = ht1 at *
    have hspt : s ++ p :: t = s ++ [p] ++ t := by simp
    rw [hspt] at hcore1 hkeep ⊢
    rw [← hstep.slotOf] at hch1
    obtain ⟨h1, h2, h3⟩ := ih fuel hcore1 hch1 (by simp at hf; omega)
    rw [hstep.slotOf] at h2
    exact ⟨hstep.trans h1, h2, hkeep.trans h3⟩

theorem InvCore.zendHashRehash_chains (h : InvCore ht l) (hl : l ≠ []) :
    ChainStep ht ht.zendHashRehash ∧ Chains ht.zendHashRehash l (ht.slotOf l) ∧
      KeepsOutside l ht ht.zendHashRehash := by
  have hcount : ht.nNumOfElements ≠ 0 := by
    rw [h.count]
    exact fun h0 => hl (List.length_eq_zero_iff.mp h0)
  have hclear : ChainStep ht
      { ht with arBuckets := fun i => if i < ht.nTableSize then none else ht.arBuckets i } :=
    ⟨rfl, fun _ => rfl, fun _ => rfl, fun _ => rfl⟩
  have hch : Chains
      { ht with arBuckets := fun i => if i < ht.nTableSize then none else ht.arBuckets i }
      [] (fun _ => []) :=
    ⟨fun i hi => if_pos hi, by simp, by simp, by simp⟩
  have heq : ht.zendHashRehash = HashTable.rehashLoop ht.loopBound l.head?
      { ht with arBuckets := fun i => if i < ht.nTableSize then none else ht.arBuckets i } := by
    rw [HashTable.zendHashRehash, if_neg hcount, ← h.list.head]
    rfl
  have hbound := h.loopBound_eq
  obtain ⟨h1, h2, h3⟩ := rehashLoop_spec (s := []) (t := l) ht.loopBound (hclear.core h) hch
    (by rw [hbound]; omega)
  rw [heq]
  exact ⟨hclear.trans h1, h2, h3⟩

/-- **Rehashing** a nonempty table changes nothing but the chains. -/
theorem InvCore.zendHashRehash (h : InvCore ht l) (hl : l ≠ []) :
    Inv ht.zendHashRehash l ∧ ChainStep ht ht.zendHashRehash := by
  obtain ⟨hstep, hchains, -⟩ := h.zendHashRehash_chains hl
  exact ⟨⟨hstep.core h, _, hchains⟩, hstep⟩

theorem Inv.zendHashRehash (h : Inv ht l) :
    Inv ht.zendHashRehash l ∧ ChainStep ht ht.zendHashRehash := by
  by_cases hl : l = []
  · have hcount : ht.nNumOfElements = 0 := by rw [h.count, hl]; rfl
    rw [HashTable.zendHashRehash, if_pos hcount]
    exact ⟨h, ChainStep.refl ht⟩
  · exact h.toInvCore.zendHashRehash hl

theorem ChainStep.entries (hs : ChainStep ht ht') (h : InvCore ht l) :
    ht'.entries l = ht.entries l :=
  entries_congr h.keys fun a _ => hs.payload a

theorem double_size {n : ℕ} (h : ∃ k, 3 ≤ k ∧ k ≤ 31 ∧ n = 2 ^ k)
    (hpos : 0 < n * 2 % 2 ^ 32) : ∃ k, 3 ≤ k ∧ k ≤ 31 ∧ n * 2 % 2 ^ 32 = 2 ^ k := by
  obtain ⟨k, hk3, hk31, rfl⟩ := h
  rcases Nat.lt_or_ge k 31 with hk | hk
  · refine ⟨k + 1, by omega, by omega, ?_⟩
    rw [← Nat.pow_succ]
    exact Nat.mod_eq_of_lt (Nat.pow_lt_pow_right (by omega) (by omega))
  · obtain rfl : k = 31 := by omega
    exact absurd hpos (by decide)

theorem Inv.doubled (h : Inv ht l) (hpos : 0 < ht.nTableSize * 2 % 2 ^ 32) :
    InvCore { ht with
      nTableSize := ht.nTableSize * 2 % 2 ^ 32
      nTableMask := ht.nTableSize * 2 % 2 ^ 32 - 1 } l :=
  ⟨h.list.congr rfl rfl h.list.pointer (fun _ _ => rfl) (fun _ _ => rfl), h.live, h.count,
    double_size h.size hpos, Or.inr rfl, fun a ha => (h.keys a ha).congr rfl, h.distinct⟩

/-- **Resizing** keeps the buckets and their order. -/
theorem Inv.zendHashDoResize (h : Inv ht l) (hl : l ≠ []) :
    Inv ht.zendHashDoResize l ∧
      ∀ x, (ht.zendHashDoResize.mem x).payload = (ht.mem x).payload := by
  unfold HashTable.zendHashDoResize
  dsimp only
  split
  · rename_i hpos
    obtain ⟨hi, hs⟩ := (h.doubled hpos).zendHashRehash hl
    exact ⟨hi, hs.payload⟩
  · exact ⟨h, fun _ => rfl⟩

/-! ## Inserting a bucket -/

theorem Inv.of_nNextFreeElement (h : Inv ht l) (n : UInt64) :
    Inv { ht with nNextFreeElement := n } l := by
  obtain ⟨ch, hch⟩ := h.chains
  exact ⟨⟨h.list.congr rfl rfl h.list.pointer (fun _ _ => rfl) (fun _ _ => rfl), h.live, h.count,
    h.size, h.mask, fun a ha => (h.keys a ha).congr rfl, h.distinct⟩,
    ch, hch.congr rfl rfl (fun _ _ => rfl) (fun _ _ => rfl) (fun _ _ => rfl) (fun _ _ => rfl)⟩

theorem InvCore.keepsOutside_zendHashRehash (h : InvCore ht l) :
    KeepsOutside l ht ht.zendHashRehash := by
  by_cases hl : l = []
  · have hcount : ht.nNumOfElements = 0 := by rw [h.count, hl]; rfl
    rw [HashTable.zendHashRehash, if_pos hcount]
    exact fun _ _ => rfl
  · exact (h.zendHashRehash_chains hl).2.2

theorem Inv.keepsOutside_ifFullDoResize (h : Inv ht l) : KeepsOutside l ht ht.ifFullDoResize := by
  unfold HashTable.ifFullDoResize HashTable.zendHashDoResize
  dsimp only
  split
  · split
    · rename_i hpos
      exact fun a ha => (h.doubled hpos).keepsOutside_zendHashRehash a ha
    · exact fun _ _ => rfl
  · exact fun _ _ => rfl

/-- `ZEND_HASH_IF_FULL_DO_RESIZE`. -/
theorem Inv.ifFullDoResize (h : Inv ht l) :
    Inv ht.ifFullDoResize l ∧ ∀ x, (ht.ifFullDoResize.mem x).payload = (ht.mem x).payload := by
  unfold HashTable.ifFullDoResize
  split
  · rename_i hfull
    refine h.zendHashDoResize ?_
    rintro rfl
    simp [h.count] at hfull
  · exact ⟨h, fun _ => rfl⟩

@[simp] theorem HashTable.linkBucket_nNumOfElements (ht : HashTable α) (p : Addr) (i : ℕ) :
    (ht.linkBucket p i).nNumOfElements = ht.nNumOfElements := by
  simp [linkBucket, connectToBucketDllist, connectToGlobalDllist]

theorem HashTable.nNextFreeElement_eta (ht : HashTable α) :
    ∃ n, ht = { ht with nNextFreeElement := n } := ⟨ht.nNextFreeElement, rfl⟩

theorem HashTable.bumpNextFree_eq (ht : HashTable α) (h : UInt64) :
    ∃ n, ht.bumpNextFree h = { ht with nNextFreeElement := n } := by
  unfold HashTable.bumpNextFree
  split
  · exact ⟨_, rfl⟩
  · exact ⟨ht.nNextFreeElement, rfl⟩

/-- A table `ht'` obtained from `ht` by filling a new block at `p` as the bucket of `k`
and `v`. -/
structure FillsBucket (ht ht' : HashTable α) (l : List Addr) (p : Addr) (k : Key) (v : α) :
    Prop where
  null : (ht'.mem p).nKeyLength = 0 → (ht'.mem p).arKey = .null
  frame : ht' = { ht with mem := ht'.mem, live := insert p ht.live }
  mem : ∀ x, x ≠ p → ht'.mem x = ht.mem x
  notMem : p ∉ l
  keyOk : KeyOk ht' p
  keyOf : ht'.keyOf p = k
  pData : (ht'.mem p).pData = v

/-- The bucket at `p` holds `k` and `v`. -/
structure Holds (ht : HashTable α) (l : List Addr) (p : Addr) (k : Key) (v : α) : Prop where
  mem : p ∈ l
  keyOf : ht.keyOf p = k
  pData : (ht.mem p).pData = v

theorem Inv.keepsOutside_linkBucket (h : Inv ht l) {k : Key} (hf : FillsBucket ht ht' l p k v) :
    KeepsOutside (l ++ [p]) ht (ht'.linkBucket p (ht'.nIndex (ht'.mem p).h)) := by
  intro a ha
  rw [List.mem_append, List.mem_singleton, not_or] at ha
  obtain ⟨hal, hap⟩ := ha
  obtain ⟨ch, hch⟩ := h.chains
  have hslot : ht'.nIndex (ht'.mem p).h < ht.nTableSize := by
    rw [HashTable.nIndex, hf.frame]
    exact h.nIndex_lt _
  have hhead : ht'.arBuckets (ht'.nIndex (ht'.mem p).h) ≠ some a := by
    intro hhead
    rw [hf.frame] at hhead
    rw [hf.frame] at hslot
    exact hal (hch.mem_of_arBuckets hslot hhead)
  have htail : ht'.pListTail ≠ some a := by
    intro htail
    rw [hf.frame] at htail
    exact hal (List.mem_of_getLast? (h.list.tail ▸ htail))
  rw [← hf.mem a hap]
  simp [HashTable.linkBucket, HashTable.connectToBucketDllist, HashTable.connectToGlobalDllist,
    hap, hhead, htail]

/-- **A filled bucket is linked**: its key and value come last in the table. -/
theorem Inv.link (h : Inv ht l) (hm : ht.nTableMask = ht.nTableSize - 1) {k : Key}
    (hf : FillsBucket ht ht' l p k v) (hnew : k ∉ keys (ht.entries l))
    (hroom : l.length + 1 < 2 ^ 32) (n : UInt64) :
    Inv (HashTable.countBucket { ht'.linkBucket p (ht'.nIndex (ht'.mem p).h) with
      nNextFreeElement := n }) (l ++ [p]) ∧
    (HashTable.countBucket { ht'.linkBucket p (ht'.nIndex (ht'.mem p).h) with
      nNextFreeElement := n }).entries (l ++ [p]) = ht.entries l ++ [(k, v)] ∧
    Holds (HashTable.countBucket { ht'.linkBucket p (ht'.nIndex (ht'.mem p).h) with
      nNextFreeElement := n }) (l ++ [p]) p k v ∧
    (∀ x, ((HashTable.countBucket { ht'.linkBucket p (ht'.nIndex (ht'.mem p).h) with
      nNextFreeElement := n }).mem x).payload = (ht'.mem x).payload) ∧
    KeepsOutside (l ++ [p]) ht (HashTable.countBucket
      { ht'.linkBucket p (ht'.nIndex (ht'.mem p).h) with nNextFreeElement := n }) := by
  have hkeep := h.keepsOutside_linkBucket hf
  have hins := (h.insert hm hf.notMem hf.frame hf.mem hf.keyOk (fun a ha hk => hnew
    (mem_keys_entries.mpr ⟨a, ha, hk.trans hf.keyOf⟩))).of_nNextFreeElement n
  have hcount : (ht'.linkBucket p (ht'.nIndex (ht'.mem p).h)).nNumOfElements =
      ht.nNumOfElements := by
    rw [HashTable.linkBucket_nNumOfElements, hf.frame]
  have hlink : ∀ x, ((ht'.linkBucket p (ht'.nIndex (ht'.mem p).h)).mem x).payload =
      (ht'.mem x).payload := fun x => HashTable.payload_linkBucket ht' p x _
  generalize ht'.linkBucket p (ht'.nIndex (ht'.mem p).h) = linked at *
  have hwrap : (ht.nNumOfElements + 1) % 2 ^ 32 = ht.nNumOfElements + 1 :=
    Nat.mod_eq_of_lt (by rw [h.count]; exact hroom)
  rw [HashTable.countBucket]
  simp only [hcount, hwrap]
  obtain ⟨hinv, hpay⟩ := hins.ifFullDoResize
  have hout := hins.keepsOutside_ifFullDoResize
  have hpay' : ∀ x, _ = (ht'.mem x).payload := fun x => (hpay x).trans (hlink x)
  have hne : ∀ a ∈ l, a ≠ p := fun a ha hap => hf.notMem (hap ▸ ha)
  have hold : ∀ a ∈ l, (ht'.mem a).payload = (ht.mem a).payload := fun a ha => by
    rw [hf.mem a (hne a ha)]
  have hkp := (hf.keyOk.keyOf_eq (hpay' p)).trans hf.keyOf
  have hdp := (pData_of_payload (hpay' p)).trans hf.pData
  refine ⟨hinv, ?_, ⟨by simp, hkp, hdp⟩, hpay', hkeep.trans hout⟩
  have hl := entries_congr h.keys fun a ha => (hpay' a).trans (hold a ha)
  rw [← hl, HashTable.entries, HashTable.entries, List.map_append, List.map_singleton, hkp, hdp]

/-! ## The storing operations -/

/-- A bucket of the table after a store: it was there before, with the same key words, or it
is a new block, without a key pointer when its key is an integer. -/
def BucketFrom (malloc : Malloc) (ht : HashTable α) (l : List Addr) (ht' : HashTable α)
    (a : Addr) : Prop :=
  a ∈ l ∧ (ht'.mem a).nKeyLength = (ht.mem a).nKeyLength ∧
      (ht'.mem a).arKey = (ht.mem a).arKey ∨
    (∃ s, a = malloc.addr s) ∧ ((ht'.mem a).nKeyLength = 0 → (ht'.mem a).arKey = .null)

/-- The outcome `r` of an operation that stores `v` under `k`. -/
structure Stores (malloc : Malloc) (ht : HashTable α) (l : List Addr) (k : Key) (v : α)
    (r : HashTable α × Status × Option Addr) (l' : List Addr) : Prop where
  inv : Inv r.1 l'
  entries : r.1.entries l' = set (ht.entries l) k v
  status : r.2.1 = .SUCCESS
  dest : ∃ p, r.2.2 = some p ∧ Holds r.1 l' p k v
  buckets : ∀ a ∈ l', BucketFrom malloc ht l r.1 a

/-- The outcome `r` of an operation that refuses because `k` is present. -/
structure Refuses (ht : HashTable α) (l : List Addr) (k : Key)
    (r : HashTable α × Status × Option Addr) : Prop where
  inv : Inv r.1 l
  mem : r.1.mem = ht.mem
  status : r.2.1 = .FAILURE
  present : k ∈ keys (ht.entries l)

theorem Inv.stores_updateData (h : Inv ht l) (malloc : Malloc) (hp : p ∈ l) {k : Key}
    (hk : ht.keyOf p = k) (v : α) (n : UInt64) :
    Stores malloc ht l k v
      ({ ht.updateData p v with nNextFreeElement := n }, .SUCCESS, some p) l := by
  obtain ⟨hi, he⟩ := h.updateData hp v
  have hmem : k ∈ keys (ht.entries l) := mem_keys_entries.mpr ⟨p, hp, hk⟩
  have hkeys := (h.of_pData (ht.updateData p v) rfl fun x =>
    ⟨((ht.updateData p v).mem x).pData, by
      by_cases hx : x = p <;> simp [HashTable.updateData, hx]⟩).2
  refine ⟨hi.of_nNextFreeElement n, ?_, rfl, ⟨p, rfl, hp, (hkeys p hp).trans hk, ?_⟩,
    fun a ha => Or.inl ⟨ha, ?_, ?_⟩⟩
  · rw [set_of_mem hmem, ← hk]
    exact he
  · simp [HashTable.updateData]
  · simp only [HashTable.updateData, HashTable.store_mem, HashTable.callDestructor_mem]
    split <;> rfl
  · simp only [HashTable.updateData, HashTable.store_mem, HashTable.callDestructor_mem]
    split <;> rfl

theorem Malloc.addr_notMem (malloc : Malloc) (h : InvCore ht l) : malloc.addr ht.live ∉ l := by
  have hfresh := malloc.fresh ht.live
  rwa [h.live, List.mem_toFinset, ← h.live] at hfresh

theorem Inv.stores_link (h : Inv ht l) (malloc : Malloc)
    (hm : ht.nTableMask = ht.nTableSize - 1) {k : Key} (hp : p = malloc.addr ht.live)
    (hf : FillsBucket ht ht' l p k v) (hnew : k ∉ keys (ht.entries l))
    (hroom : l.length + 1 < 2 ^ 32) {i : ℕ} (hi : i = ht'.nIndex (ht'.mem p).h)
    (hl : ∃ n, ht'' = { ht'.linkBucket p i with nNextFreeElement := n }) :
    Stores malloc ht l k v (ht''.countBucket, .SUCCESS, some p) (l ++ [p]) := by
  obtain ⟨n, hl⟩ := hl
  obtain ⟨hinv, he, hh, hpay, -⟩ := h.link hm hf hnew hroom n
  rw [← hi, ← hl] at hinv he hh hpay
  refine ⟨hinv, by rw [he, set_of_notMem hnew], rfl, ⟨p, rfl, hh⟩, fun a ha => ?_⟩
  rw [List.mem_append, List.mem_singleton] at ha
  rcases ha with ha | rfl
  · have hap : a ≠ p := fun hap => hf.notMem (hap ▸ ha)
    have hpa : (ht''.countBucket.mem a).payload = (ht.mem a).payload := by
      rw [hpay a, hf.mem a hap]
    exact Or.inl ⟨ha, nKeyLength_of_payload hpa, arKey_of_payload hpa⟩
  · refine Or.inr ⟨⟨ht.live, hp⟩, ?_⟩
    rw [nKeyLength_of_payload (hpay a), arKey_of_payload (hpay a)]
    exact hf.null

/-- What a storing operation does: with `addOnly` it refuses a present key, else it
stores. -/
def StoreSpec (malloc : Malloc) (ht : HashTable α) (l : List Addr) (k : Key) (v : α)
    (addOnly : Prop) (r : HashTable α × Status × Option Addr) : Prop :=
  addOnly ∧ Refuses ht l k r ∨
    (addOnly → k ∉ keys (ht.entries l)) ∧ ∃ l', Stores malloc ht l k v r l'

theorem entries_of_mem (h : ht'.mem = ht.mem) (l : List Addr) : ht'.entries l = ht.entries l := by
  simp only [HashTable.entries, HashTable.keyOf, HashTable.keyBytes, h]

theorem Refuses.entries {k : Key} {r : HashTable α × Status × Option Addr}
    (h : Refuses ht l k r) : r.1.entries l = ht.entries l := entries_of_mem h.mem l

theorem StoreSpec.congr {malloc : Malloc} {k : Key} {addOnly : Prop}
    {r : HashTable α × Status × Option Addr} (h : StoreSpec malloc ht' l k v addOnly r)
    (hm : ht'.mem = ht.mem) : StoreSpec malloc ht l k v addOnly r := by
  have he := entries_of_mem hm l
  rcases h with ⟨ha, h⟩ | ⟨ha, l', h⟩
  · exact Or.inl ⟨ha, h.inv, h.mem.trans hm, h.status, he ▸ h.present⟩
  · refine Or.inr ⟨he ▸ ha, l', h.inv, he ▸ h.entries, h.status, h.dest, fun a hal => ?_⟩
    have hb := h.buckets a hal
    rw [BucketFrom, hm] at hb
    exact hb

theorem notMem_keys_of_find_none {o : Option Addr} {k : Key} (hnone : o = none)
    (ho : ∀ p, o = some p ↔ p ∈ l ∧ ht.keyOf p = k) : k ∉ keys (ht.entries l) := by
  rw [mem_keys_entries]
  rintro ⟨a, ha⟩
  rw [hnone] at ho
  exact absurd ((ho a).mpr ha) (by simp)

theorem fillsBucket_key (h : InvCore ht l) (malloc : Malloc) (hv : ValidKey ht l key)
    (hlen : key.nKeyLength ≠ 0) (v : α) :
    FillsBucket ht ((ht.pemalloc malloc).2.store (malloc.addr ht.live)
      (HashTable.initKeyBucket key (zendInlineHashFunc key.bytes) v (malloc.addr ht.live))) l
      (malloc.addr ht.live) (.str key.bytes) v := by
  generalize hp : malloc.addr ht.live = p
  have hbytes : ((ht.pemalloc malloc).2.store p
      (HashTable.initKeyBucket key (zendInlineHashFunc key.bytes) v p)).keyBytes p = key.bytes := by
    cases hk : key.arKey <;>
      simp [HashTable.keyBytes, HashTable.initKeyBucket, KeyPtr.isInterned, hk]
    exact (hv.interned _ hk).symm
  refine ⟨?_, ?_, ?_, hp ▸ malloc.addr_notMem h, ⟨?_, ?_, ?_⟩, ?_, ?_⟩
  · intro h0
    simp [HashTable.initKeyBucket, hlen] at h0
  · simp [HashTable.pemalloc, HashTable.store, hp]
  · intro x hx
    simp [HashTable.pemalloc, hx]
  · intro _
    rw [hbytes]
    simp [HashTable.initKeyBucket]
  · intro _
    rw [hbytes]
    simp [HashTable.initKeyBucket, KeyArg.nKeyLength]
  · intro _
    rw [hbytes]
    cases hk : key.arKey <;> simp [HashTable.initKeyBucket, KeyPtr.isInterned, hk]
    exact (hv.interned _ hk).symm
  · rw [keyOf_eq_str_iff]
    exact ⟨by simp [HashTable.initKeyBucket, hlen], hbytes⟩
  · simp [HashTable.initKeyBucket]

/-- The bucket filled by `_zend_hash_index_update_or_next_insert`. -/
theorem fillsBucket_index (h : InvCore ht l) (malloc : Malloc) (n : UInt64) (v : α) :
    FillsBucket ht ((ht.pemalloc malloc).2.store (malloc.addr ht.live) fun b =>
      { b with arKey := .null, nKeyLength := 0, h := n, pData := v }) l
      (malloc.addr ht.live) (.int n) v := by
  generalize hp : malloc.addr ht.live = p
  refine ⟨by simp, ?_, ?_, hp ▸ malloc.addr_notMem h, KeyOk.of_int (by simp), ?_, ?_⟩
  · simp [HashTable.pemalloc, HashTable.store, hp]
  · intro x hx
    simp [HashTable.pemalloc, hx]
  · rw [keyOf_eq_int_iff]
    simp
  · simp

theorem ValidKey.of_mem (hv : ValidKey ht l key) (h : ht'.mem = ht.mem) : ValidKey ht' l key :=
  ⟨hv.null, hv.interned, fun b hb hk => by rw [h]; exact hv.inline b hb hk⟩

/-- The key under which the string-key functions store: that of the bucket which the walk
finds, or the string. -/
def HashTable.storedKey (ht : HashTable α) (key : KeyArg) : Key :=
  ((ht.findKey key (zendInlineHashFunc key.bytes)).map ht.keyOf).getD (.str key.bytes)

theorem Inv.storedKey_cases (h : Inv ht l) (hv : ValidKey ht l key) (hlen : key.nKeyLength ≠ 0) :
    ht.storedKey key = .str key.bytes ∨
      ∃ a ∈ l, StaleSlot ht key a ∧ ht.storedKey key = .int (ht.mem a).h := by
  unfold HashTable.storedKey
  cases hf : ht.findKey key (zendInlineHashFunc key.bytes) with
  | none => exact Or.inl rfl
  | some a =>
    obtain ⟨ha, hslot, htest⟩ := h.mem_of_chainFind hf
    rw [Option.map_some, Option.getD_some]
    by_cases h0 : (ht.mem a).nKeyLength = 0
    · refine Or.inr ⟨a, ha, ⟨h0, ?_, hslot⟩, keyOf_eq_int_iff.mpr ⟨h0, rfl⟩⟩
      simpa [HashTable.matchesKey, h0, Ne.symm hlen] using htest
    · exact Or.inl ((matchesKey_iff (h.keys a ha) ha hv (fun h0' => absurd h0' h0) hlen).mp htest)

theorem Inv.storedKey_mem (h : Inv ht l) (hne : ht.storedKey key ≠ .str key.bytes) :
    ht.storedKey key ∈ keys (ht.entries l) := by
  unfold HashTable.storedKey at *
  cases hf : ht.findKey key (zendInlineHashFunc key.bytes) with
  | none => simp [hf] at hne
  | some a => exact mem_keys_entries.mpr ⟨a, (h.mem_of_chainFind hf).1, rfl⟩

theorem Inv.storedKey_of_nil (h : Inv ht []) (key : KeyArg) : ht.storedKey key = .str key.bytes := by
  unfold HashTable.storedKey
  cases hf : ht.findKey key (zendInlineHashFunc key.bytes) with
  | none => rfl
  | some a => exact absurd (h.mem_of_chainFind hf).1 (by simp)

theorem Inv.storedKey_checkInit (h : Inv ht l) (key : KeyArg) :
    ht.storedKey key = ht.checkInit.storedKey key := by
  by_cases hl : l = []
  · subst hl
    rw [h.storedKey_of_nil, h.checkInit.1.storedKey_of_nil]
  · rw [h.checkInit_eq hl]

theorem Inv.notMem_keys_of_findKey_none (h : Inv ht l)
    (hf : ht.findKey key (zendInlineHashFunc key.bytes) = none) :
    .str key.bytes ∉ keys (ht.entries l) := by
  rw [mem_keys_entries]
  rintro ⟨a, ha, hk⟩
  have hh := (h.keys a ha).h_eq_of_str hk
  obtain ⟨h0, hb⟩ := keyOf_eq_str_iff.mp hk
  have htest := (h.chainFind_eq_none_iff _).mp hf a ha (by rw [hh])
  have hlen' : (ht.mem a).nKeyLength = key.nKeyLength := by
    rw [(h.keys a ha).length h0, hb, KeyArg.nKeyLength]
  simp [HashTable.matchesKey, hh, hb, hlen'] at htest

/-- Whatever key pointer a string comes with, the store is one under the string or, when the
pointer shortcut takes another bucket for that of the string, one under the key of that bucket. -/
theorem Inv.addOrUpdate_any (h : Inv ht l) (malloc : Malloc) (hv : ValidKey ht l key)
    (hlen : key.nKeyLength ≠ 0) (hroom : l.length + 1 < 2 ^ 32) (v : α) (flag : Flag) :
    StoreSpec malloc ht l (ht.storedKey key) v (flag = .HASH_ADD)
      (ht.addOrUpdate malloc key (zendInlineHashFunc key.bytes) v flag) := by
  obtain ⟨h1, hm1, hmem1⟩ := h.checkInit
  refine StoreSpec.congr ?_ hmem1
  rw [h.storedKey_checkInit]
  have hv1 := hv.of_mem hmem1
  unfold HashTable.addOrUpdate
  dsimp only
  generalize ht.checkInit = ht1 at *
  cases hf : ht1.findKey key (zendInlineHashFunc key.bytes) with
  | some p =>
    have hp := (h1.mem_of_chainFind hf).1
    have hstored : ht1.storedKey key = ht1.keyOf p := by rw [HashTable.storedKey, hf]; rfl
    rw [hstored]
    dsimp only
    by_cases hflag : flag = .HASH_ADD
    · rw [if_pos hflag]
      exact Or.inl ⟨hflag, h1, rfl, rfl, mem_keys_entries.mpr ⟨p, hp, rfl⟩⟩
    · rw [if_neg hflag]
      exact Or.inr ⟨fun hadd => absurd hadd hflag, l,
        h1.stores_updateData malloc hp rfl v (ht1.updateData p v).nNextFreeElement⟩
  | none =>
    have hstored : ht1.storedKey key = .str key.bytes := by rw [HashTable.storedKey, hf]; rfl
    rw [hstored]
    have hnew := h1.notMem_keys_of_findKey_none hf
    have hfill := fillsBucket_key h1.toInvCore malloc hv1 hlen v
    refine Or.inr ⟨fun _ => hnew, l ++ [malloc.addr ht1.live], ?_⟩
    refine h1.stores_link malloc hm1 rfl hfill hnew hroom ?_ (HashTable.nNextFreeElement_eta _)
    simp [HashTable.nIndex, HashTable.pemalloc, HashTable.initKeyBucket]

/-- **`_zend_hash_add_or_update`** and its quick variant, for a string key that comes with no
stale pointer. -/
theorem Inv.addOrUpdate (h : Inv ht l) (malloc : Malloc) (hv : ValidKey ht l key)
    (hs : ∀ a ∈ l, ¬ StaleSlot ht key a) (hlen : key.nKeyLength ≠ 0)
    (hroom : l.length + 1 < 2 ^ 32) (v : α) (flag : Flag) :
    StoreSpec malloc ht l (.str key.bytes) v (flag = .HASH_ADD)
      (ht.addOrUpdate malloc key (zendInlineHashFunc key.bytes) v flag) := by
  have hspec := h.addOrUpdate_any malloc hv hlen hroom v flag
  rcases h.storedKey_cases hv hlen with hkey | ⟨a, ha, hsa, -⟩
  · rwa [hkey] at hspec
  · exact absurd hsa (hs a ha)

/-- **`_zend_hash_index_update_or_next_insert`**. -/
theorem Inv.zendHashIndexUpdateOrNextInsert (h : Inv ht l) (malloc : Malloc)
    (hroom : l.length + 1 < 2 ^ 32) (n : UInt64) (v : α) (flag : Flag) :
    StoreSpec malloc ht l
      (.int (if flag = .HASH_NEXT_INSERT then ht.nNextFreeElement else n)) v
      (flag = .HASH_NEXT_INSERT ∨ flag = .HASH_ADD)
      (ht.zendHashIndexUpdateOrNextInsert malloc n v flag) := by
  obtain ⟨h1, hm1, hmem1⟩ := h.checkInit
  refine StoreSpec.congr ?_ hmem1
  have hnext : ht.checkInit.nNextFreeElement = ht.nNextFreeElement := by
    unfold HashTable.checkInit
    split <;> rfl
  unfold HashTable.zendHashIndexUpdateOrNextInsert
  dsimp only
  rw [hnext]
  generalize ht.checkInit = ht1 at *
  generalize (if flag = .HASH_NEXT_INSERT then ht.nNextFreeElement else n) = h'
  have hfind := h1.findIndex_iff (n := h')
  cases hf : ht1.findIndex h' with
  | some p =>
    obtain ⟨hp, hk⟩ := (hfind p).mp hf
    dsimp only
    by_cases hflag : flag = .HASH_NEXT_INSERT ∨ flag = .HASH_ADD
    · rw [if_pos hflag]
      exact Or.inl ⟨hflag, h1, rfl, rfl, mem_keys_entries.mpr ⟨p, hp, hk⟩⟩
    · rw [if_neg hflag]
      obtain ⟨m, hm⟩ := (ht1.updateData p v).bumpNextFree_eq h'
      rw [hm]
      exact Or.inr ⟨fun hadd => absurd hadd hflag, l, h1.stores_updateData malloc hp hk v m⟩
  | none =>
    have hnew := notMem_keys_of_find_none hf hfind
    have hfill := fillsBucket_index h1.toInvCore malloc h' v
    refine Or.inr ⟨fun _ => hnew, l ++ [malloc.addr ht1.live], ?_⟩
    refine h1.stores_link malloc hm1 rfl hfill hnew hroom ?_ (HashTable.bumpNextFree_eq _ _)
    simp [HashTable.nIndex, HashTable.pemalloc]

end PhpRuntime.Hash
