import PhpRuntime.Hash.Removal

/-!
# Changing the key of a bucket

`zend_hash_update_current_key_ex` takes the bucket out of its chain, perhaps moves it to
a new block, stores the key and chains it again. `Detached` describes the table in
between. The integer case stores `h` alone, which is enough: a bucket that had a string
key is always moved, and the new block has `nKeyLength` 0. Its key pointer is whatever the
block last held.
-/

set_option autoImplicit false

namespace PhpRuntime.Hash

open PhpRuntime.Lib PhpRuntime.Lib.OrderedMap

variable {α : Type} {ht ht' : HashTable α} {l s t : List Addr} {p q a x : Addr}
  {key : KeyArg} {n : UInt64} {v : α}

/-- A table that comes from `ht` with the bucket at `p` in the list, between `s` and `t`, but
in no chain. -/
structure Detached (ht ht' : HashTable α) (s : List Addr) (p : Addr) (t : List Addr) : Prop where
  list : ListOk ht' (s ++ p :: t)
  chains : ∃ ch, Chains ht' (s ++ t) ch
  live : ht'.live = (s ++ p :: t).toFinset
  count : ht'.nNumOfElements = ht.nNumOfElements
  size : ht'.nTableSize = ht.nTableSize
  mask : ht'.nTableMask = ht.nTableMask
  payload : ∀ a ∈ s ++ t, (ht'.mem a).payload = (ht.mem a).payload

theorem notMem_of_nodup (h : (s ++ p :: t).Nodup) : p ∉ s ++ t :=
  (List.nodup_cons.mp (List.perm_middle.nodup_iff.mp h)).1

theorem Inv.detached_rechainOut (h : Inv ht (s ++ p :: t)) :
    Detached ht (ht.rechainOut p) s p t ∧
      ((ht.rechainOut p).mem p).payload = (ht.mem p).payload := by
  obtain ⟨ch, hch⟩ := h.chains
  have hu := unchains_rechainOut ht p
  have hcore := hu.toChainStep.core h.toInvCore
  have hp := notMem_of_nodup h.list.nodup
  have hf := hu.frame
  have hc := hch.erase (by simp : p ∈ s ++ p :: t) rfl (h.nIndex_lt _) (by rw [hf]) (by rw [hf])
    (fun x _ => h_of_payload (hu.payload x)) hu.arBuckets hu.chNext hu.chLast
  refine ⟨⟨hcore.list, ⟨_, hc.of_mem_iff ?_⟩, hcore.live, by rw [hf], by rw [hf], by rw [hf],
    fun a _ => hu.payload a⟩, hu.payload p⟩
  intro a
  rw [List.mem_filter, decide_eq_true_eq]
  constructor
  · intro ha
    exact ⟨by simp at ha ⊢; tauto, fun hap => hp (hap ▸ ha)⟩
  · rintro ⟨ha, hap⟩
    simp at ha ⊢
    tauto

theorem moveBucket_other (ht : HashTable α) (malloc : Malloc) (p : Addr) (m : ℕ)
    (hx : x ≠ malloc.addr ht.live) :
    ((ht.moveBucket malloc p m).2.mem x).payload = (ht.mem x).payload ∧
      ((ht.moveBucket malloc p m).2.mem x).pNext = (ht.mem x).pNext ∧
      ((ht.moveBucket malloc p m).2.mem x).pLast = (ht.mem x).pLast := by
  simp only [HashTable.moveBucket, HashTable.pemalloc, HashTable.pefree_mem,
    HashTable.setListNext_mem, HashTable.setListLast_mem, HashTable.store_mem, if_neg hx]
  split <;> split <;> exact ⟨rfl, rfl, rfl⟩

theorem moveBucket_new (ht : HashTable α) (malloc : Malloc) (p : Addr) (m : ℕ) :
    ((ht.moveBucket malloc p m).2.mem (malloc.addr ht.live)).pData = (ht.mem p).pData ∧
      ((ht.moveBucket malloc p m).2.mem (malloc.addr ht.live)).nKeyLength = m := by
  simp only [HashTable.moveBucket, HashTable.pemalloc, HashTable.pefree_mem,
    HashTable.setListNext_mem, HashTable.setListLast_mem, HashTable.store_mem]
  split <;> split <;> exact ⟨rfl, rfl⟩

theorem arKey_moveBucket (ht : HashTable α) (malloc : Malloc) (p : Addr) (m : ℕ) :
    ((ht.moveBucket malloc p m).2.mem (malloc.addr ht.live)).arKey =
      (ht.mem (malloc.addr ht.live)).arKey := by
  simp only [HashTable.moveBucket, HashTable.pemalloc, HashTable.pefree_mem,
    HashTable.setListNext_mem, HashTable.setListLast_mem, HashTable.store_mem]
  split <;> split <;> rfl

theorem moveBucket_frame (ht : HashTable α) (malloc : Malloc) (p : Addr) (m : ℕ) :
    (ht.moveBucket malloc p m).1 = malloc.addr ht.live ∧
      (ht.moveBucket malloc p m).2.nNumOfElements = ht.nNumOfElements ∧
      (ht.moveBucket malloc p m).2.nTableSize = ht.nTableSize ∧
      (ht.moveBucket malloc p m).2.nTableMask = ht.nTableMask ∧
      (ht.moveBucket malloc p m).2.live = (insert (malloc.addr ht.live) ht.live).erase p ∧
      ∀ i, (ht.moveBucket malloc p m).2.arBuckets i = ht.arBuckets i := by
  simp [HashTable.moveBucket, HashTable.pemalloc]

theorem Detached.moveBucket (h : Detached ht ht' s p t) (malloc : Malloc) (m : ℕ) :
    Detached ht (ht'.moveBucket malloc p m).2 s (malloc.addr ht'.live) t := by
  obtain ⟨-, hcount, hsize, hmask, hlive, hbuckets⟩ := moveBucket_frame ht' malloc p m
  have hq : malloc.addr ht'.live ∉ s ++ p :: t := by
    have hfresh := malloc.fresh ht'.live
    rwa [h.live, List.mem_toFinset, ← h.live] at hfresh
  have hne : ∀ a ∈ s ++ t, a ≠ malloc.addr ht'.live := fun a ha haq =>
    hq (haq ▸ (by simp at ha ⊢; tauto))
  have hother := fun a (ha : a ∈ s ++ t) => moveBucket_other ht' malloc p m (hne a ha)
  obtain ⟨ch, hch⟩ := h.chains
  refine ⟨h.list.moveBucket malloc h.live m, ⟨ch, ?_⟩, ?_, hcount.trans h.count,
    hsize.trans h.size, hmask.trans h.mask, fun a ha => (hother a ha).1.trans (h.payload a ha)⟩
  · exact hch.congr hsize hmask (fun i _ => hbuckets i)
      (fun a ha => h_of_payload (hother a ha).1) (fun a ha => (hother a ha).2.1)
      (fun a ha => (hother a ha).2.2)
  · have hp := notMem_of_nodup h.list.nodup
    have hpq : p ≠ malloc.addr ht'.live := fun hpq => hq (hpq ▸ by simp)
    rw [hlive, h.live]
    ext x
    simp only [Finset.mem_erase, Finset.mem_insert, List.mem_toFinset, List.mem_append,
      List.mem_cons] at hp ⊢
    rw [← h.live]
    constructor
    · rintro ⟨h1, h2⟩; tauto
    · rintro (hx | rfl | hx)
      · exact ⟨fun hxp => hp (Or.inl (hxp ▸ hx)), by tauto⟩
      · exact ⟨hpq.symm, Or.inl rfl⟩
      · exact ⟨fun hxp => hp (Or.inr (hxp ▸ hx)), by tauto⟩

theorem Detached.store (h : Detached ht ht' s p t) (f : Bucket α → Bucket α)
    (hn : ∀ b, (f b).pListNext = b.pListNext) (hl : ∀ b, (f b).pListLast = b.pListLast) :
    Detached ht (ht'.store p f) s p t := by
  have hp := notMem_of_nodup h.list.nodup
  have hmem : ∀ a ∈ s ++ t, (ht'.store p f).mem a = ht'.mem a := fun a ha => by
    rw [HashTable.store_mem, if_neg (fun hap : a = p => hp (hap ▸ ha))]
  obtain ⟨ch, hch⟩ := h.chains
  refine ⟨h.list.congr rfl rfl h.list.pointer ?_ ?_, ⟨ch, ?_⟩, h.live, h.count, h.size, h.mask,
    fun a ha => by rw [hmem a ha, h.payload a ha]⟩
  · intro a _
    rw [HashTable.store_mem]
    split
    · exact hn _
    · rfl
  · intro a _
    rw [HashTable.store_mem]
    split
    · exact hl _
    · rfl
  · exact hch.congr rfl rfl (fun _ _ => rfl) (fun a ha => by rw [hmem a ha])
      (fun a ha => by rw [hmem a ha]) (fun a ha => by rw [hmem a ha])

theorem Detached.connect (h : Inv ht (s ++ q :: t)) (hd : Detached ht ht' s p t)
    (hk : KeyOk ht' p) (hnew : ∀ a ∈ s ++ t, ht.keyOf a ≠ ht'.keyOf p) :
    Inv ((ht'.connectToBucketDllist p (ht'.arBuckets (ht'.nIndex (ht'.mem p).h))).setBucket
      (ht'.nIndex (ht'.mem p).h) (some p)) (s ++ p :: t) ∧
    ((ht'.connectToBucketDllist p (ht'.arBuckets (ht'.nIndex (ht'.mem p).h))).setBucket
      (ht'.nIndex (ht'.mem p).h) (some p)).entries (s ++ p :: t) =
      ht.entries s ++ (ht'.keyOf p, (ht'.mem p).pData) :: ht.entries t ∧
    ∀ x, (((ht'.connectToBucketDllist p (ht'.arBuckets (ht'.nIndex (ht'.mem p).h))).setBucket
      (ht'.nIndex (ht'.mem p).h) (some p)).mem x).payload = (ht'.mem x).payload := by
  obtain ⟨ch, hch⟩ := hd.chains
  have hp := notMem_of_nodup hd.list.nodup
  have hkold : ∀ a ∈ s ++ t, KeyOk ht a := fun a ha => h.keys a (by simp at ha ⊢; tauto)
  have hkeys : ∀ a ∈ s ++ p :: t, KeyOk ht' a := by
    intro a ha
    by_cases hap : a = p
    · exact hap ▸ hk
    · have ha' : a ∈ s ++ t := by simp [hap] at ha ⊢; tauto
      exact (hkold a ha').congr (hd.payload a ha')
  have hkeyOf : ∀ a ∈ s ++ t, ht'.keyOf a = ht.keyOf a := fun a ha =>
    (hkold a ha).keyOf_eq (hd.payload a ha)
  have hcore : InvCore ht' (s ++ p :: t) := by
    refine ⟨hd.list, hd.live, ?_, by rw [hd.size]; exact h.size, ?_, hkeys, ?_⟩
    · rw [hd.count, h.count]
      simp
    · right
      rcases h.mask with ⟨-, hl⟩ | hm
      · simp at hl
      · rw [hd.mask, hd.size, hm]
    · intro a ha b hb hab
      by_cases hap : a = p <;> by_cases hbp : b = p
      · rw [hap, hbp]
      · have hb' : b ∈ s ++ t := by simp [hbp] at hb ⊢; tauto
        rw [hap, hkeyOf b hb'] at hab
        exact absurd hab.symm (hnew b hb')
      · have ha' : a ∈ s ++ t := by simp [hap] at ha ⊢; tauto
        rw [hbp, hkeyOf a ha'] at hab
        exact absurd hab (hnew a ha')
      · have ha' : a ∈ s ++ t := by simp [hap] at ha ⊢; tauto
        have hb' : b ∈ s ++ t := by simp [hbp] at hb ⊢; tauto
        rw [hkeyOf a ha', hkeyOf b hb'] at hab
        exact h.distinct a (by simp at ha' ⊢; tauto) b (by simp at hb' ⊢; tauto) hab
  have hstep := chainStep_connect ht' p (ht'.arBuckets (ht'.nIndex (ht'.mem p).h))
    (ht'.nIndex (ht'.mem p).h)
  refine ⟨⟨hstep.core hcore, _, (hch.connect hp rfl (hcore.nIndex_lt _)).of_mem_iff ?_⟩, ?_,
    hstep.payload⟩
  · intro a
    simp
    tauto
  · rw [hstep.entries hcore, entries_append, entries_cons]
    have hs := entries_congr (l := s) (fun a ha => hkold a (by simp [ha]))
      fun a ha => hd.payload a (by simp [ha])
    have ht_ := entries_congr (l := t) (fun a ha => hkold a (by simp [ha]))
      fun a ha => hd.payload a (by simp [ha])
    rw [hs, ht_]

/-- The key that a key argument of `zend_hash_update_current_key_ex` names. -/
def KeyIndex.toKey : KeyIndex → Key
  | .long n => .int n
  | .string k => .str k.bytes
  | .other => .int 0

def KeyIndex.Valid (ht : HashTable α) (l : List Addr) : KeyIndex → Prop
  | .long _ => True
  | .string k => ValidKey ht l k ∧ k.nKeyLength ≠ 0
  | .other => True

theorem storeKey_spec (ht' : HashTable α) (p : Addr) {k : KeyIndex} (hv : k.Valid ht l) (hne : k ≠ .other)
    (hint : ∀ n, k = .long n → (ht'.mem p).nKeyLength = 0) :
    KeyOk (ht'.storeKey k p) p ∧ (ht'.storeKey k p).keyOf p = k.toKey ∧
      ((ht'.storeKey k p).mem p).pData = (ht'.mem p).pData := by
  cases k with
  | other => exact absurd rfl hne
  | long n =>
    have h0 := hint n rfl
    refine ⟨KeyOk.of_int (by simpa [HashTable.storeKey] using h0), ?_, ?_⟩
    · refine keyOf_eq_int_iff.mpr ?_
      simp [HashTable.storeKey, h0, KeyIndex.hash]
    · simp [HashTable.storeKey]
  | string k =>
    obtain ⟨hk, hlen⟩ := hv
    have hbytes : (ht'.storeKey (.string k) p).keyBytes p = k.bytes := by
      cases hp : k.arKey <;>
        simp [HashTable.keyBytes, HashTable.storeKey, KeyPtr.isInterned, hp]
      exact (hk.interned _ hp).symm
    refine ⟨⟨?_, ?_, ?_⟩, ?_, ?_⟩
    · rw [hbytes]
      simp [HashTable.storeKey]
    · rw [hbytes]
      simp [HashTable.storeKey, KeyArg.nKeyLength]
    · intro _
      rw [hbytes]
      cases hp : k.arKey <;> simp [HashTable.storeKey, KeyPtr.isInterned, hp]
      exact (hk.interned _ hp).symm
    · exact keyOf_eq_str_iff.mpr ⟨by simp [HashTable.storeKey, hlen], hbytes⟩
    · simp [HashTable.storeKey]

theorem Detached.storeKey (h : Detached ht ht' s p t) (k : KeyIndex) :
    Detached ht (ht'.storeKey k p) s p t := by
  unfold HashTable.storeKey
  split
  · refine h.store _ ?_ ?_ <;> exact fun _ => rfl
  · refine h.store _ ?_ ?_ <;> exact fun _ => rfl

theorem nKeyLength_of_needsNewBucket (h : ht.needsNewBucket (.long n) p ≠ true) :
    (ht.mem p).nKeyLength = 0 := by
  have hnull : KeyPtr.null.isInterned = false := rfl
  cases hi : (ht.mem p).arKey.isInterned <;>
    simp [HashTable.needsNewBucket, KeyIndex.strIndex, KeyIndex.strLength, hi, hnull] at h
  exact h

theorem arKey_storeKey (ht' : HashTable α) (p : Addr) (n : UInt64) :
    ((ht'.storeKey (.long n) p).mem p).arKey = (ht'.mem p).arKey := by
  simp [HashTable.storeKey]

/-- The words `arKey` and `nKeyLength` after the change: those of the other buckets stay, and
a bucket that becomes an integer bucket has what its old or new block held. -/
structure RekeyWords (ht ht' : HashTable α) (s t : List Addr) (malloc : Malloc) (k : KeyIndex)
    (p p' : Addr) : Prop where
  other : ∀ a ∈ s ++ t, (ht'.mem a).payload = (ht.mem a).payload
  word : ∀ n, k = .long n → (ht'.mem p').arKey = (ht.mem (malloc.addr ht.live)).arKey ∨
    (ht.mem p).nKeyLength = 0 ∧ (ht'.mem p').arKey = (ht.mem p).arKey

/-- **The key of the bucket at `p` is changed** to a key that no other bucket has. -/
theorem Inv.rekey (h : Inv ht (s ++ p :: t)) (malloc : Malloc) {k : KeyIndex}
    (hv : k.Valid ht (s ++ p :: t)) (hne : k ≠ .other)
    (hnew : ∀ a ∈ s ++ t, ht.keyOf a ≠ k.toKey) :
    Inv (ht.rekey malloc k p).1 (s ++ (ht.rekey malloc k p).2 :: t) ∧
      (ht.rekey malloc k p).1.entries (s ++ (ht.rekey malloc k p).2 :: t) =
        ht.entries s ++ (k.toKey, (ht.mem p).pData) :: ht.entries t ∧
      RekeyWords ht (ht.rekey malloc k p).1 s t malloc k p (ht.rekey malloc k p).2 := by
  obtain ⟨hd, hpay⟩ := h.detached_rechainOut
  have hlive : (ht.rechainOut p).live = ht.live := hd.live.trans h.live.symm
  have hpayall : ∀ x, ((ht.rechainOut p).mem x).payload = (ht.mem x).payload := fun x =>
    HashTable.payload_rechainOut ht p x
  unfold HashTable.rekey
  dsimp only
  generalize ht.rechainOut p = ht1 at *
  by_cases hnb : ht1.needsNewBucket k p = true
  · rw [if_pos hnb]
    have hd2 := hd.moveBucket malloc k.strLength
    obtain ⟨hdata, hlen⟩ := moveBucket_new ht1 malloc p k.strLength
    have hword := arKey_moveBucket ht1 malloc p k.strLength
    have hfst := (moveBucket_frame ht1 malloc p k.strLength).1
    rw [← hfst] at hd2 hdata hlen hword
    have haddr : (ht1.moveBucket malloc p k.strLength).1 = malloc.addr ht.live := by
      rw [hfst, hlive]
    generalize ht1.moveBucket malloc p k.strLength = r at *
    obtain ⟨hok, hkey, hdata2⟩ := storeKey_spec r.2 r.1 hv hne (by
      rintro n rfl
      exact hlen)
    have hd3 := hd2.storeKey k
    have hword3 : ∀ n, k = .long n → ((r.2.storeKey k r.1).mem r.1).arKey = (r.2.mem r.1).arKey := by
      rintro n rfl
      exact arKey_storeKey r.2 r.1 n
    generalize r.2.storeKey k r.1 = ht3 at *
    obtain ⟨hi, he, hp3⟩ := Detached.connect h hd3 hok (by rw [hkey]; exact hnew)
    rw [hkey, hdata2, hdata, pData_of_payload hpay] at he
    refine ⟨hi, he, fun a ha => (hp3 a).trans (hd3.payload a ha), fun n hn => Or.inl ?_⟩
    rw [arKey_of_payload (hp3 r.1), hword3 n hn, hword, arKey_of_payload (hpayall r.1), haddr]
  · rw [if_neg hnb]
    obtain ⟨hok, hkey, hdata2⟩ := storeKey_spec ht1 p hv hne (by
      rintro n rfl
      exact nKeyLength_of_needsNewBucket hnb)
    have hd3 := hd.storeKey k
    have hword3 : ∀ n, k = .long n → ((ht1.storeKey k p).mem p).arKey = (ht1.mem p).arKey := by
      rintro n rfl
      exact arKey_storeKey ht1 p n
    generalize ht1.storeKey k p = ht3 at *
    obtain ⟨hi, he, hp3⟩ := Detached.connect h hd3 hok (by rw [hkey]; exact hnew)
    rw [hkey, hdata2, pData_of_payload hpay] at he
    refine ⟨hi, he, fun a ha => (hp3 a).trans (hd3.payload a ha), fun n hn => Or.inr ⟨?_, ?_⟩⟩
    · subst hn
      rw [← nKeyLength_of_payload hpay]
      exact nKeyLength_of_needsNewBucket hnb
    · rw [arKey_of_payload (hp3 p), hword3 n hn, arKey_of_payload hpay]

theorem nKeyLength_rekey (ht : HashTable α) (malloc : Malloc) (p : Addr) {key : KeyArg}
    (hlen : key.nKeyLength ≠ 0) :
    ((ht.rekey malloc (.string key) p).1.mem (ht.rekey malloc (.string key) p).2).nKeyLength ≠
      0 := by
  have hchain : ∀ (ht' : HashTable α) (p' x : Addr) (o : Option Addr),
      ((ht'.connectToBucketDllist p' o).mem x).nKeyLength = (ht'.mem x).nKeyLength :=
    fun ht' p' x o => nKeyLength_of_payload (HashTable.payload_connectToBucketDllist ht' p' x o)
  unfold HashTable.rekey
  dsimp only
  split <;> simpa [hchain, HashTable.storeKey] using hlen

/-- No integer bucket has the key pointer of the argument. -/
def KeyIndex.NotStale (ht : HashTable α) (l : List Addr) (k : KeyIndex) : Prop :=
  ∀ key, k = .string key → Hash.NotStale ht l key.arKey

/-- The integer bucket at `a` has the key pointer of the argument. -/
def KeyIndex.StaleAt (ht : HashTable α) (k : KeyIndex) (a : Addr) : Prop :=
  ∃ key, k = .string key ∧ (ht.mem a).nKeyLength = 0 ∧ (ht.mem a).arKey = key.arKey

/-- The pointer shortcut takes no integer bucket for one with the target key: not the current
bucket, which is compared wherever it is, and none in the slot of the key. -/
structure KeyIndex.NoHit (ht : HashTable α) (l : List Addr) (k : KeyIndex)
    (current : Option Addr) : Prop where
  current : ∀ p, current = some p → ¬ k.StaleAt ht p
  slot : ∀ a ∈ l, ht.nIndex (ht.mem a).h = ht.nIndex k.hash → ¬ k.StaleAt ht a

theorem KeyIndex.NotStale.noHit {k : KeyIndex} (h : k.NotStale ht l) {o : Option Addr}
    (ho : ∀ p, o = some p → p ∈ l) : k.NoHit ht l o := by
  have hnot : ∀ a ∈ l, ¬ k.StaleAt ht a := fun a ha ⟨key, hk, h0, hkey⟩ => h key hk a ha h0 hkey
  exact ⟨fun p hp => hnot p (ho p hp), fun a ha _ => hnot a ha⟩

theorem Inv.hasKeyIndex_iff (h : Inv ht l) {k : KeyIndex} (hv : k.Valid ht l)
    (hne : k ≠ .other) (ha : a ∈ l) (hs : ¬ k.StaleAt ht a) :
    ht.hasKeyIndex k a = true ↔ ht.keyOf a = k.toKey := by
  cases k with
  | other => exact absurd rfl hne
  | long n => exact matchesIndex_iff
  | string k =>
    exact matchesKey_iff (h.keys a ha) ha hv.1 (fun h0 hkey => hs ⟨k, rfl, h0, hkey⟩) hv.2

theorem Inv.findTarget_iff (h : Inv ht l) {k : KeyIndex} (hv : k.Valid ht l)
    (hne : k ≠ .other)
    (hs : ∀ a ∈ l, ht.nIndex (ht.mem a).h = ht.nIndex k.hash → ¬ k.StaleAt ht a) (q : Addr) :
    ht.findTarget k = some q ↔ q ∈ l ∧ ht.keyOf q = k.toKey := by
  refine h.chainFind_iff (fun a ha hslot => h.hasKeyIndex_iff hv hne ha (hs a ha hslot))
    (fun a ha hk => ?_) q
  cases k with
  | other => exact absurd rfl hne
  | long n => exact (keyOf_eq_int_iff.mp hk).2
  | string k => exact (h.keys a ha).h_eq_of_str hk

/-- The pairs after the key of one of them has been changed to `k'`: another pair with
that key goes, or the changed pair itself. -/
def rekeyEntries (m : List (Key × α)) (k k' : Key) (deletesCurrent : Bool) :
    List (Key × α) :=
  if deletesCurrent then erase m k else rename (erase m k') k k'

theorem KeyIndex.Valid.of_payload {k : KeyIndex} (hv : k.Valid ht l) {l' : List Addr}
    (hl : ∀ a ∈ l', a ∈ l) (hp : ∀ x, (ht'.mem x).payload = (ht.mem x).payload) :
    k.Valid ht' l' := by
  cases k with
  | other => trivial
  | long n => trivial
  | string k =>
    refine ⟨⟨hv.1.null, hv.1.interned, fun b hb hk => ?_⟩, hv.2⟩
    have hi : (ht'.mem b).inlineKey = (ht.mem b).inlineKey := congrArg (·.2.2.2.1) (hp b)
    rw [hi]
    exact hv.1.inline b (hl b hb) hk

theorem Inv.rename_entries (h : Inv ht (s ++ p :: t)) (k' : Key) :
    rename (ht.entries (s ++ p :: t)) (ht.keyOf p) k' =
      ht.entries s ++ (k', (ht.mem p).pData) :: ht.entries t := by
  have hnd := notMem_of_nodup h.list.nodup
  have hne : ∀ r : List Addr, (∀ a ∈ r, a ∈ s ++ t) → ht.keyOf p ∉ keys (ht.entries r) := by
    intro r hr hk
    obtain ⟨a, ha, hak⟩ := mem_keys_entries.mp hk
    have hap := h.distinct a (by have := hr a ha; simp at this ⊢; tauto) p (by simp) hak
    exact hnd (hap ▸ hr a ha)
  have happ : ∀ m₁ m₂ : List (Key × α), rename (m₁ ++ m₂) (ht.keyOf p) k' =
      rename m₁ (ht.keyOf p) k' ++ rename m₂ (ht.keyOf p) k' := fun m₁ m₂ => List.map_append
  have hcons : ∀ m : List (Key × α), rename ((ht.keyOf p, (ht.mem p).pData) :: m)
      (ht.keyOf p) k' = (k', (ht.mem p).pData) :: rename m (ht.keyOf p) k' := by
    intro m
    simp [rename]
  rw [entries_append, entries_cons, happ, hcons,
    rename_of_notMem (hne s fun a ha => by simp [ha]),
    rename_of_notMem (hne t fun a ha => by simp [ha])]

/-- The block that `pemalloc` hands out for the bucket, after the other bucket with the key was
freed. -/
def HashTable.newBlock (ht : HashTable α) (malloc : Malloc) (k : KeyIndex) : Addr :=
  malloc.addr (match ht.findTarget k with
    | some q => ht.live.erase q
    | none => ht.live)

/-- The outcome `r` of a key change of the bucket at `p`, which is itself deleted when `del`
is set. -/
structure KeyOutcome (ht : HashTable α) (l : List Addr) (malloc : Malloc) (k : KeyIndex)
    (pos : Option (Option Addr)) (p : Addr) (del : Bool)
    (r : HashTable α × Status × Option (Option Addr)) (l' : List Addr) : Prop where
  inv : Inv r.1 l'
  entries : r.1.entries l' = rekeyEntries (ht.entries l) (ht.keyOf p) k.toKey del
  status : r.2.1 = if del then .FAILURE else .SUCCESS
  gone : del = true → p ∉ l' ∧ r.2.2 = pos
  position : del = false → ∃ a ∈ l', r.2.2 = pos.map fun _ => some a
  words : ∀ a ∈ l', (r.1.mem a).nKeyLength = 0 →
    (∃ b ∈ l, (ht.mem b).nKeyLength = 0 ∧ (r.1.mem a).arKey = (ht.mem b).arKey) ∨
      (∃ n, k = .long n) ∧ (r.1.mem a).arKey = (ht.mem (ht.newBlock malloc k)).arKey

theorem RekeyWords.words {malloc : Malloc} {k : KeyIndex} {p' : Addr}
    (h : RekeyWords ht ht' s t malloc k p p') (hp : p ∈ l)
    (hsub : ∀ a ∈ s ++ t, a ∈ l) (hstr : ∀ key, k = .string key → (ht'.mem p').nKeyLength ≠ 0)
    (hne : k ≠ .other) :
    ∀ a ∈ s ++ p' :: t, (ht'.mem a).nKeyLength = 0 →
      (∃ b ∈ l, (ht.mem b).nKeyLength = 0 ∧ (ht'.mem a).arKey = (ht.mem b).arKey) ∨
        (∃ n, k = .long n) ∧ (ht'.mem a).arKey = (ht.mem (malloc.addr ht.live)).arKey := by
  intro a ha h0
  by_cases hap : a = p'
  · subst hap
    cases k with
    | other => exact absurd rfl hne
    | string key => exact absurd h0 (hstr key rfl)
    | long n =>
      rcases h.word n rfl with hw | ⟨hp0, hw⟩
      · exact Or.inr ⟨⟨n, rfl⟩, hw⟩
      · exact Or.inl ⟨p, hp, hp0, hw⟩
  · have hast : a ∈ s ++ t := by simp [hap] at ha ⊢; tauto
    have hpay := h.other a hast
    exact Or.inl ⟨a, hsub a hast, (nKeyLength_of_payload hpay).symm.trans h0, arKey_of_payload hpay⟩

/-- **`zend_hash_update_current_key_ex`** when the current bucket has another key. -/
theorem Inv.keyOutcome (h : Inv ht l) (malloc : Malloc) {k : KeyIndex} (hv : k.Valid ht l)
    (hne : k ≠ .other) (mode : UpdateMode) (pos : Option (Option Addr))
    (hs : k.NoHit ht l (some p)) (hp : pos.getD ht.pInternalPointer = some p) (hpl : p ∈ l)
    (hkp : ht.keyOf p ≠ k.toKey) :
    ∃ l', KeyOutcome ht l malloc k pos p ((ht.findTarget k).any (ht.deletesCurrent mode p))
      (ht.zendHashUpdateCurrentKeyEx malloc k mode pos) l' := by
  have hhas : ht.hasKeyIndex k p ≠ true := fun hhas =>
    hkp ((h.hasKeyIndex_iff hv hne hpl (hs.current p rfl)).mp hhas)
  have hfind := h.findTarget_iff hv hne hs.slot
  have hkeep : ∀ b ∈ l, (∃ b' ∈ l, (ht.mem b').nKeyLength = 0 ∧
      (ht.mem b).arKey = (ht.mem b').arKey) ∨ (ht.mem b).nKeyLength ≠ 0 := by
    intro b hb
    by_cases h0 : (ht.mem b).nKeyLength = 0
    · exact Or.inl ⟨b, hb, h0, rfl⟩
    · exact Or.inr h0
  unfold HashTable.zendHashUpdateCurrentKeyEx
  rw [hp]
  dsimp only
  rw [if_neg hne, if_neg hhas]
  cases hq : ht.findTarget k with
  | none =>
    have hblock : ht.newBlock malloc k = malloc.addr ht.live := by
      rw [HashTable.newBlock, hq]
    obtain ⟨s, t, rfl⟩ := List.append_of_mem hpl
    have hnot : k.toKey ∉ keys (ht.entries (s ++ p :: t)) := notMem_keys_of_find_none hq hfind
    have hnew : ∀ a ∈ s ++ t, ht.keyOf a ≠ k.toKey := fun a ha hk =>
      hnot (mem_keys_entries.mpr ⟨a, by simp at ha ⊢; tauto, hk⟩)
    obtain ⟨hi, he, hw⟩ := h.rekey malloc hv hne hnew
    have hren := h.rename_entries k.toKey
    rw [← he] at hren
    refine ⟨_, hi, ?_, rfl, by simp, fun _ => ⟨_, by simp, rfl⟩, ?_⟩
    · rw [rekeyEntries]
      simp only [Option.any_none, Bool.false_eq_true, if_false]
      rw [erase_of_notMem hnot, hren]
    · rw [hblock]
      refine hw.words hpl (fun a ha => by simp at ha ⊢; tauto) ?_ hne
      rintro key rfl
      exact nKeyLength_rekey ht malloc p hv.2
  | some q =>
    obtain ⟨hql, hqk⟩ := (hfind q).mp hq
    dsimp only
    by_cases hdel : ht.deletesCurrent mode p q = true
    · rw [if_pos hdel]
      obtain ⟨s, t, rfl⟩ := List.append_of_mem hpl
      have hr := h.deleteBucket
      refine ⟨s ++ t, hr.inv, ?_, by simp [hdel], fun _ => ⟨notMem_of_nodup h.list.nodup, rfl⟩,
        by simp [hdel], fun a ha h0 => Or.inl ⟨a, by simp at ha ⊢; tauto, ?_, ?_⟩⟩
      · rw [rekeyEntries, Option.any_some, if_pos hdel]
        exact hr.entries
      · rw [← nKeyLength_of_payload (hr.payload a)]
        exact h0
      · exact arKey_of_payload (hr.payload a)
    · rw [if_neg hdel]
      have hblock : ht.newBlock malloc k = malloc.addr (ht.live.erase q) := by
        rw [HashTable.newBlock, hq]
      obtain ⟨s, t, rfl⟩ := List.append_of_mem hql
      have hr := h.deleteBucket
      have hpq : p ≠ q := fun hpq => hkp (hpq ▸ hqk)
      have hpst : p ∈ s ++ t := by simp [hpq] at hpl ⊢; tauto
      have hqst := notMem_of_nodup h.list.nodup
      have hsub : ∀ a ∈ s ++ t, a ∈ s ++ q :: t := fun a ha => by simp at ha ⊢; tauto
      have hinv := hr.inv
      have hent := hr.entries
      have hpay := hr.payload
      have hlive := hr.live
      generalize ht.deleteBucket q (ht.nIndex (ht.mem q).h) = ht1 at *
      have hkey : ∀ a ∈ s ++ t, ht1.keyOf a = ht.keyOf a := fun a ha =>
        (h.keys a (hsub a ha)).keyOf_eq (hpay a)
      obtain ⟨s', t', hst⟩ := List.append_of_mem hpst
      have hnew : ∀ a ∈ s' ++ t', ht1.keyOf a ≠ k.toKey := by
        intro a ha hk
        have hast : a ∈ s ++ t := by rw [hst]; simp at ha ⊢; tauto
        rw [hkey a hast] at hk
        have haq := h.distinct a (hsub a hast) q hql (hk.trans hqk.symm)
        exact hqst (haq ▸ hast)
      have hkeyp := hkey p hpst
      rw [hst] at hinv hent hsub hpst
      have hv1 := hv.of_payload hsub hpay
      obtain ⟨hi, he, hw⟩ := hinv.rekey malloc hv1 hne hnew
      have hren := hinv.rename_entries k.toKey
      rw [← he] at hren
      refine ⟨_, hi, ?_, by simp [hdel], by simp [hdel], fun _ => ⟨_, by simp, rfl⟩, ?_⟩
      · rw [rekeyEntries, Option.any_some, if_neg hdel, ← hqk, ← hent, ← hkeyp, hqk, hren]
      · intro a ha h0
        rcases hw.words hpst (fun a ha => by simp at ha ⊢; tauto) (by
          rintro key rfl
          exact nKeyLength_rekey ht1 malloc p hv.2) hne a ha h0 with ⟨b, hb, hb0, hbw⟩ | ⟨hlong, hbw⟩
        · refine Or.inl ⟨b, hsub b hb, ?_, ?_⟩
          · rw [← nKeyLength_of_payload (hpay b)]
            exact hb0
          · rw [hbw]
            exact arKey_of_payload (hpay b)
        · refine Or.inr ⟨hlong, ?_⟩
          rw [hbw, hblock, ← hlive]
          exact arKey_of_payload (hpay _)

/-- **`zend_hash_update_current_key_ex`**, in every mode. -/
theorem Inv.zendHashUpdateCurrentKeyEx (h : Inv ht l) (malloc : Malloc) {k : KeyIndex}
    (hv : k.Valid ht l) (mode : UpdateMode) (pos : Option (Option Addr))
    (hs : k.NoHit ht l (pos.getD ht.pInternalPointer))
    (hpos : ∀ p, pos.getD ht.pInternalPointer = some p → p ∈ l) :
    ∃ l', Inv (ht.zendHashUpdateCurrentKeyEx malloc k mode pos).1 l' ∧
      ∀ p, pos.getD ht.pInternalPointer = some p → k ≠ .other → ht.keyOf p ≠ k.toKey →
        (ht.zendHashUpdateCurrentKeyEx malloc k mode pos).1.entries l' =
          rekeyEntries (ht.entries l) (ht.keyOf p) k.toKey
            ((ht.findTarget k).any (ht.deletesCurrent mode p)) := by
  cases hp : pos.getD ht.pInternalPointer with
  | none =>
    refine ⟨l, ?_, by simp⟩
    simp only [HashTable.zendHashUpdateCurrentKeyEx, hp]
    exact h
  | some p =>
    have hpl := hpos p hp
    by_cases hne : k = .other
    · refine ⟨l, ?_, fun _ _ hk => absurd hne hk⟩
      simp only [HashTable.zendHashUpdateCurrentKeyEx, hp, if_pos hne]
      exact h
    by_cases hkp : ht.keyOf p = k.toKey
    · have hhas := (h.hasKeyIndex_iff hv hne hpl (hs.current p hp)).mpr hkp
      refine ⟨l, ?_, fun p' hp' _ hk => absurd hkp (by rw [Option.some.inj hp']; exact hk)⟩
      simp only [HashTable.zendHashUpdateCurrentKeyEx, hp, if_neg hne, if_pos hhas]
      exact h
    · rw [hp] at hs
      obtain ⟨l', ho⟩ := h.keyOutcome malloc hv hne mode pos hs hp hpl hkp
      refine ⟨l', ho.inv, fun p' hp' _ _ => ?_⟩
      rw [← Option.some.inj hp']
      exact ho.entries

end PhpRuntime.Hash
