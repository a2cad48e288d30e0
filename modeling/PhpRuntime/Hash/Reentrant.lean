import PhpRuntime.Hash.KeyChange

/-!
# Walks whose destructors edit the table

`zend_hash_apply_deleter` unlinks a bucket, calls the destructor and reads the successor from
the unlinked bucket afterwards. The destructor may delete other elements and insert new ones;
a deletion calls the destructor again, before it frees its bucket. The successor that is read
is the bucket that followed when the bucket was unlinked, so it is good unless the destructor
has deleted that one.
-/

set_option autoImplicit false

namespace PhpRuntime.Hash

open PhpRuntime.Lib PhpRuntime.Lib.OrderedMap

variable {α : Type} {ht ht' : HashTable α} {l s t held : List Addr} {p q a : Addr} {d : ℕ}
  {key : KeyArg} {n : UInt64} {v : α} {malloc : Malloc}

/-! ## The destructor -/

/-- What a running destructor does next: it stores, it calls `zend_hash_del_key_or_index`,
which calls the destructor of the element it has unlinked, or that destructor returns. -/
inductive Edit (α : Type) where
  | addOrUpdate (malloc : Malloc) (key : KeyArg) (pData : α) (flag : Flag)
  | quickAddOrUpdate (malloc : Malloc) (key : KeyArg) (h : UInt64) (pData : α) (flag : Flag)
  | indexUpdateOrNextInsert (malloc : Malloc) (h : UInt64) (pData : α) (flag : Flag)
  | del (key : KeyArg) (h : UInt64) (flag : DelFlag)
  | delReturn

/-- The table while destructors run. `running` are the buckets that
`zend_hash_del_key_or_index` has unlinked and not freed yet, the last one first, and
`unlinked` are all that it has unlinked so far. -/
structure Reentry (α : Type) where
  table : HashTable α
  running : List Addr
  unlinked : List Addr

namespace HashTable

/-- `zend_hash_del_key_or_index` up to the return of the destructor (zend_hash.c:509-528). -/
def unlinkBucket (ht : HashTable α) (p : Addr) (nIndex : ℕ) : HashTable α :=
  ((ht.unchain p nIndex).unlist p).callDestructor p

/-- Its end: `pefree(p, ..); ht->nNumOfElements--;`. -/
def freeBucket (ht : HashTable α) (p : Addr) : HashTable α :=
  { ht.pefree p with nNumOfElements := ht.nNumOfElements - 1 }

/-- `zend_hash_apply_deleter` up to the call of the destructor. -/
def applyUnlink (ht : HashTable α) (p : Addr) : HashTable α :=
  let ht := (ht.unchainByLast p).unlist p
  HashTable.callDestructor { ht with nNumOfElements := ht.nNumOfElements - 1 } p

end HashTable

/-- The walk of `zend_hash_del_key_or_index`. -/
def HashTable.findDel (ht : HashTable α) (key : KeyArg) (h : UInt64) (flag : DelFlag) :
    Option Addr :=
  ht.chainFind (ht.matchesDel key (delHash key h flag)) ht.loopBound
    (ht.arBuckets (ht.nIndex (delHash key h flag)))

def Edit.run (r : Reentry α) : Edit α → Reentry α
  | addOrUpdate malloc key pData flag =>
      { r with table := (r.table.zendHashAddOrUpdate malloc key pData flag).1 }
  | quickAddOrUpdate malloc key h pData flag =>
      { r with table := (r.table.zendHashQuickAddOrUpdate malloc key h pData flag).1 }
  | indexUpdateOrNextInsert malloc h pData flag =>
      { r with table := (r.table.zendHashIndexUpdateOrNextInsert malloc h pData flag).1 }
  | del key h flag =>
      match r.table.findDel key h flag with
      | none => r
      | some p =>
          { table := r.table.unlinkBucket p (r.table.nIndex (delHash key h flag))
            running := p :: r.running
            unlinked := p :: r.unlinked }
  | delReturn =>
      match r.running with
      | [] => r
      | p :: running => { r with table := r.table.freeBucket p, running := running }

/-- The destructor of the bucket `p`, which `zend_hash_apply_deleter` has unlinked. -/
def HashTable.destructorRun (ht : HashTable α) (p : Addr) (edits : List (Edit α)) : Reentry α :=
  edits.foldl Edit.run ⟨ht.applyUnlink p, [], []⟩

/-- `zend_hash_apply_deleter` (zend_hash.c:610-659) with a destructor that edits the table:
the address returned is read from the bucket after the destructor has returned. -/
def HashTable.applyDeleter (ht : HashTable α) (p : Addr) (edits : List (Edit α)) :
    HashTable α × Option Addr :=
  let r := ht.destructorRun p edits
  let retval := (r.table.mem p).pListNext
  (r.table.pefree p, retval)

/-! ## A table with unlinked buckets -/

namespace HashTable

/-- The table without the buckets that are unlinked and not freed. -/
@[simps] def linked (ht : HashTable α) (l : List Addr) : HashTable α :=
  { ht with live := l.toFinset, nNumOfElements := l.length }

end HashTable

/-- The linked buckets `l` are in order, those of `held` are unlinked and allocated, and `d` of
these are still counted. -/
structure Held (ht : HashTable α) (l held : List Addr) (d : ℕ) : Prop where
  inv : Inv (ht.linked l) l
  live : ht.live = l.toFinset ∪ held.toFinset
  apart : ∀ a ∈ held, a ∉ l
  nodup : held.Nodup
  count : ht.nNumOfElements = l.length + d

theorem Inv.linked_eq (h : Inv ht l) : ht.linked l = ht := by
  rw [HashTable.linked, ← h.live, ← h.count]

theorem Held.inv_of_nil (h : Held ht l [] 0) : Inv ht l := by
  have hlive : ht.live = l.toFinset := by simpa using h.live
  have heq : ht.linked l = ht := by
    rw [HashTable.linked, ← hlive]
    have hc : l.length = ht.nNumOfElements := h.count.symm
    rw [hc]
  exact heq ▸ h.inv

theorem chainFind_linked (ht : HashTable α) (l : List Addr) (test : Addr → Bool) (fuel : ℕ)
    (o : Option Addr) : (ht.linked l).chainFind test fuel o = ht.chainFind test fuel o := by
  induction fuel generalizing o with
  | zero => rfl
  | succ fuel ih =>
    cases o with
    | none => rfl
    | some a => rw [HashTable.chainFind, HashTable.chainFind, ih, HashTable.linked_mem]

theorem Inv.chainFind_fuel (h : Inv ht l) (test : Addr → Bool) {fuel : ℕ}
    (hf : ht.loopBound ≤ fuel) :
    ht.chainFind test fuel (ht.arBuckets (ht.nIndex n)) =
      ht.chainFind test ht.loopBound (ht.arBuckets (ht.nIndex n)) := by
  obtain ⟨ch, hch⟩ := h.chains
  have hlt := h.nIndex_lt n
  have hlen : (ch (ht.nIndex n)).length < ht.loopBound := by
    rw [h.loopBound_eq]
    exact Nat.lt_succ_of_le (List.Subperm.length_le (List.subperm_of_subset (hch.nodup _ hlt)
      fun a ha => ((hch.mem _ hlt a).mp ha).1))
  rw [hch.head _ hlt, Hash.chainFind_eq_find? test _ (hch.seg _ hlt) hlen,
    Hash.chainFind_eq_find? test _ (hch.seg _ hlt) (by omega)]

theorem Held.loopBound_le (h : Held ht l held d) : (ht.linked l).loopBound ≤ ht.loopBound := by
  unfold HashTable.loopBound
  rw [h.live, HashTable.linked_live]
  have := Finset.card_le_card (@Finset.subset_union_left _ _ l.toFinset held.toFinset)
  omega

theorem Held.chainFind (h : Held ht l held d) (test : Addr → Bool) :
    ht.chainFind test ht.loopBound (ht.arBuckets (ht.nIndex n)) =
      (ht.linked l).chainFind test (ht.linked l).loopBound
        ((ht.linked l).arBuckets ((ht.linked l).nIndex n)) := by
  rw [← h.inv.chainFind_fuel test h.loopBound_le, chainFind_linked]
  rfl

theorem Held.buckets_eq (h : Held ht l held d) : ht.buckets = l := by
  have hlen : (ht.linked l).loopBound = l.length + 1 := h.inv.loopBound_eq
  have hle := h.loopBound_le
  have hhead : ht.pListHead = l.head? := h.inv.list.head
  rw [HashTable.buckets, hhead]
  exact collect_spec ht.loopBound h.inv.list.seg (by omega)

/-! ## Unlinking and freeing -/

theorem listNext_unlist_of_notMem (h : ListOk ht l) (hp : p ∈ l) (ha : a ∉ l) :
    (ht.unlist p).listNext a = ht.listNext a := by
  rw [(unlist_links ht p a).1, if_neg]
  exact fun hlast => ha (h.seg.prev_mem hp hlast)

theorem listNext_unlist_self (h : ListOk ht (s ++ p :: t)) : (ht.unlist p).listNext p = t.head? := by
  obtain ⟨hlast, hnext⟩ := h.seg.at_middle
  simp only [Option.or_none] at hlast hnext
  have hps : s.getLast? ≠ some p := fun hp =>
    (List.nodup_append.mp h.nodup).2.2 p (List.mem_of_getLast? hp) p (by simp) rfl
  rw [(unlist_links ht p p).1, hlast, if_neg hps, hnext]

theorem Inv.unlink (h : Inv (ht.linked (s ++ p :: t)) (s ++ p :: t))
    (hu : Unchains ht ht' p (ht.nIndex (ht.mem p).h)) :
    Inv (((ht'.unlist p).callDestructor p).linked (s ++ t)) (s ++ t) ∧
      ((ht'.unlist p).mem p).pListNext = t.head? ∧
      ∀ a, a ∉ s ++ p :: t → ((ht'.unlist p).mem a).pListNext = (ht.mem a).pListNext := by
  have hf := hu.frame
  have hu' : Unchains (ht.linked (s ++ p :: t)) (ht'.linked (s ++ p :: t)) p
      ((ht.linked (s ++ p :: t)).nIndex ((ht.linked (s ++ p :: t)).mem p).h) := by
    refine ⟨⟨?_, hu.payload, hu.listNext, hu.listLast⟩, hu.arBuckets, hu.chNext, hu.chLast⟩
    rw [hf]
    rfl
  have hcore := (hu'.toChainStep.core h.toInvCore).list
  have hlist : ListOk ht' (s ++ p :: t) :=
    hcore.congr rfl rfl hcore.pointer (fun _ _ => rfl) (fun _ _ => rfl)
  refine ⟨?_, listNext_unlist_self hlist, fun a ha => ?_⟩
  · have hdel := h.delete hu'
    have heq := hdel.linked_eq
    have hsame : ((ht'.unlist p).callDestructor p).linked (s ++ t) = _ := heq
    rw [hsame]
    exact hdel
  · exact (listNext_unlist_of_notMem hlist (by simp) ha).trans (hu.listNext a)

/-- `zend_hash_apply_deleter` unlinks its bucket. -/
theorem Inv.applyUnlink (h : Inv ht (s ++ p :: t)) :
    Held (ht.applyUnlink p) (s ++ t) [p] 0 ∧ ((ht.applyUnlink p).mem p).pListNext = t.head? := by
  have hl : Inv (ht.linked (s ++ p :: t)) (s ++ p :: t) := by rw [h.linked_eq]; exact h
  have hu := unchains_unchainByLast ht p
  obtain ⟨hinv, hself, -⟩ := hl.unlink hu
  have hpst : p ∉ s ++ t := (List.nodup_cons.mp (List.perm_middle.nodup_iff.mp h.list.nodup)).1
  refine ⟨⟨hinv, ?_, by simpa using hpst, by simp, ?_⟩, hself⟩
  · have hlive : (ht.applyUnlink p).live = ht.live := rfl
    rw [hlive, h.live]
    ext x
    simp
  · have hcount : (ht.applyUnlink p).nNumOfElements = ht.nNumOfElements - 1 := rfl
    rw [hcount, h.count]
    simp only [List.length_append, List.length_cons]
    omega

/-- `zend_hash_del_key_or_index` unlinks its bucket. -/
theorem Held.unlinkBucket (h : Held ht (s ++ p :: t) held d) :
    Held (ht.unlinkBucket p (ht.nIndex (ht.mem p).h)) (s ++ t) (p :: held) (d + 1) ∧
      ∀ a, a ∉ s ++ p :: t → ((ht.unlinkBucket p (ht.nIndex (ht.mem p).h)).mem a).pListNext =
        (ht.mem a).pListNext := by
  obtain ⟨ch, hch⟩ := h.inv.chains
  have hch' : Chains ht (s ++ p :: t) ch := hch.congr rfl rfl (fun _ _ => rfl) (fun _ _ => rfl)
    (fun _ _ => rfl) (fun _ _ => rfl)
  have hu := unchains_unchain hch' (by simp : p ∈ s ++ p :: t) rfl (h.inv.nIndex_lt _)
  obtain ⟨hinv, -, hnext⟩ := h.inv.unlink hu
  have hpst : p ∉ s ++ t :=
    (List.nodup_cons.mp (List.perm_middle.nodup_iff.mp h.inv.list.nodup)).1
  have hph : p ∉ held := fun hp => h.apart p hp (by simp)
  refine ⟨⟨hinv, ?_, ?_, List.nodup_cons.mpr ⟨hph, h.nodup⟩, ?_⟩, hnext⟩
  · have hlive : (ht.unlinkBucket p (ht.nIndex (ht.mem p).h)).live = ht.live := by
      show (ht.unchain p _).live = ht.live
      rw [hu.frame]
    rw [hlive, h.live]
    ext x
    simp
  · intro a ha
    rcases List.mem_cons.mp ha with rfl | ha
    · exact hpst
    · have := h.apart a ha
      simp at this ⊢
      tauto
  · have hcount : (ht.unlinkBucket p (ht.nIndex (ht.mem p).h)).nNumOfElements =
        ht.nNumOfElements := by
      show (ht.unchain p _).nNumOfElements = ht.nNumOfElements
      rw [hu.frame]
    rw [hcount, h.count]
    simp only [List.length_append, List.length_cons]
    omega

theorem Held.pefree (h : Held ht l (p :: held) d) :
    Inv ((ht.pefree p).linked l) l ∧ (ht.pefree p).live = l.toFinset ∪ held.toFinset := by
  have hpl := h.apart p (by simp)
  have hph := (List.nodup_cons.mp h.nodup).1
  refine ⟨h.inv, ?_⟩
  rw [HashTable.pefree_live, h.live]
  ext x
  by_cases hx : x = p
  · subst hx
    simp [hpl, hph]
  · simp [hx]

theorem Held.freeBucket (h : Held ht l (p :: held) (d + 1)) :
    Held (ht.freeBucket p) l held d := by
  obtain ⟨hinv, hlive⟩ := h.pefree
  refine ⟨hinv, hlive, fun a ha => h.apart a (by simp [ha]), (List.nodup_cons.mp h.nodup).2, ?_⟩
  have hcount : (ht.freeBucket p).nNumOfElements = ht.nNumOfElements - 1 := rfl
  rw [hcount, h.count]
  omega

/-! ## Storing while buckets are unlinked -/

theorem linked_rehashLoop (fuel : ℕ) (o : Option Addr) (ht : HashTable α) (l : List Addr) :
    (HashTable.rehashLoop fuel o ht).linked l = HashTable.rehashLoop fuel o (ht.linked l) := by
  induction fuel generalizing o ht with
  | zero => rfl
  | succ fuel ih =>
    cases o with
    | none => rfl
    | some p => exact ih _ _

theorem chainStep_rehashLoop (fuel : ℕ) (o : Option Addr) (ht : HashTable α) :
    ChainStep ht (HashTable.rehashLoop fuel o ht) := by
  induction fuel generalizing o ht with
  | zero => exact ChainStep.refl ht
  | succ fuel ih =>
    cases o with
    | none => exact ChainStep.refl ht
    | some p => exact (chainStep_connect ht p _ _).trans (ih _ _)

theorem InvCore.rehash_linked (h : InvCore (ht.linked l) l) (hne : ht.nNumOfElements ≠ 0)
    (hlive : l.toFinset ⊆ ht.live) :
    Inv (ht.zendHashRehash.linked l) l ∧ ChainStep ht ht.zendHashRehash := by
  have hbound : l.length < ht.loopBound := by
    have hcard := Finset.card_le_card hlive
    rw [List.toFinset_card_of_nodup h.list.nodup] at hcard
    exact Nat.lt_succ_of_le hcard
  have hhead : ht.pListHead = l.head? := h.list.head
  have heq : ht.zendHashRehash = HashTable.rehashLoop ht.loopBound l.head?
      { ht with arBuckets := fun i => if i < ht.nTableSize then none else ht.arBuckets i } := by
    rw [HashTable.zendHashRehash, if_neg hne, ← hhead]
    rfl
  rw [heq]
  -- the table with its slots cleared
  have hclear : ChainStep ht
      { ht with arBuckets := fun i => if i < ht.nTableSize then none else ht.arBuckets i } :=
    ⟨rfl, fun _ => rfl, fun _ => rfl, fun _ => rfl⟩
  have hcore : InvCore (HashTable.linked { ht with
      arBuckets := fun i => if i < ht.nTableSize then none else ht.arBuckets i } l) l :=
    @ChainStep.core _ (ht.linked l) _ l ⟨rfl, fun _ => rfl, fun _ => rfl, fun _ => rfl⟩ h
  have hch : Chains (HashTable.linked { ht with
      arBuckets := fun i => if i < ht.nTableSize then none else ht.arBuckets i } l) []
      (fun _ => []) := ⟨fun i hi => if_pos hi, by simp, by simp, by simp⟩
  generalize ({ ht with
    arBuckets := fun i => if i < ht.nTableSize then none else ht.arBuckets i } :
      HashTable α) = cleared at *
  obtain ⟨h1, h2, -⟩ := rehashLoop_spec (s := []) (t := l) ht.loopBound hcore hch hbound
  rw [← linked_rehashLoop] at h1 h2
  exact ⟨⟨h1.core hcore, _, h2⟩, hclear.trans (chainStep_rehashLoop ht.loopBound l.head? cleared)⟩

/-- The table doubled or as it was: its buckets are the same. -/
structure SameBuckets (ht ht' : HashTable α) : Prop where
  payload : ∀ x, (ht'.mem x).payload = (ht.mem x).payload
  listNext : ∀ x, (ht'.mem x).pListNext = (ht.mem x).pListNext
  live : ht'.live = ht.live
  count : ht'.nNumOfElements = ht.nNumOfElements

theorem SameBuckets.refl (ht : HashTable α) : SameBuckets ht ht :=
  ⟨fun _ => rfl, fun _ => rfl, rfl, rfl⟩

theorem Inv.ifFullDoResize_linked (h : Inv (ht.linked l) l) (hlive : l.toFinset ⊆ ht.live) :
    Inv (ht.ifFullDoResize.linked l) l ∧ SameBuckets ht ht.ifFullDoResize := by
  unfold HashTable.ifFullDoResize HashTable.zendHashDoResize
  dsimp only
  split
  · split
    · rename_i hfull hpos
      have hcore : InvCore (HashTable.linked { ht with
          nTableSize := ht.nTableSize * 2 % 2 ^ 32
          nTableMask := ht.nTableSize * 2 % 2 ^ 32 - 1 } l) l := h.doubled hpos
      have hne : ht.nNumOfElements ≠ 0 := by omega
      obtain ⟨hinv, hs⟩ := InvCore.rehash_linked hcore hne hlive
      refine ⟨hinv, hs.payload, hs.listNext, ?_, ?_⟩
      · rw [hs.frame]
      · rw [hs.frame]
    · exact ⟨h, SameBuckets.refl ht⟩
  · exact ⟨h, SameBuckets.refl ht⟩

/-- The table after an edit: its list `l'`, and the links of the unlinked buckets as they
were. -/
structure Edited (ht : HashTable α) (held : List Addr) (d : ℕ) (ht' : HashTable α)
    (l' : List Addr) : Prop where
  inOrder : Held ht' l' held d
  listNext : ∀ a ∈ held, (ht'.mem a).pListNext = (ht.mem a).pListNext

theorem listNext_linkBucket (ht : HashTable α) {i : ℕ} (hap : a ≠ p)
    (htail : ht.pListTail ≠ some a) :
    ((ht.linkBucket p i).mem a).pListNext = (ht.mem a).pListNext := by
  have htail' : (ht.connectToBucketDllist p (ht.arBuckets i)).pListTail ≠ some a := htail
  simp only [HashTable.linkBucket, HashTable.setBucket_mem, HashTable.connectToGlobalDllist,
    HashTable.storeAt_mem, HashTable.store_mem, if_neg hap]
  rw [if_neg htail', HashTable.connectToBucketDllist_listNext]

theorem Held.linkBucket (h : Held ht l held d) (hm : ht.nTableMask = ht.nTableSize - 1)
    (hp : p ∉ ht.live) {f : Bucket α → Bucket α} {ht1 : HashTable α}
    (h1 : ht1 = { ht with
      mem := fun x => if x = p then f (ht.mem x) else ht.mem x
      live := insert p ht.live })
    (hk : KeyOk ht1 p) (hnew : ht1.keyOf p ∉ keys (ht.entries l))
    (hroom : ht.nNumOfElements + 1 < 2 ^ 32) {i : ℕ} (hi : i = ht1.nIndex (ht1.mem p).h)
    (hl : ∃ n, ht' = { ht1.linkBucket p i with nNextFreeElement := n }) :
    Edited ht held d ht'.countBucket (l ++ [p]) := by
  obtain ⟨n, hl⟩ := hl
  have hpl : p ∉ l := fun hpl => hp (by simp [h.live, hpl])
  have hph : p ∉ held := fun hph => hp (by simp [h.live, hph])
  -- the insertion, without the unlinked buckets
  obtain ⟨fresh, hfresh⟩ : ∃ fresh, fresh = { ht1.linked l with live := insert p l.toFinset } :=
    ⟨_, rfl⟩
  have hins : Inv { fresh.linkBucket p i with
      nNumOfElements := l.length + 1, nNextFreeElement := n } (l ++ [p]) := by
    have hslot : i = fresh.nIndex (fresh.mem p).h := by
      rw [hi, hfresh]
      rfl
    have hframe : fresh = { ht.linked l with
        mem := fresh.mem, live := insert p (ht.linked l).live } := by
      rw [hfresh, h1]
      rfl
    have hmem : ∀ x, x ≠ p → fresh.mem x = (ht.linked l).mem x := fun x hx => by
      rw [hfresh, h1]
      exact if_neg hx
    have hkey : KeyOk fresh p := by
      rw [hfresh]
      exact hk.congr rfl
    have hdistinct : ∀ a ∈ l, (ht.linked l).keyOf a ≠ fresh.keyOf p := by
      intro a ha hka
      rw [hfresh] at hka
      exact hnew (mem_keys_entries.mpr ⟨a, ha, hka⟩)
    have hbase := h.inv.insert hm hpl hframe hmem hkey hdistinct
    rw [← hslot] at hbase
    exact hbase.of_nNextFreeElement n
  generalize hy : ({ ht' with nNumOfElements := (ht'.nNumOfElements + 1) % 2 ^ 32 } :
    HashTable α) = y
  have hlinked : Inv (y.linked (l ++ [p])) (l ++ [p]) := by
    have heq := hins.linked_eq
    rw [← heq, hfresh] at hins
    rw [← hy, hl]
    exact hins
  have hlive : y.live = insert p ht.live := by rw [← hy, hl, h1]; rfl
  have hcount : y.nNumOfElements = ht.nNumOfElements + 1 := by
    have hlink : ht'.nNumOfElements = ht.nNumOfElements := by
      rw [hl]
      exact (HashTable.linkBucket_nNumOfElements ht1 p i).trans (by rw [h1])
    rw [← hy, hlink, Nat.mod_eq_of_lt hroom]
  have hsub : (l ++ [p]).toFinset ⊆ y.live := by
    intro x hx
    rw [hlive, h.live]
    simp at hx ⊢
    tauto
  obtain ⟨hinv, hsb⟩ := hlinked.ifFullDoResize_linked hsub
  have hfull : ht'.countBucket = y.ifFullDoResize := by rw [← hy]; rfl
  rw [hfull]
  refine ⟨⟨hinv, ?_, ?_, h.nodup, ?_⟩, fun a ha => ?_⟩
  · rw [hsb.live, hlive, h.live]
    ext x
    simp
  · intro a ha
    have hal := h.apart a ha
    have hap : a ≠ p := fun hap => hph (hap ▸ ha)
    simp [hal, hap]
  · rw [hsb.count, hcount, h.count, List.length_append, List.length_singleton]
    omega
  · have hap : a ≠ p := fun hap => hph (hap ▸ ha)
    have htail : ht.pListTail ≠ some a := fun htail =>
      h.apart a ha (List.mem_of_getLast? (h.inv.list.tail ▸ htail))
    have htail1 : ht1.pListTail ≠ some a := by rw [h1]; exact htail
    have hmem : ht1.mem a = ht.mem a := by rw [h1]; exact if_neg hap
    have hymem : y.mem = (ht1.linkBucket p i).mem := by rw [← hy, hl]
    rw [hsb.listNext a, hymem, ← hmem]
    exact listNext_linkBucket ht1 hap htail1

/-- The allocator while other blocks are in use too. -/
def Malloc.beside (malloc : Malloc) (used : Finset Addr) : Malloc where
  addr s := malloc.addr (s ∪ used)
  fresh s h := malloc.fresh (s ∪ used) (Finset.mem_union_left used h)

theorem Held.beside_addr (h : Held ht l held d) (malloc : Malloc) :
    (malloc.beside ht.live).addr (ht.linked l).live = malloc.addr ht.live := by
  have hunion : (ht.linked l).live ∪ ht.live = ht.live :=
    Finset.union_eq_right.mpr (by rw [h.live]; exact Finset.subset_union_left)
  show malloc.addr ((ht.linked l).live ∪ ht.live) = _
  rw [hunion]

/-- `CHECK_INIT`. -/
theorem Held.checkInit (h : Held ht l held d) :
    Held ht.checkInit l held d ∧ ht.checkInit.nTableMask = ht.checkInit.nTableSize - 1 ∧
      ht.checkInit.mem = ht.mem := by
  obtain ⟨hinv, hmask, -⟩ := h.inv.checkInit
  have hcomm : (ht.linked l).checkInit = ht.checkInit.linked l := by
    unfold HashTable.checkInit
    rw [HashTable.linked_nTableMask]
    split <;> rfl
  have hsame : ht.checkInit.live = ht.live ∧ ht.checkInit.nNumOfElements = ht.nNumOfElements ∧
      ht.checkInit.mem = ht.mem := by
    unfold HashTable.checkInit
    split <;> exact ⟨rfl, rfl, rfl⟩
  rw [hcomm] at hinv hmask
  exact ⟨⟨hinv, hsame.1.trans h.live, h.apart, h.nodup, hsame.2.1.trans h.count⟩, hmask,
    hsame.2.2⟩

theorem Held.updateData (h : Held ht l held d) (hp : p ∈ l) (v : α) (n : UInt64) :
    Edited ht held d { ht.updateData p v with nNextFreeElement := n } l := by
  have hinv := (h.inv.updateData hp v).1.of_nNextFreeElement n
  refine ⟨⟨hinv, h.live, h.apart, h.nodup, h.count⟩, fun a _ => ?_⟩
  simp only [HashTable.updateData, HashTable.store_mem, HashTable.callDestructor_mem]
  split <;> rfl

/-- The list after a store: as it was, or with a new bucket at the end. -/
def Grows (l l' : List Addr) : Prop := l' = l ∨ ∃ p, l' = l ++ [p]

theorem Edited.of_checkInit {l' : List Addr} (h : Edited ht.checkInit held d ht' l')
    (hm : ht.checkInit.mem = ht.mem) : Edited ht held d ht' l' :=
  ⟨h.inOrder, fun a ha => (h.listNext a ha).trans (by rw [hm])⟩

theorem Held.addOrUpdate (h : Held ht l held d) (malloc : Malloc) (hv : ValidKey ht l key)
    (hlen : key.nKeyLength ≠ 0) (hroom : ht.nNumOfElements + 1 < 2 ^ 32) (v : α) (flag : Flag) :
    ∃ l', Edited ht held d
        (ht.addOrUpdate malloc key (zendInlineHashFunc key.bytes) v flag).1 l' ∧ Grows l l' := by
  obtain ⟨h1, hm1, hmem1⟩ := h.checkInit
  have hv1 : ValidKey (ht.checkInit.linked l) l key := hv.of_mem hmem1
  have hcount : ht.checkInit.nNumOfElements = ht.nNumOfElements := h1.count.trans h.count.symm
  rw [← hcount] at hroom
  suffices hedit : ∃ l', Edited ht.checkInit held d
      (ht.addOrUpdate malloc key (zendInlineHashFunc key.bytes) v flag).1 l' ∧ Grows l l' by
    obtain ⟨l', he, hg⟩ := hedit
    exact ⟨l', he.of_checkInit hmem1, hg⟩
  unfold HashTable.addOrUpdate
  dsimp only
  generalize ht.checkInit = ht1 at *
  have hfind : ht1.findKey key (zendInlineHashFunc key.bytes) =
      (ht1.linked l).findKey key (zendInlineHashFunc key.bytes) := h1.chainFind _
  cases hf : ht1.findKey key (zendInlineHashFunc key.bytes) with
  | some p =>
    rw [hf] at hfind
    have hp := (h1.inv.mem_of_chainFind hfind.symm).1
    dsimp only
    split
    · exact ⟨l, ⟨h1, fun _ _ => rfl⟩, Or.inl rfl⟩
    · exact ⟨l, h1.updateData hp v (ht1.updateData p v).nNextFreeElement, Or.inl rfl⟩
  | none =>
    rw [hf] at hfind
    have hnew := h1.inv.notMem_keys_of_findKey_none hfind.symm
    have hfill := fillsBucket_key h1.inv.toInvCore (malloc.beside ht1.live) hv1 hlen v
    rw [h1.beside_addr] at hfill
    refine ⟨l ++ [malloc.addr ht1.live], ?_, Or.inr ⟨_, rfl⟩⟩
    refine h1.linkBucket hm1 (malloc.fresh ht1.live) (f := HashTable.initKeyBucket key
      (zendInlineHashFunc key.bytes) v (malloc.addr ht1.live)) rfl (hfill.keyOk.congr rfl) ?_
      hroom ?_ (HashTable.nNextFreeElement_eta _)
    · have hkey := hfill.keyOf
      rw [← hkey] at hnew
      exact hnew
    · simp [HashTable.nIndex, HashTable.initKeyBucket]

theorem Held.indexUpdateOrNextInsert (h : Held ht l held d) (malloc : Malloc)
    (hroom : ht.nNumOfElements + 1 < 2 ^ 32) (n : UInt64) (v : α) (flag : Flag) :
    ∃ l', Edited ht held d (ht.zendHashIndexUpdateOrNextInsert malloc n v flag).1 l' ∧
      Grows l l' := by
  obtain ⟨h1, hm1, hmem1⟩ := h.checkInit
  have hcount : ht.checkInit.nNumOfElements = ht.nNumOfElements := h1.count.trans h.count.symm
  rw [← hcount] at hroom
  suffices hedit : ∃ l', Edited ht.checkInit held d
      (ht.zendHashIndexUpdateOrNextInsert malloc n v flag).1 l' ∧ Grows l l' by
    obtain ⟨l', he, hg⟩ := hedit
    exact ⟨l', he.of_checkInit hmem1, hg⟩
  unfold HashTable.zendHashIndexUpdateOrNextInsert
  dsimp only
  generalize ht.checkInit = ht1 at *
  generalize (if flag = .HASH_NEXT_INSERT then ht1.nNextFreeElement else n) = m
  have hfind : ht1.findIndex m = (ht1.linked l).findIndex m := h1.chainFind _
  have hkeys := h1.inv.findIndex_iff (n := m)
  cases hf : ht1.findIndex m with
  | some p =>
    rw [hf] at hfind
    have hp := ((hkeys p).mp hfind.symm).1
    dsimp only
    split
    · exact ⟨l, ⟨h1, fun _ _ => rfl⟩, Or.inl rfl⟩
    · obtain ⟨k, hk⟩ := (ht1.updateData p v).bumpNextFree_eq m
      rw [hk]
      exact ⟨l, h1.updateData hp v k, Or.inl rfl⟩
  | none =>
    rw [hf] at hfind
    have hnew := notMem_keys_of_find_none hfind.symm hkeys
    have hfill := fillsBucket_index h1.inv.toInvCore (malloc.beside ht1.live) m v
    rw [h1.beside_addr] at hfill
    refine ⟨l ++ [malloc.addr ht1.live], ?_, Or.inr ⟨_, rfl⟩⟩
    refine h1.linkBucket hm1 (malloc.fresh ht1.live) (f := fun b =>
      { b with arKey := .null, nKeyLength := 0, h := m, pData := v }) rfl (hfill.keyOk.congr rfl)
      ?_ hroom ?_ (HashTable.bumpNextFree_eq _ _)
    · have hkey := hfill.keyOf
      rw [← hkey] at hnew
      exact hnew
    · simp [HashTable.nIndex]

/-! ## The run of a destructor -/

/-- What the callers of an edit see to, and that the counter of the elements does not wrap. -/
def Edit.Admissible (ht : HashTable α) : Edit α → Prop
  | .addOrUpdate _ key _ _ => ValidKey ht ht.buckets key ∧ ht.nNumOfElements + 1 < 2 ^ 32
  | .quickAddOrUpdate _ key h _ _ =>
      (key.nKeyLength ≠ 0 → ValidKey ht ht.buckets key ∧ h = zendInlineHashFunc key.bytes) ∧
      ht.nNumOfElements + 1 < 2 ^ 32
  | .indexUpdateOrNextInsert _ _ _ _ => ht.nNumOfElements + 1 < 2 ^ 32
  | .del key h flag =>
      key.nKeyLength ≠ 0 → delHash key h flag = zendInlineHashFunc key.bytes
  | .delReturn => True

/-- A destructor whose edits are admissible, one after the other. -/
def EditsAdmissible : Reentry α → List (Edit α) → Prop
  | _, [] => True
  | r, e :: edits => e.Admissible r.table ∧ EditsAdmissible (e.run r) edits

/-- What edits do to the part `t` of the list that is still to be visited, `held` being the
buckets of the callers: an element leaves it by its deletion only, and the first one stays
first. -/
structure Runs (r : Reentry α) (held t : List Addr) (r' : Reentry α) (s' t' : List Addr) :
    Prop where
  inOrder : Held r'.table (s' ++ t') (r'.running ++ held) r'.running.length
  stays : ∀ a ∈ t, a ∈ t' ∨ a ∈ r'.unlinked
  first : ∀ a, t.head? = some a → a ∉ r'.unlinked → t'.head? = some a
  unlinked : ∀ a ∈ r.unlinked, a ∈ r'.unlinked
  listNext : ∀ a ∈ held, (r'.table.mem a).pListNext = (r.table.mem a).pListNext

theorem Edited.runs {r : Reentry α} {ht' : HashTable α} {l' : List Addr}
    (he : Edited r.table (r.running ++ held) r.running.length ht' l') (hg : Grows (s ++ t) l') :
    ∃ s' t', Runs r held t { r with table := ht' } s' t' := by
  have hnext : ∀ a ∈ held, (ht'.mem a).pListNext = (r.table.mem a).pListNext :=
    fun a ha => he.listNext a (by simp [ha])
  rcases hg with rfl | ⟨p, rfl⟩
  · exact ⟨s, t, he.inOrder, fun a ha => Or.inl ha, fun a ha _ => ha, fun a ha => ha, hnext⟩
  · refine ⟨s, t ++ [p], ?_, fun a ha => Or.inl (by simp [ha]), fun a ha _ => ?_,
      fun a ha => ha, hnext⟩
    · rw [← List.append_assoc]
      exact he.inOrder
    · rw [List.head?_append, ha]
      rfl

theorem Held.runs_unlink {r : Reentry α}
    (h : Held r.table (s ++ t) (r.running ++ held) r.running.length) (hp : p ∈ s ++ t) :
    ∃ s' t', Runs r held t
      { table := r.table.unlinkBucket p (r.table.nIndex (r.table.mem p).h)
        running := p :: r.running
        unlinked := p :: r.unlinked } s' t' := by
  have happart : ∀ a ∈ held, a ∉ s ++ t := fun a ha => h.apart a (by simp [ha])
  rcases List.mem_append.mp hp with hps | hpt
  · obtain ⟨s1, s2, rfl⟩ := List.append_of_mem hps
    have hassoc : s1 ++ p :: s2 ++ t = s1 ++ p :: (s2 ++ t) := by simp
    rw [hassoc] at h happart
    obtain ⟨hh, hnext⟩ := h.unlinkBucket
    refine ⟨s1 ++ s2, t, ?_, fun a ha => Or.inl ha, fun a ha _ => ha,
      fun a ha => List.mem_cons_of_mem _ ha, fun a ha => hnext a (happart a ha)⟩
    rw [List.append_assoc]
    exact hh
  · obtain ⟨t1, t2, rfl⟩ := List.append_of_mem hpt
    rw [← List.append_assoc] at h happart
    obtain ⟨hh, hnext⟩ := h.unlinkBucket
    refine ⟨s, t1 ++ t2, ?_, fun a ha => ?_, fun a ha hna => ?_,
      fun a ha => List.mem_cons_of_mem _ ha, fun a ha => hnext a (happart a ha)⟩
    · rw [← List.append_assoc]
      exact hh
    · simp only [List.mem_append, List.mem_cons] at ha ⊢
      tauto
    · cases t1 with
      | nil =>
        obtain rfl : p = a := by simpa using ha
        exact absurd List.mem_cons_self hna
      | cons x t1 => simpa using ha

/-- **One edit.** -/
theorem Edit.runs {r : Reentry α} (h : Held r.table (s ++ t) (r.running ++ held) r.running.length)
    (e : Edit α) (ha : e.Admissible r.table) : ∃ s' t', Runs r held t (e.run r) s' t' := by
  have hb := h.buckets_eq
  have hsame : ∃ s' t', Runs r held t r s' t' :=
    ⟨s, t, h, fun a ha => Or.inl ha, fun a ha _ => ha, fun a ha => ha, fun _ _ => rfl⟩
  cases e with
  | addOrUpdate malloc key v flag =>
    simp only [Edit.Admissible, hb] at ha
    simp only [Edit.run, HashTable.zendHashAddOrUpdate]
    split
    · exact hsame
    · rename_i hlen
      obtain ⟨l', he, hg⟩ := h.addOrUpdate malloc ha.1 hlen ha.2 v flag
      exact he.runs hg
  | quickAddOrUpdate malloc key n v flag =>
    simp only [Edit.Admissible, hb] at ha
    simp only [Edit.run, HashTable.zendHashQuickAddOrUpdate]
    split
    · obtain ⟨l', he, hg⟩ := h.indexUpdateOrNextInsert malloc ha.2 n v .HASH_UPDATE
      exact he.runs hg
    · rename_i hlen
      obtain ⟨hv, rfl⟩ := ha.1 hlen
      obtain ⟨l', he, hg⟩ := h.addOrUpdate malloc hv hlen ha.2 v flag
      exact he.runs hg
  | indexUpdateOrNextInsert malloc n v flag =>
    obtain ⟨l', he, hg⟩ := h.indexUpdateOrNextInsert malloc ha n v flag
    exact he.runs hg
  | del key n flag =>
    have hfind : r.table.findDel key n flag = _ := h.chainFind _
    simp only [Edit.run]
    cases hf : r.table.findDel key n flag with
    | none => exact hsame
    | some p =>
      rw [hf] at hfind
      obtain ⟨hp, hk⟩ := (h.inv.findDel_iff ha p).mp hfind.symm
      have hh : (r.table.mem p).h = delHash key n flag := (h.inv.keys p hp).h_eq_of_toKey ha hk
      rw [← hh]
      exact h.runs_unlink hp
  | delReturn =>
    simp only [Edit.run]
    cases hr : r.running with
    | nil =>
      exact hsame
    | cons p running =>
      rw [hr, List.cons_append, List.length_cons] at h
      exact ⟨s, t, h.freeBucket, fun a ha => Or.inl ha, fun a ha _ => ha, fun a ha => ha,
        fun _ _ => rfl⟩

/-- **The edits of a destructor, one after the other.** -/
theorem Edit.runs_foldl {r : Reentry α} {edits : List (Edit α)}
    (h : Held r.table (s ++ t) (r.running ++ held) r.running.length)
    (ha : EditsAdmissible r edits) : ∃ s' t', Runs r held t (edits.foldl Edit.run r) s' t' := by
  induction edits generalizing r s t with
  | nil =>
    exact ⟨s, t, h, fun a ha => Or.inl ha, fun a ha _ => ha, fun a ha => ha, fun _ _ => rfl⟩
  | cons e edits ih =>
    obtain ⟨s1, t1, h1⟩ := Edit.runs h e ha.1
    obtain ⟨s2, t2, h2⟩ := ih h1.inOrder ha.2
    refine ⟨s2, t2, h2.inOrder, fun a hat => ?_, fun a hat hna => ?_,
      fun a hau => h2.unlinked a (h1.unlinked a hau),
      fun a hah => (h2.listNext a hah).trans (h1.listNext a hah)⟩
    · rcases h1.stays a hat with hat1 | hau
      · exact h2.stays a hat1
      · exact Or.inr (h2.unlinked a hau)
    · exact h2.first a (h1.first a hat fun hau => hna (h2.unlinked a hau)) hna

/-! ## The walks -/

/-- One turn of a walk: of `zend_hash_apply`, whose callback answers `result`, or of
`zend_hash_graceful_destroy`. `edits` is what the destructor does if it is called. -/
inductive Turn (α : Type) where
  | apply (result : ApplyResult α) (edits : List (Edit α))
  | destroy (edits : List (Edit α))

/-- A walk: the table, the variable `p` of the loop, whether the loop was left by
`ZEND_HASH_APPLY_STOP`, the buckets that were visited, and those that destructors have
deleted. -/
structure Walk (α : Type) where
  table : HashTable α
  p : Option Addr
  stopped : Bool
  visited : List Addr
  unlinked : List Addr

/-- `p = ht->pListHead;`. -/
def Walk.start (ht : HashTable α) : Walk α := ⟨ht, ht.pListHead, false, [], []⟩

/-- `p = zend_hash_apply_deleter(ht, p);`. -/
def Walk.delete (w : Walk α) (p : Addr) (edits : List (Edit α)) : Walk α :=
  { w with
    table := (w.table.applyDeleter p edits).1
    p := (w.table.applyDeleter p edits).2
    unlinked := (w.table.destructorRun p edits).unlinked ++ w.unlinked }

/-- The bucket `p` is visited, and its value is stored as the callback leaves it. -/
def Walk.visit (w : Walk α) (p : Addr) (turn : Turn α) : Walk α :=
  match turn with
  | .apply result _ =>
      { w with
        table := w.table.store p fun b => { b with pData := result.pDest }
        visited := p :: w.visited }
  | .destroy _ => { w with visited := p :: w.visited }

/-- One turn of the loops of `zend_hash_apply` (zend_hash.c:713-724) and
`zend_hash_graceful_destroy` (zend_hash.c:668-671). -/
def Walk.turn (w : Walk α) (turn : Turn α) : Walk α :=
  if w.stopped then w
  else
    match w.p with
    | none => w
    | some p =>
        match turn with
        | .destroy edits => (w.visit p turn).delete p edits
        | .apply result edits =>
            let w := w.visit p turn
            let w := if result.remove then w.delete p edits
              else { w with p := (w.table.mem p).pListNext }
            { w with stopped := result.stop }

/-- The turn calls `zend_hash_apply_deleter` for the bucket `p` of the table `ht`. -/
def Turn.Deletes (w : Walk α) (turn : Turn α) (ht : HashTable α) (p : Addr)
    (edits : List (Edit α)) : Prop :=
  w.stopped = false ∧ w.p = some p ∧ ht = (w.visit p turn).table ∧
    (turn = .destroy edits ∨ ∃ result, result.remove = true ∧ turn = .apply result edits)

/-- The destructor makes admissible edits, and returns. -/
def Turn.Admissible (w : Walk α) (turn : Turn α) : Prop :=
  ∀ ht p edits, turn.Deletes w ht p edits →
    EditsAdmissible ⟨ht.applyUnlink p, [], []⟩ edits ∧ (ht.destructorRun p edits).running = []

/-- The destructor does not delete the element that follows the one it is called for. -/
def Turn.SparesNext (w : Walk α) (turn : Turn α) : Prop :=
  ∀ ht p edits, turn.Deletes w ht p edits →
    ∀ q, (ht.mem p).pListNext = some q → q ∉ (ht.destructorRun p edits).unlinked

/-- The walks over `ht` whose turns satisfy `P`. -/
inductive WalkRun (P : Walk α → Turn α → Prop) (ht : HashTable α) : Walk α → Prop
  | start : WalkRun P ht (Walk.start ht)
  | turn {w : Walk α} (h : WalkRun P ht w) (turn : Turn α) (ha : turn.Admissible w)
      (hp : P w turn) : WalkRun P ht (w.turn turn)

/-- **One call of `zend_hash_apply_deleter`** with a destructor that edits the table. -/
theorem Inv.applyDeleter (h : Inv ht (s ++ p :: t)) {edits : List (Edit α)}
    (ha : EditsAdmissible ⟨ht.applyUnlink p, [], []⟩ edits)
    (hr : (ht.destructorRun p edits).running = []) :
    (ht.applyDeleter p edits).2 = t.head? ∧ ∃ s' t',
      Inv (ht.applyDeleter p edits).1 (s' ++ t') ∧
      (∀ a ∈ t, a ∈ t' ∨ a ∈ (ht.destructorRun p edits).unlinked) ∧
      ∀ a, t.head? = some a → a ∉ (ht.destructorRun p edits).unlinked → t'.head? = some a := by
  obtain ⟨hstart, hnext⟩ := h.applyUnlink
  obtain ⟨s', t', (hruns : Runs _ [p] t _ s' t')⟩ :=
    Edit.runs_foldl (r := ⟨ht.applyUnlink p, [], []⟩) hstart ha
  have hheld := hruns.inOrder
  have hp := hruns.listNext p (by simp)
  rw [← HashTable.destructorRun] at *
  rw [hr] at hheld
  obtain ⟨hinv, hlive⟩ := hheld.pefree
  refine ⟨hp.trans hnext, s', t', ?_, hruns.stays, hruns.first⟩
  refine Held.inv_of_nil ⟨hinv, hlive, by simp, List.nodup_nil, ?_⟩
  exact hheld.count

/-- A walk in progress: the buckets of `t` are still to be visited, the first of them next. -/
structure InProgress (ht : HashTable α) (w : Walk α) (s t : List Addr) : Prop where
  inv : Inv w.table (s ++ t)
  next : ∀ p, w.p = some p → t.head? = some p
  visits : ∀ a ∈ ht.buckets, a ∈ w.visited ∨ a ∈ w.unlinked ∨ w.p ≠ none ∧ a ∈ t

theorem InProgress.delete {w : Walk α} {turn : Turn α} {edits : List (Edit α)}
    (h : InProgress ht w s (p :: t)) (hd : turn.Deletes w (w.visit p turn).table p edits)
    (hi : Inv (w.visit p turn).table (s ++ p :: t)) (ha : turn.Admissible w)
    (hp : turn.SparesNext w) :
    ∃ s' t', InProgress ht ((w.visit p turn).delete p edits) s' t' := by
  obtain ⟨hadm, hret⟩ := ha _ p edits hd
  obtain ⟨hnext, s', t', hinv, hstays, hfirst⟩ := hi.applyDeleter hadm hret
  have hlink : ((w.visit p turn).table.mem p).pListNext = t.head? := by
    simpa [HashTable.listNext] using hi.list.seg.at_middle.2
  have hspare := hp _ p edits hd
  rw [hlink] at hspare
  have hvisited : (w.visit p turn).visited = p :: w.visited := by cases turn <;> rfl
  have hunlinked : (w.visit p turn).unlinked = w.unlinked := by cases turn <;> rfl
  refine ⟨s', t', hinv, fun q hq => ?_, fun a hal => ?_⟩
  · have hq' : t.head? = some q := hnext.symm.trans hq
    exact hfirst q hq' (hspare q hq')
  · show a ∈ (w.visit p turn).visited ∨
      a ∈ ((w.visit p turn).table.destructorRun p edits).unlinked ++ (w.visit p turn).unlinked ∨
        ((w.visit p turn).table.applyDeleter p edits).2 ≠ none ∧ a ∈ t'
    rw [hvisited, hunlinked, hnext, List.mem_append]
    rcases h.visits a hal with hv | hu | ⟨-, hat⟩
    · exact Or.inl (by simp [hv])
    · exact Or.inr (Or.inl (Or.inr hu))
    · rcases List.mem_cons.mp hat with rfl | hat
      · exact Or.inl (by simp)
      · rcases hstays a hat with hat' | hau
        · refine Or.inr (Or.inr ⟨fun hnil => ?_, hat'⟩)
          rw [List.head?_eq_none_iff.mp hnil] at hat
          simp at hat
        · exact Or.inr (Or.inl (Or.inl hau))

/-- **One turn of a walk.** -/
theorem InProgress.turn {w : Walk α} (h : InProgress ht w s t) (turn : Turn α)
    (ha : turn.Admissible w) (hp : turn.SparesNext w) :
    ∃ s' t', InProgress ht (w.turn turn) s' t' := by
  unfold Walk.turn
  split
  · exact ⟨s, t, h⟩
  · rename_i hrun
    have hrun' : w.stopped = false := by simpa using hrun
    cases hwp : w.p with
    | none => exact ⟨s, t, h⟩
    | some p =>
      obtain ⟨t, rfl⟩ : ∃ t', t = p :: t' := by
        have hhead := h.next p hwp
        cases t with
        | nil => simp at hhead
        | cons x t => exact ⟨t, by rw [Option.some.inj hhead]⟩
      cases turn with
      | destroy edits =>
        exact h.delete ⟨hrun', hwp, rfl, Or.inl rfl⟩ h.inv ha hp
      | apply result edits =>
        have hi := (h.inv.store_result result.pDest).1
        dsimp only
        split
        · rename_i hrem
          obtain ⟨s', t', hd⟩ :=
            h.delete ⟨hrun', hwp, rfl, Or.inr ⟨result, hrem, rfl⟩⟩ hi ha hp
          exact ⟨s', t', hd.inv, hd.next, hd.visits⟩
        · -- the bucket is kept, and the walk goes on after it
          have hlink : ((w.visit p (.apply result edits)).table.mem p).pListNext = t.head? := by
            have hnext := hi.list.seg.at_middle.2
            rw [Option.or_none] at hnext
            exact hnext
          refine ⟨s ++ [p], t, ?_, fun q hq => hlink.symm.trans hq, fun a hal => ?_⟩
          · rw [List.append_assoc]
            exact hi
          · show a ∈ p :: w.visited ∨ a ∈ w.unlinked ∨
              ((w.visit p (.apply result edits)).table.mem p).pListNext ≠ none ∧ a ∈ t
            rw [hlink]
            rcases h.visits a hal with hv | hu | ⟨-, hat⟩
            · exact Or.inl (by simp [hv])
            · exact Or.inr (Or.inl hu)
            · rcases List.mem_cons.mp hat with rfl | hat
              · exact Or.inl (by simp)
              · refine Or.inr (Or.inr ⟨fun hnil => ?_, hat⟩)
                rw [List.head?_eq_none_iff.mp hnil] at hat
                simp at hat

/-- What the comment at `zend_hash_apply_deleter` promises the walks: the variable `p` is NULL
or a bucket of the table, and when a walk has come to NULL, every element of the table that no
destructor has deleted was visited. -/
structure VisitsPresent (ht : HashTable α) (w : Walk α) : Prop where
  linked : ∀ p, w.p = some p → p ∈ w.table.buckets ∧ p ∈ w.table.live
  visits : w.p = none → ∀ a ∈ ht.buckets, a ∈ w.visited ∨ a ∈ w.unlinked

/-- **The walks visit linked buckets only, and every element that was present throughout**, if
no destructor deletes the element that follows the one it is called for. -/
theorem visitsPresent_of_walkRun (h : Inv ht ht.buckets) {w : Walk α}
    (hw : WalkRun (fun w turn => turn.SparesNext w) ht w) : VisitsPresent ht w := by
  have hprogress : ∃ s t, InProgress ht w s t := by
    induction hw with
    | start =>
      refine ⟨[], ht.buckets, h, fun p hp => ?_, fun a ha => Or.inr (Or.inr ⟨?_, ha⟩)⟩
      · exact h.list.head.symm.trans hp
      · show ht.pListHead ≠ none
        rw [h.list.head]
        intro hnil
        rw [List.head?_eq_none_iff.mp hnil] at ha
        simp at ha
    | turn _ turn ha hp ih =>
      obtain ⟨s, t, hi⟩ := ih
      exact hi.turn turn ha hp
  obtain ⟨s, t, hi⟩ := hprogress
  refine ⟨fun p hp => ?_, fun hnone a ha => ?_⟩
  · have hmem : p ∈ s ++ t := by simp [List.mem_of_head? (hi.next p hp)]
    rw [hi.inv.buckets_eq, hi.inv.live, List.mem_toFinset]
    exact ⟨hmem, hmem⟩
  · rcases hi.visits a ha with hv | hu | ⟨hne, -⟩
    · exact Or.inl hv
    · exact Or.inr hu
    · exact absurd hnone hne

theorem Turn.Deletes.edits_eq {w : Walk α} {edits edits' : List (Edit α)}
    (h : (Turn.destroy edits).Deletes w ht p edits') : edits' = edits := by
  obtain ⟨-, -, -, hturn | ⟨result, -, hturn⟩⟩ := h
  · exact (Turn.destroy.inj hturn).symm
  · exact absurd hturn (by simp)

theorem Turn.Deletes.eq_zero {turn : Turn ℕ} {ht : HashTable ℕ} {edits : List (Edit ℕ)}
    (h : turn.Deletes (Walk.start twoIndexTable) ht p edits) : p = 0 := by
  have hhead : (Walk.start twoIndexTable).p = some 0 := by decide
  exact Option.some.inj (h.2.1.symm.trans hhead)

/-- The walk of `zend_hash_graceful_destroy` over `{0 => 1, 1 => 2}`, with a destructor of the
first element that deletes the other one. -/
def twoIndexWalk : Walk ℕ :=
  (Walk.start twoIndexTable).turn (.destroy [.del ⟨.null, []⟩ 1 .HASH_DEL_INDEX, .delReturn])

/-- The same walk with a destructor that inserts an element. -/
theorem visitsPresent_twoIndexTable : VisitsPresent twoIndexTable ((Walk.start twoIndexTable).turn
    (.destroy [.indexUpdateOrNextInsert bump 5 3 .HASH_ADD])) := by
  refine visitsPresent_of_walkRun inv_twoIndexTable (WalkRun.turn WalkRun.start _ ?_ ?_)
  · intro ht p edits hd
    obtain rfl := hd.edits_eq
    obtain rfl := hd.eq_zero
    obtain rfl := hd.2.2.1
    refine ⟨⟨?_, trivial⟩, rfl⟩
    show twoIndexTable.nNumOfElements - 1 + 1 < 2 ^ 32
    decide +kernel
  · intro ht p edits hd q _
    obtain rfl := hd.edits_eq
    exact List.not_mem_nil

theorem not_visitsPresent_of_walkRun : ¬ ∀ (ht : HashTable ℕ) (w : Walk ℕ),
    Inv ht ht.buckets → WalkRun (fun _ _ => True) ht w → VisitsPresent ht w := by
  intro hall
  have hrun : WalkRun (fun _ _ => True) twoIndexTable twoIndexWalk := by
    refine WalkRun.turn WalkRun.start _ (fun ht p edits hd => ?_) trivial
    obtain rfl := hd.edits_eq
    obtain rfl := hd.eq_zero
    obtain rfl := hd.2.2.1
    refine ⟨⟨?_, trivial, trivial⟩, by decide +kernel⟩
    exact fun hlen => absurd rfl hlen
  have hp : twoIndexWalk.p = some 1 := by decide +kernel
  have hlinked := ((hall _ _ inv_twoIndexTable hrun).linked 1 hp).1
  exact absurd hlinked (by decide +kernel)

end PhpRuntime.Hash
