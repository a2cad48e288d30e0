import PhpRuntime.Strings.Interned

/-!
# The table of the interned strings

The buckets of the table are the blocks of a bump pool, in the order of the list; each chain holds
the buckets of its slot from the newest to the oldest.
-/

set_option autoImplicit false

namespace PhpRuntime.Strings

open PhpRuntime.Hash PhpRuntime.Lib

variable {ht ht' : HashTable Addr} {l : List Addr} {p a : Addr}

/-- The bucket at `a` is that of the string behind it. -/
structure Entry (ht : HashTable Addr) (a : Addr) : Prop where
  arKey : (ht.mem a).arKey = .inline a
  hash : (ht.mem a).h = zendInlineHashFunc (ht.keyBytes a)
  length : (ht.mem a).nKeyLength = (ht.keyBytes a).length

/-- The buckets `l` of the table: their chains run from the newest to the oldest. -/
structure Listed (ht : HashTable Addr) (l : List Addr) : Prop where
  core : InvCore ht l
  chains : Chains ht l (ht.slotOf l)
  mask : ht.nTableMask = ht.nTableSize - 1
  pointer : ht.pInternalPointer = none
  entry : ∀ a ∈ l, Entry ht a

/-- The table holds the strings of a pool, each at its block. -/
structure Stored (cg : InternedStrings) (strings : List (List UInt8)) : Prop where
  listed : Listed cg.table (offsets entrySize cg.start strings)
  texts : (offsets entrySize cg.start strings).map cg.table.keyBytes = strings
  top : cg.top = cg.start + extent entrySize strings
  stop : cg.stop = cg.start + arenaSize
  room : extent entrySize strings < arenaSize

theorem sizeofBucket_le_entrySize (bytes : List UInt8) : sizeofBucket ≤ entrySize bytes := by
  unfold entrySize alignedSize sizeofBucket
  omega

theorem entrySize_pos (bytes : List UInt8) : 0 < entrySize bytes :=
  Nat.lt_of_lt_of_le (by decide) (sizeofBucket_le_entrySize bytes)

/-! ## Entries -/

theorem Entry.keyBytes (h : Entry ht a) : ht.keyBytes a = (ht.mem a).inlineKey := by
  unfold HashTable.keyBytes
  rw [h.arKey]

theorem keyBytes_of_payload (h : Entry ht a) (hp : (ht'.mem a).payload = (ht.mem a).payload) :
    ht'.keyBytes a = ht.keyBytes a := by
  have hi : (ht'.mem a).inlineKey = (ht.mem a).inlineKey := congrArg (·.2.2.2.1) hp
  have hk : (ht'.mem a).arKey = .inline a := (arKey_of_payload hp).trans h.arKey
  rw [h.keyBytes, ← hi]
  unfold HashTable.keyBytes
  rw [hk]

theorem Entry.congr (h : Entry ht a) (hp : (ht'.mem a).payload = (ht.mem a).payload) :
    Entry ht' a where
  arKey := (arKey_of_payload hp).trans h.arKey
  hash := by
    rw [h_of_payload hp, keyBytes_of_payload h hp]
    exact h.hash
  length := by
    rw [nKeyLength_of_payload hp, keyBytes_of_payload h hp]
    exact h.length

theorem Entry.keyOk (h : Entry ht a) : KeyOk ht a :=
  ⟨fun _ => h.hash, fun _ => h.length, fun _ => Or.inr h.arKey⟩

theorem Entry.keyAddress (h : Entry ht a) : keyAddress (ht.mem a).arKey = a + sizeofBucket := by
  rw [h.arKey]
  rfl

theorem Entry.keyOf_eq_iff {ht' : HashTable Addr} {b : Addr} (ha : Entry ht a)
    (hb : Entry ht' b) : ht.keyOf a = ht'.keyOf b ↔ ht.keyBytes a = ht'.keyBytes b := by
  constructor
  · intro h
    unfold HashTable.keyOf at h
    rw [ha.length, hb.length] at h
    split at h
    · rename_i hlen
      split at h
      · rename_i hlen'
        rw [List.length_eq_zero_iff.mp hlen, List.length_eq_zero_iff.mp hlen']
      · simp at h
    · split at h
      · simp at h
      · exact Key.str.inj h
  · intro h
    unfold HashTable.keyOf
    rw [ha.length, hb.length, ha.hash, hb.hash, h]

theorem Listed.nodup (h : Listed ht l) : l.Nodup :=
  h.core.list.nodup

theorem Listed.findString_iff (h : Listed ht l) (bytes : List UInt8) (p : Addr) :
    findString ht bytes (zendInlineHashFunc bytes) = some p ↔ p ∈ l ∧ ht.keyBytes p = bytes := by
  have hi := h.core.nIndex_lt (zendInlineHashFunc bytes)
  have hmem := h.chains.mem _ hi
  have hlen : (ht.slotOf l (ht.nIndex (zendInlineHashFunc bytes))).length < ht.loopBound := by
    rw [h.core.loopBound_eq]
    apply Nat.lt_succ_of_le
    exact List.Subperm.length_le (List.subperm_of_subset (h.chains.nodup _ hi)
      fun a ha => ((hmem a).mp ha).1)
  have htest : ∀ a ∈ l, matchesString ht bytes (zendInlineHashFunc bytes) a = true ↔
      ht.keyBytes a = bytes := by
    intro a ha
    have he := h.entry a ha
    unfold matchesString
    rw [Bool.and_eq_true, Bool.and_eq_true, beq_iff_eq, beq_iff_eq, beq_iff_eq, he.hash, he.length]
    refine ⟨fun h => h.2, fun h => ⟨⟨?_, ?_⟩, h⟩⟩
    · rw [h]
    · rw [h]
  unfold findString
  rw [h.chains.head _ hi, chainFind_eq_find? _ _ (h.chains.seg _ hi) hlen]
  constructor
  · intro hf
    have hp := ((hmem p).mp (List.mem_of_find?_eq_some hf)).1
    exact ⟨hp, (htest p hp).mp (List.find?_some hf)⟩
  · rintro ⟨hp, hbytes⟩
    have hpc : p ∈ ht.slotOf l (ht.nIndex (zendInlineHashFunc bytes)) := by
      apply (hmem p).mpr
      refine ⟨hp, ?_⟩
      rw [(h.entry p hp).hash, hbytes]
    cases hf : (ht.slotOf l (ht.nIndex (zendInlineHashFunc bytes))).find?
        (matchesString ht bytes (zendInlineHashFunc bytes)) with
    | none =>
      rw [List.find?_eq_none] at hf
      exact absurd ((htest p hp).mpr hbytes) (hf p hpc)
    | some q =>
      have hq := ((hmem q).mp (List.mem_of_find?_eq_some hf)).1
      have hqb := (htest q hq).mp (List.find?_some hf)
      have hkey := ((h.entry q hq).keyOf_eq_iff (h.entry p hp)).mpr (hqb.trans hbytes.symm)
      rw [h.core.distinct q hq p hp hkey]

/-! ## A new string -/

/-- The bucket at `p` is filled in. -/
structure Filled (ht ht' : HashTable Addr) (p : Addr) (bytes : List UInt8) : Prop where
  frame : ht' = { ht with mem := ht'.mem, live := insert p ht.live }
  mem : ∀ x, x ≠ p → ht'.mem x = ht.mem x
  entry : Entry ht' p
  text : ht'.keyBytes p = bytes

theorem filled_newBucket (ht : HashTable Addr) (p : Addr) (bytes : List UInt8) :
    Filled ht (({ ht with live := insert p ht.live } : HashTable Addr).store p
      (newBucket bytes (zendInlineHashFunc bytes) p)) p bytes := by
  have hself : (({ ht with live := insert p ht.live } : HashTable Addr).store p
      (newBucket bytes (zendInlineHashFunc bytes) p)).mem p =
        newBucket bytes (zendInlineHashFunc bytes) p (ht.mem p) := if_pos rfl
  have htext : (({ ht with live := insert p ht.live } : HashTable Addr).store p
      (newBucket bytes (zendInlineHashFunc bytes) p)).keyBytes p = bytes := by
    unfold HashTable.keyBytes
    rw [hself]
    show ((({ ht with live := insert p ht.live } : HashTable Addr).store p
      (newBucket bytes (zendInlineHashFunc bytes) p)).mem p).inlineKey = bytes
    rw [hself]
    rfl
  refine ⟨rfl, fun x hx => if_neg hx, ⟨?_, ?_, ?_⟩, htext⟩
  · rw [hself]
    rfl
  · rw [htext, hself]
    rfl
  · rw [htext, hself]
    rfl

theorem Filled.nIndex_eq {bytes : List UInt8} (h : Filled ht ht' p bytes) :
    ht'.nIndex (ht'.mem p).h = ht.nIndex (zendInlineHashFunc bytes) := by
  have hmask : ht'.nTableMask = ht.nTableMask := by rw [h.frame]
  rw [h.entry.hash, h.text, HashTable.nIndex, HashTable.nIndex, hmask]

theorem linkString_nNumOfElements (ht : HashTable Addr) (p : Addr) (i : ℕ) :
    (linkString ht p i).nNumOfElements = ht.nNumOfElements :=
  HashTable.linkBucket_nNumOfElements ht p i

theorem Listed.link_chains {bytes : List UInt8} (h : Listed ht l) (hf : Filled ht ht' p bytes)
    (hp : p ∉ l) :
    Chains (ht'.linkBucket p (ht'.nIndex (ht'.mem p).h)) (l ++ [p])
      ((ht'.linkBucket p (ht'.nIndex (ht'.mem p).h)).slotOf (l ++ [p])) := by
  have hmem : ∀ x ∈ l, ht'.mem x = ht.mem x := fun x hx => hf.mem x fun e => hp (e ▸ hx)
  have hmask : ht'.nTableMask = ht.nTableMask := by rw [hf.frame]
  have hslots : ht'.slotOf l = ht.slotOf l :=
    slotOf_congr hmask fun a ha => by rw [hmem a ha]
  have hch : Chains ht' l (ht'.slotOf l) := by
    rw [hslots]
    exact h.chains.congr (by rw [hf.frame]) hmask (fun i _ => by rw [hf.frame])
      (fun a ha => by rw [hmem a ha]) (fun a ha => by rw [hmem a ha])
      (fun a ha => by rw [hmem a ha])
  have hlt : ht'.nIndex (ht'.mem p).h < ht'.nTableSize := by
    have := h.core.nIndex_lt (ht'.mem p).h
    rw [hf.frame]
    exact this
  have hturn := rehash_turn hch hp hlt
  generalize ht'.nIndex (ht'.mem p).h = i at *
  have hsame : (ht'.linkBucket p i).slotOf (l ++ [p]) = ht'.slotOf (l ++ [p]) :=
    slotOf_congr (HashTable.linkBucket_nTableMask ht' p i)
      fun a _ => h_of_payload (HashTable.payload_linkBucket ht' p a i)
  have hcomm : ht'.linkBucket p i =
      ((ht'.connectToBucketDllist p (ht'.arBuckets i)).setBucket i (some p)).connectToGlobalDllist
        p := rfl
  rw [hsame, hcomm]
  exact hturn.congr rfl rfl (fun _ _ => rfl)
    (fun a _ => h_of_payload (HashTable.payload_connectToGlobalDllist _ p a))
    (fun a _ => HashTable.connectToGlobalDllist_chNext _ p a)
    (fun a _ => HashTable.connectToGlobalDllist_chLast _ p a)

theorem payload_counted (ht : HashTable Addr) (p x : Addr) (i n : ℕ) :
    (({ linkString ht p i with nNumOfElements := n } : HashTable Addr).mem x).payload =
      (ht.mem x).payload := by
  have hmem : ({ linkString ht p i with nNumOfElements := n } : HashTable Addr).mem =
      (ht.linkBucket p i).mem := rfl
  rw [hmem]
  exact HashTable.payload_linkBucket ht p x i

theorem Listed.link {bytes : List UInt8} (h : Listed ht l) (hf : Filled ht ht' p bytes)
    (hp : p ∉ l) (hnew : ∀ a ∈ l, ht.keyBytes a ≠ bytes) (hroom : l.length + 1 < 2 ^ 32) :
    Listed { linkString ht' p (ht'.nIndex (ht'.mem p).h) with
      nNumOfElements := (ht.nNumOfElements + 1) % 2 ^ 32 } (l ++ [p]) := by
  have hcount : (ht.nNumOfElements + 1) % 2 ^ 32 = ht.nNumOfElements + 1 := by
    apply Nat.mod_eq_of_lt
    rw [h.core.count]
    exact hroom
  have hnone : ht'.pInternalPointer = none := by
    rw [hf.frame]
    exact h.pointer
  have hcore : InvCore _ (l ++ [p]) :=
    (Inv.insert ⟨h.core, _, h.chains⟩ h.mask hp hf.frame hf.mem hf.entry.keyOk fun a ha hk =>
      hnew a ha ((((h.entry a ha).keyOf_eq_iff hf.entry).mp hk).trans hf.text)).toInvCore
  have hch := h.link_chains hf hp
  have hmask : ht'.nTableMask = ht'.nTableSize - 1 := by
    rw [hf.frame]
    exact h.mask
  have hentry : ∀ a ∈ l ++ [p], Entry ht' a := by
    intro a ha
    obtain ha | ha := List.mem_append.mp ha
    · have hkept : ht'.mem a = ht.mem a := hf.mem a fun e => hp (e ▸ ha)
      exact (h.entry a ha).congr (by rw [hkept])
    · rw [List.mem_singleton.mp ha]
      exact hf.entry
  rw [hcount]
  unfold linkString
  have hpay := fun a => HashTable.payload_linkBucket ht' p a (ht'.nIndex (ht'.mem p).h)
  have hsize := HashTable.linkBucket_nTableSize ht' p (ht'.nIndex (ht'.mem p).h)
  have hlinkMask := HashTable.linkBucket_nTableMask ht' p (ht'.nIndex (ht'.mem p).h)
  generalize ht'.linkBucket p (ht'.nIndex (ht'.mem p).h) = ht2 at *
  rw [hnone]
  refine ⟨⟨?_, hcore.live, hcore.count, hcore.size, hcore.mask, ?_, ?_⟩, ?_, ?_, rfl, ?_⟩
  · refine hcore.list.congr rfl rfl ?_ (fun _ _ => rfl) (fun _ _ => rfl)
    intro a ha
    simp at ha
  · exact fun a ha => ((hentry a ha).congr (hpay a)).keyOk.congr rfl
  · exact hcore.distinct
  · exact hch.congr rfl rfl (fun _ _ => rfl) (fun _ _ => rfl) (fun _ _ => rfl) (fun _ _ => rfl)
  · show ht2.nTableMask = ht2.nTableSize - 1
    rw [hlinkMask, hsize]
    exact hmask
  · exact fun a ha => (hentry a ha).congr (hpay a)

theorem Listed.growTable (h : Listed ht l) (recoverable : Bool) :
    Listed (growTable recoverable ht) l ∧
      ∀ x, ((growTable recoverable ht).mem x).payload = (ht.mem x).payload := by
  unfold Strings.growTable
  split
  · rename_i hfull
    have hl : l ≠ [] := by
      rintro rfl
      rw [h.core.count] at hfull
      simp at hfull
    split
    · unfold HashTable.zendHashDoResize
      dsimp only
      split
      · rename_i hpos
        have hcore : InvCore { ht with
            nTableSize := ht.nTableSize * 2 % 2 ^ 32
            nTableMask := ht.nTableSize * 2 % 2 ^ 32 - 1 } l :=
          ⟨h.core.list.congr rfl rfl h.core.list.pointer (fun _ _ => rfl) (fun _ _ => rfl),
            h.core.live, h.core.count, double_size h.core.size hpos, Or.inr rfl,
            fun a ha => (h.core.keys a ha).congr rfl, h.core.distinct⟩
        obtain ⟨hstep, hchains, -⟩ := hcore.zendHashRehash_chains hl
        rw [← hstep.slotOf] at hchains
        refine ⟨⟨hstep.core hcore, hchains, ?_, ?_, ?_⟩, hstep.payload⟩
        · rw [hstep.frame]
        · rw [hstep.frame]
          exact h.pointer
        · exact fun a ha => (h.entry a ha).congr (hstep.payload a)
      · exact ⟨h, fun _ => rfl⟩
    · exact ⟨h, fun _ => rfl⟩
  · exact ⟨h, fun _ => rfl⟩

/-! ## Interning -/

variable {cg : InternedStrings} {strings : List (List UInt8)}

theorem Stored.split (h : Stored cg strings) (ha : a ∈ offsets entrySize cg.start strings) :
    ∃ s t, strings = s ++ cg.table.keyBytes a :: t ∧ a = cg.start + extent entrySize s := by
  obtain ⟨s, b, t, hst, hx⟩ := exists_of_mem_offsets ha
  have htexts := h.texts
  rw [hst, offsets_append, offsets, List.map_append, List.map_cons] at htexts
  have hlen : ((offsets entrySize cg.start s).map cg.table.keyBytes).length = s.length := by
    rw [List.length_map, length_offsets]
  obtain ⟨-, htail⟩ := List.append_inj htexts hlen
  rw [← hx] at htail
  obtain ⟨hb, -⟩ := List.cons.inj htail
  exact ⟨s, t, by rw [hb, hst], hx⟩

theorem Stored.findString_none (h : Stored cg strings) {bytes : List UInt8}
    (hf : findString cg.table bytes (zendInlineHashFunc bytes) = none) :
    (∀ a ∈ offsets entrySize cg.start strings, cg.table.keyBytes a ≠ bytes) ∧
      bytes ∉ strings := by
  have hnone : ∀ a ∈ offsets entrySize cg.start strings, cg.table.keyBytes a ≠ bytes := by
    intro a ha hbytes
    have hsome := (h.listed.findString_iff bytes a).mpr ⟨ha, hbytes⟩
    rw [hf] at hsome
    simp at hsome
  refine ⟨hnone, ?_⟩
  intro hmem
  rw [← h.texts] at hmem
  obtain ⟨a, ha, hbytes⟩ := List.mem_map.mp hmem
  exact hnone a ha hbytes

theorem Stored.top_notMem (h : Stored cg strings) :
    cg.top ∉ offsets entrySize cg.start strings := by
  intro hm
  have hend := add_le_of_mem_offsets (fun b _ => sizeofBucket_le_entrySize b) hm
  rw [← h.top] at hend
  unfold sizeofBucket at hend
  omega

theorem Stored.length_lt (h : Stored cg strings) :
    (offsets entrySize cg.start strings).length + 1 < 2 ^ 32 := by
  have hcount := length_mul_le_extent (l := strings) fun b _ => sizeofBucket_le_entrySize b
  have hsmall := h.room
  rw [length_offsets]
  unfold sizeofBucket at hcount
  unfold arenaSize at hsmall
  omega

theorem Stored.add (h : Stored cg strings) {bytes : List UInt8} (recoverable : Bool)
    (hfill : Filled cg.table ht' cg.top bytes)
    (hf : findString cg.table bytes (zendInlineHashFunc bytes) = none)
    (hroom : cg.top + entrySize bytes < cg.stop) {grown : HashTable Addr}
    (hg : grown = growTable recoverable
      { linkString ht' cg.top (ht'.nIndex (ht'.mem cg.top).h) with
        nNumOfElements := (cg.table.nNumOfElements + 1) % 2 ^ 32 }) :
    Stored { cg with top := cg.top + entrySize bytes, table := grown } (strings ++ [bytes]) ∧
      grown.keyBytes cg.top = bytes := by
  obtain ⟨hnew, -⟩ := h.findString_none hf
  have hnotMem := h.top_notMem
  have hlink := h.listed.link hfill hnotMem hnew h.length_lt
  obtain ⟨hlisted, hpay⟩ := hlink.growTable recoverable
  rw [← hg] at hlisted hpay
  have hwords : ∀ x, (grown.mem x).payload = (ht'.mem x).payload :=
    fun x => (hpay x).trans (payload_counted ht' cg.top x _ _)
  have hblocks : offsets entrySize cg.start (strings ++ [bytes]) =
      offsets entrySize cg.start strings ++ [cg.top] := by
    rw [offsets_append_singleton, h.top]
  have hold : ∀ a ∈ offsets entrySize cg.start strings, grown.keyBytes a = cg.table.keyBytes a := by
    intro a ha
    have hkept : ht'.mem a = cg.table.mem a := hfill.mem a fun e => hnotMem (e ▸ ha)
    apply keyBytes_of_payload (h.listed.entry a ha)
    rw [hwords a, hkept]
  have htop : grown.keyBytes cg.top = bytes :=
    (keyBytes_of_payload hfill.entry (hwords cg.top)).trans hfill.text
  refine ⟨?_, htop⟩
  constructor
  · rw [hblocks]
    exact hlisted
  · show (offsets entrySize cg.start (strings ++ [bytes])).map grown.keyBytes = _
    rw [hblocks, List.map_append, List.map_congr_left hold, h.texts, List.map_singleton, htop]
  · show cg.top + entrySize bytes = cg.start + extent entrySize (strings ++ [bytes])
    rw [extent_append, extent_cons, extent_nil, h.top]
    omega
  · exact h.stop
  · rw [extent_append, extent_cons, extent_nil]
    have htop := h.top
    have hstop := h.stop
    omega

end PhpRuntime.Strings
