import PhpRuntime.Lib.OrderedMap
import PhpRuntime.Hash.Invariant

/-!
# Lookups and single-bucket changes

A chain walk finds the bucket with the wanted key and no other: chain `i` holds every
bucket of slot `i`, the test of the walk is the equality of keys, and keys are
distinct. For the string tests with the shortcut `p->arKey == arKey` this needs the key
argument to be a pointer to its own bytes (`ValidKey`), which the caller answers for,
and to be other than the key pointers that integer buckets still have (`NotStale`), which
nobody answers for.
-/

set_option autoImplicit false

namespace PhpRuntime.Hash

open PhpRuntime.Lib PhpRuntime.Lib.OrderedMap

variable {α : Type} {ht ht' : HashTable α} {l s t : List Addr} {p q a x : Addr}
  {key : KeyArg} {n : UInt64} {v : α}

/-- A key argument as callers pass it: not NULL, and when it points to interned memory or
to the key of a bucket of this table, then the bytes are those stored there. -/
structure ValidKey (ht : HashTable α) (l : List Addr) (key : KeyArg) : Prop where
  null : key.arKey ≠ .null
  interned : ∀ s, key.arKey = .interned s → key.bytes = s
  inline : ∀ b ∈ l, key.arKey = .inline b → key.bytes = (ht.mem b).inlineKey

/-- No integer bucket has the key pointer of the argument. -/
def NotStale (ht : HashTable α) (l : List Addr) (arKey : KeyPtr) : Prop :=
  ∀ a ∈ l, (ht.mem a).nKeyLength = 0 → (ht.mem a).arKey ≠ arKey

/-- The integer bucket at `a` has the key pointer of the argument and is in the slot in which
that string is looked up. -/
def StaleSlot (ht : HashTable α) (key : KeyArg) (a : Addr) : Prop :=
  (ht.mem a).nKeyLength = 0 ∧ (ht.mem a).arKey = key.arKey ∧
    ht.nIndex (ht.mem a).h = ht.nIndex (zendInlineHashFunc key.bytes)

theorem NotStale.not_staleSlot (h : NotStale ht l key.arKey) (ha : a ∈ l) :
    ¬ StaleSlot ht key a := fun hs => h a ha hs.1 hs.2.1

/-! ## Chain walks -/

theorem chainFind_eq_find? (test : Addr → Bool) {pre : Option Addr} (c : List Addr)
    (hc : Seg ht.chNext ht.chLast pre c none) {fuel : ℕ} (hf : c.length < fuel) :
    ht.chainFind test fuel c.head? = c.find? test := by
  induction c generalizing pre fuel with
  | nil =>
    obtain ⟨fuel, rfl⟩ : ∃ n, fuel = n + 1 := ⟨fuel - 1, by simp at hf; omega⟩
    rfl
  | cons b c ih =>
    obtain ⟨fuel, rfl⟩ : ∃ n, fuel = n + 1 := ⟨fuel - 1, by simp at hf; omega⟩
    obtain ⟨-, hn, hc⟩ := hc
    have hn' : (ht.mem b).pNext = c.head? := by simpa [HashTable.chNext] using hn
    by_cases hb : test b
    · simp [HashTable.chainFind, hb]
    · simp only [List.head?_cons, HashTable.chainFind, hb, hn', List.find?_cons]
      exact ih hc (by simp at hf; omega)

theorem InvCore.loopBound_eq (h : InvCore ht l) : ht.loopBound = l.length + 1 := by
  unfold HashTable.loopBound
  rw [h.live, List.toFinset_card_of_nodup h.list.nodup]

/-- **Chain walks decide key equality**: a walk whose test is the equality with a key,
started in the slot of that key, returns the bucket with the key. -/
theorem Inv.chainFind_iff (h : Inv ht l) {test : Addr → Bool} {k : Key}
    (htest : ∀ a ∈ l, ht.nIndex (ht.mem a).h = ht.nIndex n → (test a = true ↔ ht.keyOf a = k))
    (hn : ∀ a ∈ l, ht.keyOf a = k → (ht.mem a).h = n) (p : Addr) :
    ht.chainFind test ht.loopBound (ht.arBuckets (ht.nIndex n)) = some p ↔
      p ∈ l ∧ ht.keyOf p = k := by
  obtain ⟨ch, hch⟩ := h.chains
  have hlt := h.nIndex_lt n
  have hsub : ch (ht.nIndex n) ⊆ l := fun a ha => ((hch.mem _ hlt a).mp ha).1
  have hlen : (ch (ht.nIndex n)).length < ht.loopBound := by
    rw [h.loopBound_eq]
    exact Nat.lt_succ_of_le
      (List.Subperm.length_le (List.subperm_of_subset (hch.nodup _ hlt) hsub))
  rw [hch.head _ hlt, chainFind_eq_find? test _ (hch.seg _ hlt) hlen]
  constructor
  · intro hf
    have hp := hsub (List.mem_of_find?_eq_some hf)
    have hslot := ((hch.mem _ hlt p).mp (List.mem_of_find?_eq_some hf)).2
    exact ⟨hp, (htest p hp hslot).mp (List.find?_some hf)⟩
  · rintro ⟨hp, hk⟩
    have hpc : p ∈ ch (ht.nIndex n) := (hch.mem _ hlt p).mpr ⟨hp, by rw [hn p hp hk]⟩
    cases hf : (ch (ht.nIndex n)).find? test with
    | none =>
      rw [List.find?_eq_none] at hf
      exact absurd ((htest p hp (by rw [hn p hp hk])).mpr hk) (hf p hpc)
    | some q =>
      have hq := hsub (List.mem_of_find?_eq_some hf)
      have hslot := ((hch.mem _ hlt q).mp (List.mem_of_find?_eq_some hf)).2
      have hqk := (htest q hq hslot).mp (List.find?_some hf)
      rw [h.distinct q hq p hp (hqk.trans hk.symm)]

theorem Inv.chainFind_eq_find? (h : Inv ht l) (test : Addr → Bool) :
    ∃ c : List Addr, (∀ a, a ∈ c ↔ a ∈ l ∧ ht.nIndex (ht.mem a).h = ht.nIndex n) ∧
      ht.chainFind test ht.loopBound (ht.arBuckets (ht.nIndex n)) = c.find? test := by
  obtain ⟨ch, hch⟩ := h.chains
  have hlt := h.nIndex_lt n
  have hlen : (ch (ht.nIndex n)).length < ht.loopBound := by
    rw [h.loopBound_eq]
    exact Nat.lt_succ_of_le (List.Subperm.length_le (List.subperm_of_subset (hch.nodup _ hlt)
      fun a ha => ((hch.mem _ hlt a).mp ha).1))
  refine ⟨ch (ht.nIndex n), hch.mem _ hlt, ?_⟩
  rw [hch.head _ hlt, Hash.chainFind_eq_find? test _ (hch.seg _ hlt) hlen]

theorem Inv.chainFind_eq_none_iff (h : Inv ht l) (test : Addr → Bool) :
    ht.chainFind test ht.loopBound (ht.arBuckets (ht.nIndex n)) = none ↔
      ∀ a ∈ l, ht.nIndex (ht.mem a).h = ht.nIndex n → test a = false := by
  obtain ⟨c, hc, hfind⟩ := h.chainFind_eq_find? (n := n) test
  rw [hfind, List.find?_eq_none]
  constructor
  · intro hall a ha hslot
    simpa using hall a ((hc a).mpr ⟨ha, hslot⟩)
  · intro hall a ha
    obtain ⟨hal, hslot⟩ := (hc a).mp ha
    simpa using hall a hal hslot

theorem Inv.mem_of_chainFind (h : Inv ht l) {test : Addr → Bool}
    (hp : ht.chainFind test ht.loopBound (ht.arBuckets (ht.nIndex n)) = some p) :
    p ∈ l ∧ ht.nIndex (ht.mem p).h = ht.nIndex n ∧ test p = true := by
  obtain ⟨c, hc, hfind⟩ := h.chainFind_eq_find? (n := n) test
  rw [hfind] at hp
  obtain ⟨hl, hslot⟩ := (hc p).mp (List.mem_of_find?_eq_some hp)
  exact ⟨hl, hslot, List.find?_some hp⟩

theorem keyOf_eq_int_iff : ht.keyOf a = .int n ↔ (ht.mem a).nKeyLength = 0 ∧ (ht.mem a).h = n := by
  unfold HashTable.keyOf
  split <;> simp [*]

theorem keyOf_eq_str_iff {b : List UInt8} :
    ht.keyOf a = .str b ↔ (ht.mem a).nKeyLength ≠ 0 ∧ ht.keyBytes a = b := by
  unfold HashTable.keyOf
  split <;> simp [*]

theorem matchesIndex_iff : ht.matchesIndex n a = true ↔ ht.keyOf a = .int n := by
  simp [HashTable.matchesIndex, keyOf_eq_int_iff]

theorem matchesKey_iff (hk : KeyOk ht a) (ha : a ∈ l) (hv : ValidKey ht l key)
    (hs : (ht.mem a).nKeyLength = 0 → (ht.mem a).arKey ≠ key.arKey) (hlen : key.nKeyLength ≠ 0) :
    ht.matchesKey key (zendInlineHashFunc key.bytes) a = true ↔ ht.keyOf a = .str key.bytes := by
  simp only [HashTable.matchesKey, Bool.or_eq_true, Bool.and_eq_true, beq_iff_eq,
    keyOf_eq_str_iff]
  constructor
  · rintro (hp | ⟨⟨-, hl⟩, hb⟩)
    · have h0 : (ht.mem a).nKeyLength ≠ 0 := fun h0 => hs h0 hp
      refine ⟨h0, ?_⟩
      rcases hk.owned h0 with ho | ho
      · exact (hv.interned _ (hp ▸ ho)).symm
      · rw [hv.inline a ha (hp ▸ ho), HashTable.keyBytes, ho]
    · exact ⟨fun h0 => hlen (hl ▸ h0), hb⟩
  · rintro ⟨h0, hb⟩
    right
    refine ⟨⟨?_, ?_⟩, hb⟩
    · rw [hk.hash h0, hb]
    · rw [hk.length h0, hb, KeyArg.nKeyLength]

theorem Inv.findIndex_iff (h : Inv ht l) (p : Addr) :
    ht.findIndex n = some p ↔ p ∈ l ∧ ht.keyOf p = .int n :=
  h.chainFind_iff (fun _ _ _ => matchesIndex_iff) (fun _ _ hk => (keyOf_eq_int_iff.mp hk).2) p

theorem KeyOk.h_eq_of_str (hk : KeyOk ht a) {b : List UInt8} (h : ht.keyOf a = .str b) :
    (ht.mem a).h = zendInlineHashFunc b := by
  obtain ⟨h0, hb⟩ := keyOf_eq_str_iff.mp h
  rw [hk.hash h0, hb]

theorem Inv.findKey_iff (h : Inv ht l) (hv : ValidKey ht l key)
    (hs : ∀ a ∈ l, ¬ StaleSlot ht key a) (hlen : key.nKeyLength ≠ 0) (p : Addr) :
    ht.findKey key (zendInlineHashFunc key.bytes) = some p ↔
      p ∈ l ∧ ht.keyOf p = .str key.bytes :=
  h.chainFind_iff (fun a ha hslot => matchesKey_iff (h.keys a ha) ha hv
      (fun h0 hkey => hs a ha ⟨h0, hkey, hslot⟩) hlen)
    (fun a ha hk => (h.keys a ha).h_eq_of_str hk) p

/-- The key that a pair of arguments `arKey`, `h` names. -/
def KeyArg.toKey (key : KeyArg) (h : UInt64) : Key :=
  if key.nKeyLength = 0 then .int h else .str key.bytes

theorem KeyOk.h_eq_of_toKey (hk : KeyOk ht a)
    (hn : key.nKeyLength ≠ 0 → n = zendInlineHashFunc key.bytes) (h : ht.keyOf a = key.toKey n) :
    (ht.mem a).h = n := by
  unfold KeyArg.toKey at h
  split at h
  · exact (keyOf_eq_int_iff.mp h).2
  · rename_i h0
    rw [hk.h_eq_of_str h, hn h0]

/-- The walk of `zend_hash_del_key_or_index`. -/
theorem Inv.findDel_iff (h : Inv ht l)
    (hn : key.nKeyLength ≠ 0 → n = zendInlineHashFunc key.bytes) (p : Addr) :
    ht.chainFind (ht.matchesDel key n) ht.loopBound (ht.arBuckets (ht.nIndex n)) = some p ↔
      p ∈ l ∧ ht.keyOf p = key.toKey n := by
  refine h.chainFind_iff (fun a ha _ => ?_) (fun a ha hk => ?_) p
  · simp only [HashTable.matchesDel, Bool.or_eq_true, Bool.and_eq_true, beq_iff_eq,
      KeyArg.toKey]
    split
    · rename_i h0
      rw [keyOf_eq_int_iff, h0]
      constructor
      · rintro ⟨⟨h1, h2⟩, -⟩; exact ⟨h2, h1⟩
      · rintro ⟨h1, h2⟩; exact ⟨⟨h2, h1⟩, Or.inl h1⟩
    · rename_i h0
      rw [keyOf_eq_str_iff]
      constructor
      · rintro ⟨⟨h1, h2⟩, h3⟩
        have h0' : (ht.mem a).nKeyLength ≠ 0 := h2 ▸ h0
        exact ⟨h0', h3.resolve_left h0'⟩
      · rintro ⟨h1, h2⟩
        refine ⟨⟨?_, ?_⟩, Or.inr h2⟩
        · rw [(h.keys a ha).hash h1, h2, hn h0]
        · rw [(h.keys a ha).length h1, h2, KeyArg.nKeyLength]
  · exact (h.keys a ha).h_eq_of_toKey hn hk

/-! ## The entries of a table -/

theorem keys_entries (ht : HashTable α) (l : List Addr) :
    keys (ht.entries l) = l.map ht.keyOf := by
  simp [keys, HashTable.entries, Function.comp_def]

theorem mem_keys_entries {k : Key} :
    k ∈ keys (ht.entries l) ↔ ∃ a, a ∈ l ∧ ht.keyOf a = k := by
  simp [keys_entries]

theorem Inv.keys_nodup (h : Inv ht l) : (keys (ht.entries l)).Nodup := by
  rw [keys_entries]
  exact List.Nodup.map_on (fun a ha b hb => h.distinct a ha b hb) h.list.nodup

theorem Inv.map_find_eq_lookup (h : Inv ht l) {o : Option Addr} {k : Key}
    (ho : ∀ p, o = some p ↔ p ∈ l ∧ ht.keyOf p = k) :
    (o.map fun p => (ht.mem p).pData) = lookup (ht.entries l) k := by
  cases o with
  | none =>
    rw [Option.map_none, eq_comm, lookup_eq_none_iff, mem_keys_entries]
    rintro ⟨a, ha⟩
    exact absurd ((ho a).mpr ha) (by simp)
  | some p =>
    obtain ⟨hp, hk⟩ := (ho p).mp rfl
    rw [Option.map_some, eq_comm, lookup_eq_some_iff h.keys_nodup, HashTable.entries,
      List.mem_map]
    exact ⟨p, hp, by rw [hk]⟩

theorem find_isSome_iff {o : Option Addr} {k : Key}
    (ho : ∀ p, o = some p ↔ p ∈ l ∧ ht.keyOf p = k) :
    o.isSome = true ↔ k ∈ keys (ht.entries l) := by
  rw [Option.isSome_iff_exists, mem_keys_entries]
  exact exists_congr ho

/-! ## Allocating the chain array, changing one value -/

/-- `CHECK_INIT` leaves a table with a chain array, and the same buckets. -/
theorem Inv.checkInit (h : Inv ht l) :
    Inv ht.checkInit l ∧ ht.checkInit.nTableMask = ht.checkInit.nTableSize - 1 ∧
      ht.checkInit.mem = ht.mem := by
  unfold HashTable.checkInit
  split
  · rename_i h0
    obtain ⟨k, hk3, hk31, hk⟩ := h.size
    have hpow : 2 ^ 3 ≤ 2 ^ k := Nat.pow_le_pow_right (by omega) hk3
    have hl : l = [] := by
      rcases h.mask with ⟨-, hl⟩ | hm
      · exact hl
      · omega
    subst hl
    refine ⟨⟨⟨?_, h.live, h.count, h.size, Or.inr rfl, by simp, by simp⟩, fun _ => [], ?_⟩,
      rfl, rfl⟩
    · exact h.list.congr rfl rfl h.list.pointer (by simp) (by simp)
    · exact ⟨by simp, by simp, by simp, by simp⟩
  · rename_i h0
    exact ⟨h, h.mask.resolve_left fun hm => h0 hm.1, rfl⟩

theorem Inv.checkInit_eq (h : Inv ht l) (hl : l ≠ []) : ht.checkInit = ht := by
  have hm : ht.nTableMask ≠ 0 := by
    rcases h.mask with ⟨-, hnil⟩ | hm
    · exact absurd hnil hl
    · obtain ⟨k, hk3, -, hk⟩ := h.size
      have hpow : 2 ^ 3 ≤ 2 ^ k := Nat.pow_le_pow_right (by omega) hk3
      omega
  rw [HashTable.checkInit, if_neg hm]

theorem keyBytes_of_pData (hm : ∀ x, ∃ v, ht'.mem x = { ht.mem x with pData := v }) (a : Addr) :
    ht'.keyBytes a = ht.keyBytes a := by
  have hkey : (ht'.mem a).arKey = (ht.mem a).arKey := by
    obtain ⟨v, hv⟩ := hm a
    rw [hv]
  unfold HashTable.keyBytes
  rw [hkey]
  split <;> try rfl
  obtain ⟨v, hv⟩ := hm ‹_›
  rw [hv]

theorem keyOf_of_pData (hm : ∀ x, ∃ v, ht'.mem x = { ht.mem x with pData := v }) (a : Addr) :
    ht'.keyOf a = ht.keyOf a := by
  unfold HashTable.keyOf
  rw [keyBytes_of_pData hm]
  obtain ⟨v, hv⟩ := hm a
  rw [hv]

theorem Inv.of_pData (h : Inv ht l) (ht' : HashTable α)
    (hf : ht' = { ht with mem := ht'.mem, destroyed := ht'.destroyed })
    (hm : ∀ x, ∃ v, ht'.mem x = { ht.mem x with pData := v }) :
    Inv ht' l ∧ ∀ a ∈ l, ht'.keyOf a = ht.keyOf a := by
  have h1 : ∀ x, (ht'.mem x).h = (ht.mem x).h := fun x => by obtain ⟨v, hv⟩ := hm x; rw [hv]
  have h2 : ∀ x, (ht'.mem x).nKeyLength = (ht.mem x).nKeyLength := fun x => by
    obtain ⟨v, hv⟩ := hm x; rw [hv]
  have h3 : ∀ x, (ht'.mem x).arKey = (ht.mem x).arKey := fun x => by
    obtain ⟨v, hv⟩ := hm x; rw [hv]
  have hb : ∀ x, ht'.keyBytes x = ht.keyBytes x := keyBytes_of_pData hm
  have hk : ∀ x, ht'.keyOf x = ht.keyOf x := keyOf_of_pData hm
  obtain ⟨ch, hch⟩ := h.chains
  refine ⟨⟨⟨h.list.congr ?_ ?_ ?_ ?_ ?_, ?_, ?_, ?_, ?_, ?_, ?_⟩, ch, hch.congr ?_ ?_ ?_ ?_ ?_ ?_⟩,
    fun a _ => hk a⟩
  · rw [hf]
  · rw [hf]
  · rw [hf]; exact h.list.pointer
  · exact fun a _ => by obtain ⟨v, hv⟩ := hm a; rw [hv]
  · exact fun a _ => by obtain ⟨v, hv⟩ := hm a; rw [hv]
  · rw [hf]; exact h.live
  · rw [hf]; exact h.count
  · rw [hf]; exact h.size
  · rw [hf]; exact h.mask
  · intro a ha
    have ho := h.keys a ha
    exact ⟨by rw [h1, h2, hb]; exact ho.hash, by rw [h2, hb]; exact ho.length,
      by rw [h2, h3, hb]; exact ho.owned⟩
  · intro a ha b hb'
    rw [hk, hk]
    exact h.distinct a ha b hb'
  · rw [hf]
  · rw [hf]
  · exact fun i _ => by rw [hf]
  · exact fun a _ => h1 a
  · exact fun a _ => by obtain ⟨v, hv⟩ := hm a; rw [hv]
  · exact fun a _ => by obtain ⟨v, hv⟩ := hm a; rw [hv]

theorem Inv.store_pData (h : Inv ht l) (hp : p ∈ l) (f : α → α) :
    Inv (ht.store p fun b => { b with pData := f b.pData }) l ∧
      (ht.store p fun b => { b with pData := f b.pData }).entries l =
        replace (ht.entries l) (ht.keyOf p) (f (ht.mem p).pData) := by
  have hmem : ∀ x, ∃ v, (ht.store p fun b => { b with pData := f b.pData }).mem x =
      { ht.mem x with pData := v } := by
    intro x
    by_cases hx : x = p
    · exact ⟨f (ht.mem p).pData, by simp [hx]⟩
    · exact ⟨(ht.mem x).pData, by simp [hx]⟩
  obtain ⟨hi, hk⟩ := h.of_pData (ht.store p fun b => { b with pData := f b.pData }) rfl hmem
  refine ⟨hi, ?_⟩
  rw [HashTable.entries, HashTable.entries, replace, List.map_map]
  refine List.map_congr_left fun a ha => ?_
  rw [hk a ha, Function.comp_apply]
  by_cases hap : a = p
  · subst hap; simp
  · have : ht.keyOf a ≠ ht.keyOf p := fun hc => hap (h.distinct a ha p hp hc)
    simp [hap, this]

theorem Inv.updateData (h : Inv ht l) (hp : p ∈ l) (v : α) :
    Inv (ht.updateData p v) l ∧
      (ht.updateData p v).entries l = replace (ht.entries l) (ht.keyOf p) v := by
  have hd := h.of_pData (ht.callDestructor p) rfl fun x => ⟨(ht.mem x).pData, rfl⟩
  exact hd.1.store_pData hp fun _ => v

end PhpRuntime.Hash
