import PhpRuntime.Hash.NextFree

/-!
# Changing the key of the current element

What `zend_hash_update_current_key_ex` promises: the current element gets the new key where
it stands, another element with that key goes, or, depending on the mode and on which of
the two comes first, the current element goes. The one promise that it does not keep for
string keys that come by good pointers is about `*pos`: when the current element is the
one that goes, a position of the caller is left on the freed bucket.
-/

set_option autoImplicit false

namespace PhpRuntime.Hash

open PhpRuntime.Lib PhpRuntime.Lib.OrderedMap

variable {α : Type} {ht ht' : HashTable α} {l s t : List Addr} {p q a : Addr} {key : KeyArg}
  {malloc : Malloc} {k : KeyIndex} {mode : UpdateMode} {pos : Option (Option Addr)}

/-! ## Which of two elements comes first -/

theorem isBefore_iff {pre : Option Addr} (fuel : ℕ)
    (hseg : Seg ht.listNext ht.listLast pre (s ++ p :: t) none) (hpre : pre = none)
    (hf : s.length < fuel) : ht.isBefore q fuel s.getLast? = true ↔ q ∈ s := by
  induction s using List.reverseRecOn generalizing p t fuel with
  | nil =>
    obtain ⟨fuel, rfl⟩ : ∃ n, fuel = n + 1 := ⟨fuel - 1, by simp at hf; omega⟩
    simp [HashTable.isBefore]
  | append_singleton s r ih =>
    obtain ⟨fuel, rfl⟩ : ∃ n, fuel = n + 1 := ⟨fuel - 1, by simp at hf; omega⟩
    rw [List.append_assoc, List.singleton_append] at hseg
    have hlast : (ht.mem r).pListLast = s.getLast? := by
      have := hseg.at_middle.1
      simpa [HashTable.listLast, hpre] using this
    rw [List.getLast?_concat, HashTable.isBefore, hlast]
    by_cases hr : r = q
    · simp [hr]
    · rw [if_neg hr, ih fuel hseg (by simp at hf; omega)]
      simp [Ne.symm hr]

/-- `k` comes before `k'` among the pairs. -/
def Precedes (m : List (Key × α)) (k k' : Key) : Prop := (keys m).idxOf k < (keys m).idxOf k'

theorem Inv.precedes_iff (h : Inv ht (s ++ p :: t)) (hq : q ∈ s ++ p :: t) :
    Precedes (ht.entries (s ++ p :: t)) (ht.keyOf q) (ht.keyOf p) ↔ q ∈ s := by
  have hnd := notMem_of_nodup h.list.nodup
  have hkey : ∀ x ∈ s ++ p :: t, ∀ y ∈ s ++ p :: t, ht.keyOf x = ht.keyOf y → x = y := h.distinct
  have hps : ht.keyOf p ∉ s.map ht.keyOf := by
    intro hmem
    obtain ⟨x, hx, hxk⟩ := List.mem_map.mp hmem
    have := hkey x (by simp [hx]) p (by simp) hxk
    exact hnd (by simp [← this, hx])
  have hp : (keys (ht.entries (s ++ p :: t))).idxOf (ht.keyOf p) = s.length := by
    rw [keys_entries, List.map_append, List.idxOf_append_of_notMem hps, List.map_cons,
      List.idxOf_cons_self]
    simp
  rw [Precedes, hp, keys_entries, List.map_append]
  constructor
  · intro hlt
    by_contra hqs
    have hqs' : ht.keyOf q ∉ s.map ht.keyOf := by
      intro hmem
      obtain ⟨x, hx, hxk⟩ := List.mem_map.mp hmem
      exact hqs (hkey x (by simp [hx]) q hq hxk ▸ hx)
    rw [List.idxOf_append_of_notMem hqs', List.length_map] at hlt
    omega
  · intro hqs
    have hmem : ht.keyOf q ∈ s.map ht.keyOf := List.mem_map_of_mem hqs
    rw [List.idxOf_append_of_mem hmem]
    simpa using List.idxOf_lt_length_iff.mpr hmem

/-- The pair with the key `k` goes, and not the other pair with the key `k'` that it was to
get. -/
def CurrentGoes (m : List (Key × α)) (mode : UpdateMode) (k k' : Key) : Prop :=
  k ≠ k' ∧ k' ∈ keys m ∧
    (mode = .HASH_UPDATE_KEY_IF_BEFORE ∧ ¬ Precedes m k' k ∨
      mode = .HASH_UPDATE_KEY_IF_AFTER ∧ Precedes m k' k)

theorem deletesCurrent_iff (ht : HashTable α) (mode : UpdateMode) (p q : Addr) :
    ht.deletesCurrent mode p q = true ↔
      mode = .HASH_UPDATE_KEY_IF_BEFORE ∧
          ¬ ht.isBefore q ht.loopBound (ht.mem p).pListLast = true ∨
        mode = .HASH_UPDATE_KEY_IF_AFTER ∧
          ht.isBefore q ht.loopBound (ht.mem p).pListLast = true := by
  unfold HashTable.deletesCurrent
  cases ht.isBefore q ht.loopBound (ht.mem p).pListLast <;> cases mode <;> decide

theorem Inv.deletes_iff (h : Inv ht l) (hv : k.Valid ht l) (hne : k ≠ .other)
    (hs : k.NoHit ht l (some p)) (hpl : p ∈ l) (hkp : ht.keyOf p ≠ k.toKey) :
    (ht.findTarget k).any (ht.deletesCurrent mode p) = true ↔
      CurrentGoes (ht.entries l) mode (ht.keyOf p) k.toKey := by
  have hfind := h.findTarget_iff hv hne hs.slot
  cases hq : ht.findTarget k with
  | none =>
    have hnot := notMem_keys_of_find_none hq hfind
    simp [CurrentGoes, hnot]
  | some q =>
    obtain ⟨hql, hqk⟩ := (hfind q).mp hq
    have hmem : k.toKey ∈ keys (ht.entries l) := mem_keys_entries.mpr ⟨q, hql, hqk⟩
    obtain ⟨s, t, rfl⟩ := List.append_of_mem hpl
    have hlast : (ht.mem p).pListLast = s.getLast? := by
      simpa [HashTable.listLast] using h.list.seg.at_middle.1
    have hbound : s.length < ht.loopBound := by
      rw [h.loopBound_eq]
      simp only [List.length_append]
      omega
    have hbefore : ht.isBefore q ht.loopBound (ht.mem p).pListLast = true ↔
        Precedes (ht.entries (s ++ p :: t)) k.toKey (ht.keyOf p) := by
      rw [hlast, isBefore_iff ht.loopBound h.list.seg rfl hbound, ← hqk, h.precedes_iff hql]
    rw [Option.any_some, deletesCurrent_iff, hbefore, CurrentGoes]
    exact ⟨fun hm => ⟨hkp, hmem, hm⟩, fun hm => hm.2.2⟩

/-! ## The promises of the key change -/

/-- A string key that comes neither by the key pointer of an integer bucket nor by the word
that is in the block to which a bucket would move. -/
structure LookupKey (ht : HashTable α) (malloc : Malloc) (k : KeyIndex) (key : KeyArg) :
    Prop where
  notStale : NotStale ht ht.buckets key.arKey
  newBlock : (∃ n, k = .long n) → (ht.mem (ht.newBlock malloc k)).arKey ≠ key.arKey
  length : key.nKeyLength ≠ 0

/-- What `zend_hash_update_current_key_ex` promises, with its result `r`, when the current
bucket is `p`. -/
structure KeyChanged (ht : HashTable α) (malloc : Malloc) (k : KeyIndex) (mode : UpdateMode)
    (pos : Option (Option Addr)) (p : Addr)
    (r : HashTable α × Status × Option (Option Addr)) : Prop where
  /-- The element has the key already. -/
  same : ht.keyOf p = k.toKey → r = (ht, .SUCCESS, pos)
  /-- No element has the key. -/
  absent : k.toKey ∉ keys ht.toMap →
    r.1.toMap = rename ht.toMap (ht.keyOf p) k.toKey ∧ r.2.1 = .SUCCESS
  /-- Another element has the key, and it is the one to go. -/
  otherGoes : ht.keyOf p ≠ k.toKey → k.toKey ∈ keys ht.toMap →
    ¬ CurrentGoes ht.toMap mode (ht.keyOf p) k.toKey →
    r.1.toMap = rename (erase ht.toMap k.toKey) (ht.keyOf p) k.toKey ∧ r.2.1 = .SUCCESS
  /-- Another element has the key, and the current one goes. -/
  currentGoes : CurrentGoes ht.toMap mode (ht.keyOf p) k.toKey →
    r.1.toMap = erase ht.toMap (ht.keyOf p) ∧ r.2.1 = .FAILURE
  /-- Lookups agree with the list. -/
  find : ∀ key, LookupKey ht malloc k key → ValidKey r.1 r.1.buckets key →
    r.1.zendHashFind key = lookup r.1.toMap (.str key.bytes)
  indexFind : ∀ n, r.1.zendHashIndexFind n = lookup r.1.toMap (.int n)
  /-- The internal pointer and the position of the caller are on buckets of the table. -/
  pInternalPointer : ∀ a, r.1.pInternalPointer = some a → a ∈ r.1.live
  position : ∀ a, r.2.2 = some (some a) → a ∈ r.1.live

theorem Inv.find_of_words (h : Inv ht l) (hv : ValidKey ht ht.buckets key)
    (hlen : key.nKeyLength ≠ 0)
    (hw : ∀ a ∈ l, (ht.mem a).nKeyLength = 0 → (ht.mem a).arKey ≠ key.arKey) :
    ht.zendHashFind key = lookup ht.toMap (.str key.bytes) := by
  refine (h.find_spec hv ?_ hlen).1
  rw [h.buckets_eq]
  exact hw

theorem Inv.keyChanged_same (h : Inv ht ht.buckets) (hv : k.Valid ht ht.buckets)
    (hne : k ≠ .other) (hs : k.NoHit ht ht.buckets (some p))
    (hp : pos.getD ht.pInternalPointer = some p) (hpl : p ∈ ht.buckets)
    (hkp : ht.keyOf p = k.toKey) :
    KeyChanged ht malloc k mode pos p (ht.zendHashUpdateCurrentKeyEx malloc k mode pos) := by
  have hhas := (h.hasKeyIndex_iff hv hne hpl (hs.current p rfl)).mpr hkp
  have hr : ht.zendHashUpdateCurrentKeyEx malloc k mode pos = (ht, .SUCCESS, pos) := by
    simp only [HashTable.zendHashUpdateCurrentKeyEx, hp, if_neg hne, if_pos hhas]
  have hmem : k.toKey ∈ keys ht.toMap := mem_keys_entries.mpr ⟨p, hpl, hkp⟩
  have hlive : ∀ a ∈ ht.buckets, a ∈ ht.live := fun a ha => by
    rw [h.live]
    exact List.mem_toFinset.mpr ha
  rw [hr]
  refine ⟨fun _ => rfl, fun hnot => absurd hmem hnot, fun hk => absurd hkp hk,
    fun hg => absurd hkp hg.1, fun key hkey hvk => ?_, fun n => (h.indexFind_spec n).1,
    fun a ha => hlive a (h.list.pointer a ha), fun a ha => ?_⟩
  · exact h.find_of_words hvk hkey.length hkey.notStale
  · have ha' : pos = some (some a) := ha
    rw [ha'] at hp
    exact hlive a (Option.some.inj hp ▸ hpl)

/-- The table `{0 => 1, 1 => 2}`. -/
def twoIndexTable : HashTable ℕ :=
  (Op.indexUpdateOrNextInsert bump 1 2 .HASH_UPDATE).run (oneIndexTable 0)

theorem inv_twoIndexTable : Inv twoIndexTable twoIndexTable.buckets := by
  have h1 : CleanRun (oneIndexTable 0) :=
    Run.step (Run.init zeroMem 8) (Op.indexUpdateOrNextInsert bump 0 1 .HASH_UPDATE) trivial
      (by simp [Clean, zendHashInit]) (by simp [Op.source])
  have hcount : (oneIndexTable 0).nNumOfElements + 1 < 2 ^ 32 := by decide
  have h2 : CleanRun twoIndexTable :=
    Run.step h1 (Op.indexUpdateOrNextInsert bump 1 2 .HASH_UPDATE) trivial hcount
      (by simp [Op.source])
  obtain ⟨l, hl⟩ := h2.exists_inv
  rw [hl.buckets_eq]
  exact hl

end PhpRuntime.Hash
