import PhpRuntime.Hash.KeyChange

/-!
# What copying and merging make of the target

`zend_hash_copy` and `_zend_hash_merge` lay the pairs of the source over those of the target.
The internal pointer of an empty target is moved to the element at the source's internal
pointer by clearing it before that element is stored, and no store goes to a bucket of the
source. Into a target with integer buckets that still have the key pointer of a string of the
source the value of that string can go under an integer.
-/

set_option autoImplicit false

namespace PhpRuntime.Hash

open PhpRuntime.Lib PhpRuntime.Lib.OrderedMap

variable {α : Type} {ht ht' ht'' source target target' : HashTable α} {l ls lt s t : List Addr}
  {p a : Addr} {key : KeyArg} {k : Key} {v : α} {malloc : Malloc}
  {ctor : Option (α → α)}

/-! ## The internal pointer and the rest of the memory after an insertion -/

namespace HashTable

@[simp] theorem pInternalPointer_checkInit (ht : HashTable α) :
    ht.checkInit.pInternalPointer = ht.pInternalPointer := by
  unfold checkInit
  split <;> rfl

@[simp] theorem pInternalPointer_rehashLoop (fuel : ℕ) (o : Option Addr) (ht : HashTable α) :
    (rehashLoop fuel o ht).pInternalPointer = ht.pInternalPointer := by
  induction fuel generalizing o ht with
  | zero => rfl
  | succ fuel ih =>
    cases o with
    | none => rfl
    | some p => exact (ih _ _).trans rfl

@[simp] theorem pInternalPointer_ifFullDoResize (ht : HashTable α) :
    ht.ifFullDoResize.pInternalPointer = ht.pInternalPointer := by
  unfold ifFullDoResize zendHashDoResize
  dsimp only
  split
  · split
    · unfold zendHashRehash
      split
      · rfl
      · exact pInternalPointer_rehashLoop _ _ _
    · rfl
  · rfl

@[simp] theorem pInternalPointer_countBucket (ht : HashTable α) :
    ht.countBucket.pInternalPointer = ht.pInternalPointer := by
  simp [countBucket]

@[simp] theorem pInternalPointer_linkBucket (ht : HashTable α) (p : Addr) (i : ℕ) :
    (ht.linkBucket p i).pInternalPointer = ht.pInternalPointer.or (some p) := by
  simp [linkBucket, connectToBucketDllist, connectToGlobalDllist]

end HashTable

/-- The outcome `r` of an operation that has put a new bucket with the key `k` at the end. -/
structure Inserts (ht : HashTable α) (l : List Addr) (k : Key)
    (r : HashTable α × Status × Option Addr) : Prop where
  dest : ∃ p, r.2.2 = some p ∧ r.1.keyOf p = k ∧
    ∀ x ∈ l, (r.1.mem x).payload = (ht.mem x).payload
  pointer : r.1.pInternalPointer = ht.pInternalPointer.or r.2.2

theorem FillsBucket.nIndex_int {n : UInt64} (hf : FillsBucket ht ht' l p (.int n) v) :
    ht.nIndex n = ht'.nIndex (ht'.mem p).h := by
  rw [(keyOf_eq_int_iff.mp hf.keyOf).2, HashTable.nIndex, HashTable.nIndex, hf.frame]

theorem FillsBucket.nIndex_str {b : List UInt8} (hf : FillsBucket ht ht' l p (.str b) v) :
    ht.nIndex (zendInlineHashFunc b) = ht'.nIndex (ht'.mem p).h := by
  rw [hf.keyOk.h_eq_of_str hf.keyOf, HashTable.nIndex, HashTable.nIndex, hf.frame]

theorem Inv.inserts_link (h : Inv ht l) (hm : ht.nTableMask = ht.nTableSize - 1)
    (hf : FillsBucket ht ht' l p k v) (hnew : k ∉ keys (ht.entries l))
    (hroom : l.length + 1 < 2 ^ 32) {i : ℕ} (hi : i = ht'.nIndex (ht'.mem p).h)
    (hl : ∃ n, ht'' = { ht'.linkBucket p i with nNextFreeElement := n }) :
    Inserts ht l k (ht''.countBucket, .SUCCESS, some p) ∧
      KeepsOutside (l ++ [p]) ht ht''.countBucket := by
  obtain ⟨n, hl⟩ := hl
  have hptr : ht''.countBucket.pInternalPointer = ht.pInternalPointer.or (some p) := by
    rw [HashTable.pInternalPointer_countBucket, hl]
    refine (HashTable.pInternalPointer_linkBucket ht' p i).trans ?_
    rw [hf.frame]
  obtain ⟨-, -, hh, hpay, hkeep⟩ := h.link hm hf hnew hroom n
  rw [← hi, ← hl] at hh hpay hkeep
  refine ⟨⟨⟨p, rfl, hh.keyOf, fun x hx => ?_⟩, hptr⟩, hkeep⟩
  rw [hpay x, hf.mem x fun hxp => hf.notMem (hxp ▸ hx)]

theorem keepsOutside_updateData (ht : HashTable α) (hp : p ∈ l) (v : α) :
    KeepsOutside l ht (ht.updateData p v) := by
  intro a ha
  have hap : a ≠ p := fun hap => ha (hap ▸ hp)
  simp [HashTable.updateData, hap]

theorem KeepsOutside.mono (h : KeepsOutside l ht ht') {l' : List Addr} (hl : ∀ a ∈ l, a ∈ l') :
    KeepsOutside l' ht ht' := fun a ha => h a fun hal => ha (hl a hal)

theorem Inv.rest_of_checkInit (h : Inv ht l) {r : HashTable α × Status × Option Addr}
    (hspec : KeepsOutside (l ++ [malloc.addr ht.checkInit.live]) ht.checkInit r.1 ∧
      (k ∉ keys (ht.checkInit.entries l) → Inserts ht.checkInit l k r)) :
    KeepsOutside (l ++ [malloc.addr ht.live]) ht r.1 ∧
      (k ∉ keys (ht.entries l) → Inserts ht l k r) := by
  obtain ⟨h1, -, hmem⟩ := h.checkInit
  have hlive : ht.checkInit.live = ht.live := h1.live.trans h.live.symm
  rw [entries_of_mem hmem l, hlive] at hspec
  obtain ⟨hkeep, hins⟩ := hspec
  refine ⟨fun a ha => (hkeep a ha).trans (by rw [hmem]), fun hnew => ?_⟩
  obtain ⟨⟨p, hp, hk, hpay⟩, hptr⟩ := hins hnew
  exact ⟨⟨p, hp, hk, fun x hx => by rw [hpay x hx, hmem]⟩,
    by rw [hptr, ht.pInternalPointer_checkInit]⟩

theorem Inv.addOrUpdate_rest (h : Inv ht l) (malloc : Malloc) (hv : ValidKey ht l key)
    (hlen : key.nKeyLength ≠ 0) (hroom : l.length + 1 < 2 ^ 32) (v : α) (flag : Flag) :
    let r := ht.addOrUpdate malloc key (zendInlineHashFunc key.bytes) v flag
    KeepsOutside (l ++ [malloc.addr ht.live]) ht r.1 ∧
      (ht.storedKey key ∉ keys (ht.entries l) → Inserts ht l (ht.storedKey key) r) := by
  obtain ⟨h1, hm1, hmem1⟩ := h.checkInit
  have hv1 := hv.of_mem hmem1
  rw [h.storedKey_checkInit key]
  refine h.rest_of_checkInit ?_
  unfold HashTable.addOrUpdate
  dsimp only
  generalize ht.checkInit = ht1 at *
  cases hf : ht1.findKey key (zendInlineHashFunc key.bytes) with
  | some p =>
    have hp := (h1.mem_of_chainFind hf).1
    have hstored : ht1.storedKey key = ht1.keyOf p := by rw [HashTable.storedKey, hf]; rfl
    refine ⟨?_, fun hnew => absurd (mem_keys_entries.mpr ⟨p, hp, hstored.symm⟩) hnew⟩
    dsimp only
    split
    · exact fun _ _ => rfl
    · exact (keepsOutside_updateData ht1 hp v).mono (by simp +contextual)
  | none =>
    have hstored : ht1.storedKey key = .str key.bytes := by rw [HashTable.storedKey, hf]; rfl
    have hnew := h1.notMem_keys_of_findKey_none hf
    have hfill := fillsBucket_key h1.toInvCore malloc hv1 hlen v
    have hslot : ht1.nIndex (zendInlineHashFunc key.bytes) = _ := hfill.nIndex_str
    obtain ⟨hins, hkeep⟩ := h1.inserts_link hm1 hfill hnew hroom hslot
      (HashTable.nNextFreeElement_eta _)
    exact ⟨hkeep, fun _ => hstored ▸ hins⟩

/-- An integer key is stored by `zend_hash_index_update`. -/
theorem Inv.indexUpdate_rest (h : Inv ht l) (malloc : Malloc) (hroom : l.length + 1 < 2 ^ 32)
    (n : UInt64) (v : α) :
    let r := ht.zendHashIndexUpdateOrNextInsert malloc n v .HASH_UPDATE
    KeepsOutside (l ++ [malloc.addr ht.live]) ht r.1 ∧
      (.int n ∉ keys (ht.entries l) → Inserts ht l (.int n) r) := by
  obtain ⟨h1, hm1, -⟩ := h.checkInit
  refine h.rest_of_checkInit ?_
  unfold HashTable.zendHashIndexUpdateOrNextInsert
  simp only [reduceCtorEq, if_false, or_self]
  generalize ht.checkInit = ht1 at *
  have hfind := h1.findIndex_iff (n := n)
  cases hf : ht1.findIndex n with
  | some p =>
    obtain ⟨hp, hk⟩ := (hfind p).mp hf
    refine ⟨fun a ha => ?_, fun hnew => absurd (mem_keys_entries.mpr ⟨p, hp, hk⟩) hnew⟩
    have hmem : ((ht1.updateData p v).bumpNextFree n).mem = (ht1.updateData p v).mem := by
      obtain ⟨m, hm⟩ := (ht1.updateData p v).bumpNextFree_eq n
      rw [hm]
    dsimp only
    rw [hmem]
    exact (keepsOutside_updateData ht1 hp v).mono (by simp +contextual) a ha
  | none =>
    have hnew := notMem_keys_of_find_none hf hfind
    have hfill := fillsBucket_index h1.toInvCore malloc n v
    have hslot : ht1.nIndex n = _ := hfill.nIndex_int
    obtain ⟨hins, hkeep⟩ := h1.inserts_link hm1 hfill hnew hroom hslot
      (HashTable.bumpNextFree_eq _ _)
    exact ⟨hkeep, fun _ => hins⟩

/-! ## The turns of the loops -/

/-- The step stores to buckets of `l` and to blocks of the allocator only. -/
def KeepsApart (malloc : Malloc) (l : List Addr) (ht ht' : HashTable α) : Prop :=
  ∀ a, a ∉ l → (∀ s, a ≠ malloc.addr s) → ht'.mem a = ht.mem a

theorem KeepsOutside.apart (h : KeepsOutside (l ++ [malloc.addr ht.live]) ht ht') :
    KeepsApart malloc l ht ht' := fun a ha hm => h a (by simp [ha, hm])

theorem Stores.keepsApart {r : HashTable α × Status × Option Addr} {l' : List Addr}
    (hs : Stores malloc ht l k v r l') (h : KeepsApart malloc l ht r.1) (ctor : Option (α → α)) :
    KeepsApart malloc l ht (HashTable.copyConstruct ctor r.2.2 r.1) := by
  intro a ha hm
  cases ctor with
  | none => exact h a ha hm
  | some f =>
    obtain ⟨p, hp, hh⟩ := hs.dest
    have hpa : p ≠ a := by
      rintro rfl
      rcases hs.buckets p hh.mem with ⟨hl, -⟩ | ⟨⟨s, hps⟩, -⟩
      · exact ha hl
      · exact hm s hps
    rw [← h a ha hm]
    simp [HashTable.copyConstruct, hp, hpa]

/-- What a turn of a loop does, whatever key pointers the integer buckets have. -/
def TurnStores (malloc : Malloc) (source : HashTable α) (ls : List Addr) (overwrite : Bool)
    (ctor : Option (α → α)) (turn : Addr → HashTable α → HashTable α) : Prop :=
  ∀ (target : HashTable α) (lt : List Addr) (p : Addr), Inv target lt → (∀ a ∈ lt, a ∉ ls) →
    p ∈ ls → lt.length + 1 < 2 ^ 32 →
    (∃ l', Turned malloc target lt overwrite ctor
      (source.targetKey target p, (source.mem p).pData) (turn p target) l') ∧
    KeepsApart malloc lt target (turn p target)

theorem copyElement_stores (hsrc : Inv source ls) (ctor : Option (α → α)) (b : Bool) :
    TurnStores malloc source ls true ctor (HashTable.copyElement malloc source ctor b) := by
  intro target lt p h hapart hp hroom
  refine ⟨copyElement_turned hsrc h hapart hp hroom ctor b, ?_⟩
  have hk := hsrc.keys p hp
  obtain ⟨t1, ht1, h1, hmem⟩ : ∃ t1, t1 = (if b = true ∧ source.pInternalPointer = some p
      then { target with pInternalPointer := none } else target) ∧ Inv t1 lt ∧
      t1.mem = target.mem := by
    refine ⟨_, rfl, ?_⟩
    split
    · exact ⟨h.of_pInternalPointer (by simp), rfl⟩
    · exact ⟨h, rfl⟩
  suffices hkeep : KeepsApart malloc lt t1 (HashTable.copyElement malloc source ctor b p target) by
    intro a ha hm
    rw [hkeep a ha hm, hmem]
  unfold HashTable.copyElement
  dsimp only
  rw [← ht1]
  by_cases h0 : (source.mem p).nKeyLength = 0
  · rw [if_neg (not_not.mpr h0)]
    have hkeep := (h1.indexUpdate_rest malloc hroom (source.mem p).h (source.mem p).pData).1.apart
    rcases h1.zendHashIndexUpdateOrNextInsert malloc hroom (source.mem p).h
      (source.mem p).pData .HASH_UPDATE with ⟨hbad, -⟩ | ⟨-, l', hs⟩
    · simp at hbad
    · exact hs.keepsApart hkeep ctor
  · have hlen := keyArg_nKeyLength hk h0
    have hv1 : ValidKey t1 lt (source.keyArg p) := validKey_of_apart hapart hp hk h0
    rw [if_pos h0, HashTable.zendHashQuickAddOrUpdate, if_neg hlen, hk.hash h0]
    have hkeep := (h1.addOrUpdate_rest malloc hv1 hlen hroom (source.mem p).pData
      .HASH_UPDATE).1.apart
    rcases h1.addOrUpdate_any malloc hv1 hlen hroom (source.mem p).pData .HASH_UPDATE
      with ⟨hbad, -⟩ | ⟨-, l', hs⟩
    · simp at hbad
    · exact hs.keepsApart hkeep ctor

theorem mergeElement_stores (hsrc : Inv source ls) (ctor : Option (α → α)) (overwrite : Bool) :
    TurnStores malloc source ls overwrite ctor
      (HashTable.mergeElement malloc source ctor overwrite) := by
  intro target lt p h hapart hp hroom
  refine ⟨mergeElement_turned hsrc h hapart hp hroom ctor overwrite, ?_⟩
  have hk := hsrc.keys p hp
  unfold HashTable.mergeElement
  by_cases h0 : (source.mem p).nKeyLength = 0
  · have hpos : ¬ 0 < (source.mem p).nKeyLength := by omega
    rw [if_neg hpos]
    split
    · have hkeep := (h.indexUpdate_rest malloc hroom (source.mem p).h (source.mem p).pData).1.apart
      rcases h.zendHashIndexUpdateOrNextInsert malloc hroom (source.mem p).h
        (source.mem p).pData .HASH_UPDATE with ⟨hbad, -⟩ | ⟨-, l', hs⟩
      · simp at hbad
      · rw [if_pos hs.status]
        exact hs.keepsApart hkeep ctor
    · exact fun _ _ _ => rfl
  · have hlen := keyArg_nKeyLength hk h0
    have hv : ValidKey target lt (source.keyArg p) := validKey_of_apart hapart hp hk h0
    have hh : (source.mem p).h = zendInlineHashFunc (source.keyArg p).bytes := hk.hash h0
    rw [if_pos (Nat.pos_of_ne_zero h0), HashTable.zendHashQuickAddOrUpdate, if_neg hlen, hh]
    have hkeep := (h.addOrUpdate_rest malloc hv hlen hroom (source.mem p).pData
      (if overwrite then .HASH_UPDATE else .HASH_ADD)).1.apart
    rcases h.addOrUpdate_any malloc hv hlen hroom (source.mem p).pData
      (if overwrite then .HASH_UPDATE else .HASH_ADD) with ⟨-, hr⟩ | ⟨-, l', hs⟩
    · rw [if_neg (by rw [hr.status]; simp)]
      exact hkeep
    · rw [if_pos hs.status]
      exact hs.keepsApart hkeep ctor

/-! ## The loops -/

section Loops

variable {overwrite : Bool} {ctor : Option (α → α)} {turn : Addr → HashTable α → HashTable α}

/-- The pairs that the turns store, under the keys under which they store them. -/
def HashTable.storedPairs (source : HashTable α) (turn : Addr → HashTable α → HashTable α) :
    List Addr → HashTable α → List (Key × α)
  | [], _ => []
  | p :: t, target =>
      (source.targetKey target p, (source.mem p).pData) :: storedPairs source turn t (turn p target)

/-- The keys whose values the turns store under other keys. -/
def HashTable.misdirected (source : HashTable α) (turn : Addr → HashTable α → HashTable α) :
    List Addr → HashTable α → List Key
  | [], _ => []
  | p :: t, target =>
      if source.targetKey target p = source.keyOf p then misdirected source turn t (turn p target)
      else source.keyOf p :: misdirected source turn t (turn p target)

theorem TurnStores.cons (hturn : TurnStores malloc source ls overwrite ctor turn)
    (h : Inv target lt) (hapart : ∀ a ∈ lt, a ∉ ls) (hm : ∀ s, malloc.addr s ∉ ls)
    (hp : p ∈ ls) (hroom : lt.length + (p :: t).length < 2 ^ 32) :
    ∃ l1, Turned malloc target lt overwrite ctor
        (source.targetKey target p, (source.mem p).pData) (turn p target) l1 ∧
      (∀ a ∈ l1, a ∉ ls) ∧ l1.length + t.length < 2 ^ 32 ∧
      ∀ a ∈ ls, (turn p target).mem a = target.mem a := by
  rw [List.length_cons] at hroom
  obtain ⟨⟨l1, h1⟩, hkeep⟩ := hturn target lt p h hapart hp (by omega)
  have hlen : l1.length ≤ lt.length + 1 := by
    have hle := length_storeEntry_le overwrite ctor (target.entries lt)
      (source.targetKey target p, (source.mem p).pData)
    rw [← h1.entries] at hle
    simpa [HashTable.entries] using hle
  refine ⟨l1, h1, fun a ha => ?_, by omega, fun a ha => ?_⟩
  · rcases h1.buckets a ha with ⟨hl, -⟩ | ⟨⟨s, rfl⟩, -⟩
    · exact hapart a hl
    · exact hm s
  · exact hkeep a (fun hal => hapart a hal ha) fun s hs => hm s (hs ▸ ha)

theorem TurnStores.foldl (hturn : TurnStores malloc source ls overwrite ctor turn)
    (h : Inv target lt) (hapart : ∀ a ∈ lt, a ∉ ls) (hm : ∀ s, malloc.addr s ∉ ls)
    (hsub : ∀ a ∈ t, a ∈ ls) (hroom : lt.length + t.length < 2 ^ 32) :
    ∃ l', Inv (t.foldl (fun target p => turn p target) target) l' ∧
      (t.foldl (fun target p => turn p target) target).entries l' =
        (source.storedPairs turn t target).foldl (storeEntry overwrite ctor) (target.entries lt) ∧
      ∀ a ∈ ls, (t.foldl (fun target p => turn p target) target).mem a = target.mem a := by
  induction t generalizing target lt with
  | nil => exact ⟨lt, h, rfl, fun _ _ => rfl⟩
  | cons p t ih =>
    obtain ⟨l1, h1, hapart1, hroom1, hmem1⟩ :=
      hturn.cons h hapart hm (hsub p (by simp)) hroom
    obtain ⟨l2, h2, he, hmem⟩ := ih h1.inv hapart1 (fun a ha => hsub a (by simp [ha])) hroom1
    refine ⟨l2, h2, ?_, fun a ha => ?_⟩
    · rw [List.foldl_cons, he, h1.entries, HashTable.storedPairs, List.foldl_cons]
    · rw [List.foldl_cons, hmem a ha, hmem1 a ha]

theorem targetKey_cases (hsrc : Inv source ls) (h : Inv target lt) (hapart : ∀ a ∈ lt, a ∉ ls)
    (hp : p ∈ ls) :
    source.targetKey target p = source.keyOf p ∨ (∃ b, source.keyOf p = .str b) ∧
      (∃ n, source.targetKey target p = .int n) ∧
      source.targetKey target p ∈ keys (target.entries lt) := by
  have hk := hsrc.keys p hp
  unfold HashTable.targetKey
  split
  · exact Or.inl rfl
  · rename_i h0
    have hown : source.keyOf p = .str (source.keyArg p).bytes := keyOf_eq_str_iff.mpr ⟨h0, rfl⟩
    rcases h.storedKey_cases (validKey_of_apart hapart hp hk h0) (keyArg_nKeyLength hk h0)
      with hkey | ⟨a, ha, -, hkey⟩
    · exact Or.inl (hkey.trans hown.symm)
    · exact Or.inr ⟨⟨_, hown⟩, ⟨_, hkey⟩, h.storedKey_mem (by rw [hkey]; simp)⟩

theorem storedPairs_eq (hnil : source.misdirected turn t target = []) :
    source.storedPairs turn t target = source.entries t := by
  induction t generalizing target with
  | nil => rfl
  | cons p t ih =>
    rw [HashTable.misdirected] at hnil
    by_cases hkey : source.targetKey target p = source.keyOf p
    · rw [if_pos hkey] at hnil
      rw [HashTable.storedPairs, hkey, ih hnil, entries_cons]
    · simp [hkey] at hnil

theorem lookup_storeEntry_of_ne {m : List (Key × α)} {e : Key × α} (hne : k ≠ e.1) :
    lookup (storeEntry overwrite ctor m e) k = lookup m k := by
  unfold storeEntry
  split
  · exact lookup_set_of_ne hne
  · exact lookup_add_of_ne hne

theorem lookup_foldl_storeEntry {m es : List (Key × α)} (hk : k ∉ keys es) :
    lookup (es.foldl (storeEntry overwrite ctor) m) k = lookup m k := by
  induction es generalizing m with
  | nil => rfl
  | cons e es ih =>
    rw [keys, List.map_cons, List.mem_cons, not_or] at hk
    rw [List.foldl_cons, ih hk.2, lookup_storeEntry_of_ne hk.1]

theorem TurnStores.notMem_storedPairs (hturn : TurnStores malloc source ls overwrite ctor turn)
    (hsrc : Inv source ls) (h : Inv target lt) (hapart : ∀ a ∈ lt, a ∉ ls)
    (hm : ∀ s, malloc.addr s ∉ ls) (hsub : ∀ a ∈ t, a ∈ ls)
    (hroom : lt.length + t.length < 2 ^ 32) (hnd : (t.map source.keyOf).Nodup)
    {b : List UInt8} :
    (.str b ∉ t.map source.keyOf → .str b ∉ keys (source.storedPairs turn t target)) ∧
      (.str b ∈ source.misdirected turn t target →
        .str b ∈ t.map source.keyOf ∧ .str b ∉ keys (source.storedPairs turn t target)) := by
  induction t generalizing target lt with
  | nil => simp [HashTable.storedPairs, HashTable.misdirected, keys]
  | cons p t ih =>
    obtain ⟨l1, h1, hapart1, hroom1, -⟩ :=
      hturn.cons h hapart hm (hsub p (by simp)) hroom
    rw [List.map_cons, List.nodup_cons] at hnd
    obtain ⟨hno, hmis⟩ := ih h1.inv hapart1 (fun a ha => hsub a (by simp [ha])) hroom1 hnd.2
    have hcases := targetKey_cases hsrc h hapart (hsub p (by simp))
    rw [HashTable.storedPairs, keys, List.map_cons, List.mem_cons, List.map_cons, List.mem_cons,
      HashTable.misdirected]
    constructor
    · intro hb
      rw [not_or] at hb ⊢
      refine ⟨?_, hno hb.2⟩
      rcases hcases with hkey | ⟨-, ⟨n, hn⟩, -⟩
      · rw [hkey]
        exact hb.1
      · simp [hn]
    · intro hb
      by_cases hkey : source.targetKey target p = source.keyOf p
      · rw [if_pos hkey] at hb
        obtain ⟨hmem, hnot⟩ := hmis hb
        refine ⟨Or.inr hmem, ?_⟩
        rw [not_or, hkey]
        have hne : .str b ≠ source.keyOf p := fun heq => hnd.1 (heq ▸ hmem)
        exact ⟨hne, hnot⟩
      · rw [if_neg hkey, List.mem_cons] at hb
        obtain ⟨-, ⟨n, hn⟩, -⟩ := hcases.resolve_left hkey
        rw [not_or, hn]
        rcases hb with hb | hb
        · exact ⟨Or.inl hb, by simp, hno (hb ▸ hnd.1)⟩
        · obtain ⟨hmem, hnot⟩ := hmis hb
          exact ⟨Or.inr hmem, by simp, hnot⟩

theorem TurnStores.misdirected_str (hturn : TurnStores malloc source ls overwrite ctor turn)
    (hsrc : Inv source ls) (h : Inv target lt) (hapart : ∀ a ∈ lt, a ∉ ls)
    (hm : ∀ s, malloc.addr s ∉ ls) (hsub : ∀ a ∈ t, a ∈ ls)
    (hroom : lt.length + t.length < 2 ^ 32) (hk : k ∈ source.misdirected turn t target) :
    ∃ b, k = .str b := by
  induction t generalizing target lt with
  | nil => simp [HashTable.misdirected] at hk
  | cons p t ih =>
    obtain ⟨l1, h1, hapart1, hroom1, -⟩ :=
      hturn.cons h hapart hm (hsub p (by simp)) hroom
    have hrest := fun hk => ih h1.inv hapart1 (fun a ha => hsub a (by simp [ha])) hroom1 hk
    rw [HashTable.misdirected] at hk
    by_cases hkey : source.targetKey target p = source.keyOf p
    · rw [if_pos hkey] at hk
      exact hrest hk
    · rw [if_neg hkey, List.mem_cons] at hk
      rcases hk with rfl | hk
      · exact ((targetKey_cases hsrc h hapart (hsub p (by simp))).resolve_left hkey).1
      · exact hrest hk

theorem mem_keys_storeEntry {m : List (Key × α)} (e : Key × α) (hk : k ∈ keys m) :
    k ∈ keys (storeEntry overwrite ctor m e) := by
  rw [mem_keys_iff_lookup] at *
  by_cases hke : k = e.1
  · unfold storeEntry
    rw [← mem_keys_iff_lookup] at *
    subst hke
    split
    · rwa [set_of_mem hk, keys_replace]
    · rwa [add_of_mem hk]
  · rwa [lookup_storeEntry_of_ne hke]

theorem TurnStores.foldl_keep (hturn : TurnStores malloc source ls false ctor turn)
    (hsrc : Inv source ls) (h : Inv target lt) (hapart : ∀ a ∈ lt, a ∉ ls)
    (hm : ∀ s, malloc.addr s ∉ ls) (hsub : ∀ a ∈ t, a ∈ ls)
    (hroom : lt.length + t.length < 2 ^ 32)
    (hmis : ∀ k ∈ source.misdirected turn t target, k ∈ keys (target.entries lt)) :
    (source.storedPairs turn t target).foldl (storeEntry false ctor) (target.entries lt) =
      (source.entries t).foldl (storeEntry false ctor) (target.entries lt) := by
  induction t generalizing target lt with
  | nil => rfl
  | cons p t ih =>
    obtain ⟨l1, h1, hapart1, hroom1, -⟩ :=
      hturn.cons h hapart hm (hsub p (by simp)) hroom
    have hstep : storeEntry false ctor (target.entries lt)
        (source.targetKey target p, (source.mem p).pData) =
          storeEntry false ctor (target.entries lt) (source.keyOf p, (source.mem p).pData) := by
      rcases targetKey_cases hsrc h hapart (hsub p (by simp)) with hkey | ⟨-, hint, hmem⟩
      · rw [hkey]
      · by_cases hkey : source.targetKey target p = source.keyOf p
        · rw [hkey]
        · have hown : source.keyOf p ∈ keys (target.entries lt) :=
            hmis _ (by rw [HashTable.misdirected, if_neg hkey]; simp)
          rw [storeEntry, storeEntry, if_neg (by simp), if_neg (by simp), add_of_mem hmem,
            add_of_mem hown]
    rw [HashTable.storedPairs, List.foldl_cons, entries_cons, List.foldl_cons, ← hstep, ← h1.entries]
    refine ih h1.inv hapart1 (fun a ha => hsub a (by simp [ha])) hroom1 fun k hk => ?_
    rw [h1.entries]
    refine mem_keys_storeEntry _ (hmis k ?_)
    rw [HashTable.misdirected]
    split
    · exact hk
    · exact List.mem_cons_of_mem _ hk

end Loops

/-! ## The result of copying and merging -/

/-- The pairs of the source with the values that the copy constructor makes. -/
def HashTable.copied (source : HashTable α) (ctor : Option (α → α)) : List (Key × α) :=
  source.toMap.map fun e => (e.1, ctor.getD id e.2)

theorem keys_copied (source : HashTable α) (ctor : Option (α → α)) :
    keys (source.copied ctor) = keys source.toMap := by
  simp [keys, HashTable.copied, Function.comp_def]

theorem foldl_storeEntry_copied (hsrc : Inv source ls) (overwrite : Bool)
    (ctor : Option (α → α)) (m : List (Key × α)) :
    (source.entries ls).foldl (storeEntry overwrite ctor) m =
      if overwrite then overlay m (source.copied ctor) else extend m (source.copied ctor) := by
  have hnd : (keys (source.copied ctor)).Nodup := by
    rw [keys_copied, hsrc.toMap_eq]
    exact hsrc.keys_nodup
  rw [← foldl_set hnd, ← foldl_add hnd, HashTable.copied, hsrc.toMap_eq, List.foldl_map,
    List.foldl_map]
  cases overwrite <;> rfl

/-- The keys whose values `zend_hash_copy` stores under other keys. -/
def HashTable.copyAstray (malloc : Malloc) (target source : HashTable α) (ctor : Option (α → α)) :
    List Key :=
  source.misdirected (copyElement malloc source ctor target.pInternalPointer.isNone)
    source.buckets target

/-- The keys whose values `_zend_hash_merge` stores under other keys. -/
def HashTable.mergeAstray (malloc : Malloc) (target source : HashTable α)
    (ctor : Option (α → α)) (overwrite : Bool) : List Key :=
  source.misdirected (mergeElement malloc source ctor overwrite) source.buckets target

/-- The outcome `target'` of a loop over the source, when the values of the keys of `astray`
went under other keys. -/
structure Looped (target source : HashTable α) (overwrite : Bool) (ctor : Option (α → α))
    (astray : List Key) (target' : HashTable α) (l' : List Addr) : Prop where
  inv : Inv target' l'
  stored : astray = [] → target'.entries l' = if overwrite
    then overlay target.toMap (source.copied ctor) else extend target.toMap (source.copied ctor)
  lost : target'.entries l' = overlay target.toMap (source.copied ctor) →
    ∀ k ∈ astray, lookup target.toMap k = lookup (source.copied ctor) k
  kept : overwrite = false → (target'.entries l' = extend target.toMap (source.copied ctor) ↔
    ∀ k ∈ astray, k ∈ keys target.toMap)
  source : ∀ a ∈ source.buckets, target'.mem a = target.mem a

theorem TurnStores.looped {overwrite : Bool} {ctor : Option (α → α)}
    {turn : Addr → HashTable α → HashTable α}
    (hturn : TurnStores malloc source source.buckets overwrite ctor turn)
    (hsrc : Inv source source.buckets) (h : Inv target target.buckets)
    (ha : Apart malloc target source)
    (hroom : target.nNumOfElements + source.nNumOfElements < 2 ^ 32) :
    ∃ l', Looped target source overwrite ctor (source.misdirected turn source.buckets target)
      (HashTable.sourceLoop source turn source.loopBound source.pListHead target) l' := by
  have hsub : ∀ a ∈ source.buckets, a ∈ source.buckets := fun _ ha => ha
  rw [h.count, hsrc.count] at hroom
  have hloop : HashTable.sourceLoop source turn source.loopBound source.pListHead target =
      source.buckets.foldl (fun target p => turn p target) target := by
    rw [hsrc.list.head]
    exact sourceLoop_eq_foldl turn source.loopBound hsrc.list.seg (by rw [hsrc.loopBound_eq]; omega)
  rw [hloop]
  obtain ⟨l', hi, he, hmem⟩ := hturn.foldl h ha.1 ha.2 hsub hroom
  have hnd : (source.buckets.map source.keyOf).Nodup := by
    rw [← keys_entries]
    exact hsrc.keys_nodup
  have hgone := fun b => hturn.notMem_storedPairs hsrc h ha.1 ha.2 hsub hroom hnd (b := b)
  have hstr := fun k => hturn.misdirected_str hsrc h ha.1 ha.2 hsub hroom (k := k)
  -- what is found under a key that went astray: what was there before
  have hold : ∀ k ∈ source.misdirected turn source.buckets target,
      k ∈ keys (source.copied ctor) ∧
        lookup ((source.buckets.foldl (fun target p => turn p target) target).entries l') k =
          lookup target.toMap k := by
    intro k hk
    obtain ⟨b, rfl⟩ := hstr k hk
    obtain ⟨hmem, hnot⟩ := (hgone b).2 hk
    refine ⟨?_, ?_⟩
    · rw [keys_copied, HashTable.toMap, keys_entries]
      exact hmem
    · rw [he, lookup_foldl_storeEntry hnot, HashTable.toMap]
  refine ⟨l', hi, fun hnil => ?_, fun heq k hk => ?_, fun hov => ⟨fun heq k hk => ?_, fun hmis => ?_⟩,
    hmem⟩
  · rw [he, storedPairs_eq hnil, foldl_storeEntry_copied hsrc, HashTable.toMap]
  · obtain ⟨hmem, hlook⟩ := hold k hk
    rw [heq, lookup_overlay] at hlook
    rw [← hlook]
    exact Option.or_of_isSome (Option.isSome_iff_ne_none.mpr (mem_keys_iff_lookup.mp hmem))
  · obtain ⟨hmem, hlook⟩ := hold k hk
    rw [heq, lookup_extend] at hlook
    by_contra hnot
    rw [lookup_eq_none_iff.mpr hnot] at hlook
    exact mem_keys_iff_lookup.mp hmem hlook
  · subst hov
    rw [he, hturn.foldl_keep hsrc h ha.1 ha.2 hsub hroom hmis, foldl_storeEntry_copied hsrc,
      HashTable.toMap]
    rfl

/-! ## The internal pointer of an empty target -/

/-- The key at which the internal pointer of an empty target stands once the buckets of `s`
are copied. -/
def HashTable.copiedPointer (source : HashTable α) (s : List Addr) : Option Key :=
  ((s.find? fun p => source.pInternalPointer = some p).or s.head?).map source.keyOf

theorem copyElement_pointer (h : TargetOk source ls target lt) (hsrc : Inv source ls)
    (hp : p ∈ ls) (hroom : lt.length + 1 < 2 ^ 32) (ctor : Option (α → α))
    (hnew : source.keyOf p ∉ keys (target.entries lt)) :
    let r := HashTable.copyElement malloc source ctor true p target
    ∃ q, r.pInternalPointer =
        (if source.pInternalPointer = some p then none else target.pInternalPointer).or (some q) ∧
      r.keyOf q = source.keyOf p ∧ ∀ x ∈ lt, r.keyOf x = target.keyOf x := by
  have hk := hsrc.keys p hp
  obtain ⟨t1, ht1, h1, hptr1, hmem1⟩ : ∃ t1, t1 = (if true = true ∧ source.pInternalPointer = some p
      then { target with pInternalPointer := none } else target) ∧ Inv t1 lt ∧
      t1.pInternalPointer =
        (if source.pInternalPointer = some p then none else target.pInternalPointer) ∧
      t1.mem = target.mem := by
    refine ⟨_, rfl, ?_⟩
    by_cases hs : source.pInternalPointer = some p
    · rw [if_pos ⟨rfl, hs⟩, if_pos hs]
      exact ⟨h.inv.of_pInternalPointer (by simp), rfl, rfl⟩
    · rw [if_neg (by simp [hs]), if_neg hs]
      exact ⟨h.inv, rfl, rfl⟩
  rw [← entries_of_mem hmem1 lt] at hnew
  -- an insertion into that target, and the copy constructor
  have hins : ∀ {r : HashTable α × Status × Option Addr}, Inserts t1 lt (source.keyOf p) r →
      ∃ q, (HashTable.copyConstruct ctor r.2.2 r.1).pInternalPointer =
          t1.pInternalPointer.or (some q) ∧
        (HashTable.copyConstruct ctor r.2.2 r.1).keyOf q = source.keyOf p ∧
        ∀ x ∈ lt, (HashTable.copyConstruct ctor r.2.2 r.1).keyOf x = target.keyOf x := by
    rintro r ⟨⟨q, hq, hqk, hpay⟩, hptr⟩
    have hkey : ∀ x, (HashTable.copyConstruct ctor r.2.2 r.1).keyOf x = r.1.keyOf x :=
      fun x => keyOf_copyConstruct ctor r.2.2 r.1 x
    refine ⟨q, ?_, (hkey q).trans hqk, fun x hx => ?_⟩
    · rw [← hq, ← hptr]
      cases ctor <;> rfl
    · rw [hkey x, (h1.keys x hx).keyOf_eq (hpay x hx)]
      simp only [HashTable.keyOf, HashTable.keyBytes, hmem1]
  unfold HashTable.copyElement
  dsimp only
  rw [← ht1, ← hptr1]
  by_cases h0 : (source.mem p).nKeyLength = 0
  · have hkey : source.keyOf p = .int (source.mem p).h := keyOf_eq_int_iff.mpr ⟨h0, rfl⟩
    rw [if_neg (not_not.mpr h0)]
    refine hins ?_
    rw [hkey] at hnew ⊢
    exact (h1.indexUpdate_rest malloc hroom _ _).2 hnew
  · have hlen := keyArg_nKeyLength hk h0
    have hv1 : ValidKey t1 lt (source.keyArg p) := validKey_of_apart h.apart hp hk h0
    have hown := h.targetKey_eq hsrc hp
    have hstored : t1.storedKey (source.keyArg p) = source.keyOf p := by
      rw [← hown, HashTable.targetKey, if_neg h0, ht1]
      split
      · exact storedKey_of_pInternalPointer target none (source.keyArg p)
      · rfl
    rw [if_pos h0, HashTable.zendHashQuickAddOrUpdate, if_neg hlen, hk.hash h0]
    refine hins ?_
    rw [← hstored] at hnew ⊢
    exact (h1.addOrUpdate_rest malloc hv1 hlen hroom _ _).2 hnew

/-- The target after the buckets of `s` were copied into an empty one. -/
structure CopiedPrefix (source : HashTable α) (ls : List Addr) (ctor : Option (α → α))
    (s : List Addr) (target : HashTable α) (lt : List Addr) : Prop where
  ok : TargetOk source ls target lt
  entries : target.entries lt =
    (source.entries s).map fun e => (e.1, ctor.getD id e.2)
  pointer : target.pInternalPointer.map target.keyOf = source.copiedPointer s

theorem CopiedPrefix.step (hc : CopiedPrefix source ls ctor s target lt) (hsrc : Inv source ls)
    (hm : ∀ s, malloc.addr s ∉ ls) (hls : ls = s ++ p :: t) (hroom : ls.length < 2 ^ 32) :
    ∃ l', CopiedPrefix source ls ctor (s ++ [p])
      (HashTable.copyElement malloc source ctor true p target) l' := by
  have hp : p ∈ ls := by simp [hls]
  have hps : p ∉ s := by
    have hnd := hsrc.list.nodup
    rw [hls] at hnd
    exact fun hmem => (List.nodup_append.mp hnd).2.2 p hmem p (by simp) rfl
  have hlen : lt.length = s.length := by
    have := congrArg List.length hc.entries
    simpa [HashTable.entries] using this
  have hroom1 : lt.length + 1 < 2 ^ 32 := by
    have : s.length + (p :: t).length = ls.length := by rw [hls, List.length_append]
    have hne : 1 ≤ (p :: t).length := by simp
    omega
  have hkeys : keys (target.entries lt) = s.map source.keyOf := by
    rw [hc.entries, ← keys_entries]
    simp [keys, Function.comp_def]
  have hnew : source.keyOf p ∉ keys (target.entries lt) := by
    rw [hkeys]
    intro hmem
    obtain ⟨a, ha, hak⟩ := List.mem_map.mp hmem
    exact hps (hsrc.distinct a (by simp [hls, ha]) p hp hak ▸ ha)
  obtain ⟨l', ht⟩ := copyElement_turned hsrc hc.ok.inv hc.ok.apart hp hroom1 ctor true
  obtain ⟨q, hptr, hqk, hold⟩ := copyElement_pointer hc.ok hsrc hp hroom1 ctor hnew
  refine ⟨l', hc.ok.of_turned hsrc hm ht, ?_, ?_⟩
  · rw [ht.entries, hc.ok.targetKey_eq hsrc hp, storeEntry, if_pos rfl, set_of_notMem hnew,
      hc.entries]
    simp [HashTable.entries]
  · rw [hptr]
    have hpoint := hc.pointer
    unfold HashTable.copiedPointer at hpoint ⊢
    by_cases hcur : source.pInternalPointer = some p
    · -- the pointer was cleared for this element
      have hnone : s.find? (fun x => source.pInternalPointer = some x) = none := by
        rw [List.find?_eq_none]
        intro x hx hxp
        rw [hcur, decide_eq_true_eq, Option.some_inj] at hxp
        exact hps (hxp ▸ hx)
      have hfind : (s ++ [p]).find? (fun x => source.pInternalPointer = some x) = some p := by
        rw [List.find?_append, hnone]
        simp [hcur]
      rw [if_pos hcur, hfind, Option.none_or, Option.map_some, hqk]
      rfl
    · have hfind : (s ++ [p]).find? (fun x => source.pInternalPointer = some x) =
          s.find? fun x => source.pInternalPointer = some x := by
        simp [List.find?_append, hcur]
      rw [if_neg hcur, hfind]
      cases htp : target.pInternalPointer with
      | none =>
        -- nothing is copied yet
        rw [htp] at hpoint
        have hs : s = [] := by
          cases s with
          | nil => rfl
          | cons x s => simp [Option.or] at hpoint; split at hpoint <;> simp at hpoint
        simp [hs, hqk]
      | some a =>
        have ha : a ∈ lt := hc.ok.inv.list.pointer a htp
        rw [htp, Option.map_some, ← hold a ha] at hpoint
        have hs : s ≠ [] := by
          rintro rfl
          simp at hpoint
        obtain ⟨x, s', rfl⟩ := List.exists_cons_of_ne_nil hs
        rw [Option.some_or, Option.map_some, hpoint]
        rfl

theorem CopiedPrefix.foldl (hc : CopiedPrefix source ls ctor s target lt) (hsrc : Inv source ls)
    (hm : ∀ s, malloc.addr s ∉ ls) (hls : ls = s ++ t) (hroom : ls.length < 2 ^ 32) :
    ∃ l', CopiedPrefix source ls ctor ls
      (t.foldl (fun target p => HashTable.copyElement malloc source ctor true p target) target)
      l' := by
  induction t generalizing s target lt with
  | nil =>
    rw [List.append_nil] at hls
    exact ⟨lt, by rw [hls] at hc ⊢; exact hc⟩
  | cons p t ih =>
    obtain ⟨l1, h1⟩ := hc.step hsrc hm hls hroom
    exact ih h1 (by simp [hls])

theorem Inv.copiedPointer_eq (h : Inv source ls) :
    source.copiedPointer ls = (source.pInternalPointer.or source.pListHead).map source.keyOf := by
  unfold HashTable.copiedPointer
  congr 1
  rw [h.list.head]
  cases hptr : source.pInternalPointer with
  | none =>
    have hfind : ls.find? (fun x => (none : Option Addr) = some x) = none := by
      simp
    rw [hfind]
  | some p =>
    have hfind : ls.find? (fun x => some p = some x) = some p := by
      have hp := h.list.pointer p hptr
      cases hf : ls.find? (fun x => some p = some x) with
      | none =>
        rw [List.find?_eq_none] at hf
        exact absurd (decide_eq_true rfl) (hf p hp)
      | some x =>
        have hx : some p = some x := by simpa using List.find?_some hf
        exact hx.symm
    rw [hfind]

/-- **`zend_hash_copy` into an empty table.** -/
theorem Inv.zendHashCopy_empty (hsrc : Inv source ls) (h : Inv target [])
    (hm : ∀ s, malloc.addr s ∉ ls) (hroom : ls.length < 2 ^ 32) (ctor : Option (α → α)) :
    let r := HashTable.zendHashCopy malloc target source ctor
    r.toMap = source.copied ctor ∧ r.pInternalPointer.map r.keyOf =
      (source.pInternalPointer.or source.pListHead).map source.keyOf := by
  have hptr : target.pInternalPointer = none := by
    cases hptr : target.pInternalPointer with
    | none => rfl
    | some a => exact absurd (h.list.pointer a hptr) (by simp)
  have hstart : CopiedPrefix source ls ctor [] target [] :=
    ⟨⟨h, by simp, fun _ _ _ a ha => absurd ha (by simp)⟩, rfl, by rw [hptr]; rfl⟩
  obtain ⟨l', hc⟩ := hstart.foldl (t := ls) hsrc hm rfl hroom
  have hentries : (source.entries ls).map (fun e => (e.1, ctor.getD id e.2)) =
      source.copied ctor := by rw [HashTable.copied, hsrc.toMap_eq]
  have hpoint := hc.pointer
  have hinv := hc.ok.inv
  have he := hc.entries.trans hentries
  rw [hsrc.copiedPointer_eq] at hpoint
  unfold HashTable.zendHashCopy
  dsimp only
  rw [hptr, Option.isNone_none, hsrc.list.head,
    sourceLoop_eq_foldl _ _ hsrc.list.seg (by rw [hsrc.loopBound_eq]; omega)]
  rw [hsrc.list.head] at hpoint
  generalize ls.foldl _ target = target' at *
  by_cases hnone : target'.pInternalPointer = none
  · -- nothing was copied
    rw [if_pos hnone]
    have hls : ls = [] := by
      rw [hnone] at hpoint
      cases ls with
      | nil => rfl
      | cons x ls => cases hsp : source.pInternalPointer <;> simp [hsp] at hpoint
    have hl' : l' = [] := by
      rw [HashTable.copied, hsrc.toMap_eq, hls] at he
      simpa [HashTable.entries] using he
    rw [hl'] at hinv he
    have hhead : target'.pListHead = none := hinv.list.head
    have hi' := hinv.of_pInternalPointer (o := target'.pListHead) (by simp [hhead])
    refine ⟨by rw [hi'.toMap_eq]; exact he, ?_⟩
    rw [hnone] at hpoint
    rw [← hpoint]
    simp [hhead]
  · rw [if_neg hnone]
    exact ⟨by rw [hinv.toMap_eq, he], hpoint⟩

/-! ## Copying and merging -/

/-- What `zend_hash_copy` and `_zend_hash_merge` promise. -/
structure CopiesAndMerges (malloc : Malloc) (target source : HashTable α)
    (ctor : Option (α → α)) : Prop where
  copyEmpty : target.toMap = [] →
    (HashTable.zendHashCopy malloc target source ctor).toMap = source.copied ctor ∧
    (HashTable.zendHashCopy malloc target source ctor).pInternalPointer.map
        (HashTable.zendHashCopy malloc target source ctor).keyOf =
      (source.pInternalPointer.or source.pListHead).map source.keyOf
  copy : (HashTable.zendHashCopy malloc target source ctor).toMap =
    overlay target.toMap (source.copied ctor)
  merge : (HashTable.zendHashMerge malloc target source ctor true).toMap =
    overlay target.toMap (source.copied ctor)
  mergeKeep : (HashTable.zendHashMerge malloc target source ctor false).toMap =
    extend target.toMap (source.copied ctor)
  /-- No store goes to a bucket of the source. -/
  source : ∀ a ∈ source.buckets,
    (HashTable.zendHashCopy malloc target source ctor).mem a = target.mem a ∧
    ∀ overwrite, (HashTable.zendHashMerge malloc target source ctor overwrite).mem a = target.mem a

theorem Inv.toMap_of_pInternalPointer (h : Inv ht l) {o : Option Addr}
    (ho : ∀ a, o = some a → a ∈ l) :
    HashTable.toMap { ht with pInternalPointer := o } = ht.entries l :=
  (h.of_pInternalPointer ho).toMap_eq

theorem Looped.zendHashCopy {l' : List Addr}
    (hl : Looped target source true ctor (target.copyAstray malloc source ctor)
      (HashTable.sourceLoop source (HashTable.copyElement malloc source ctor
        target.pInternalPointer.isNone) source.loopBound source.pListHead target) l') :
    (HashTable.zendHashCopy malloc target source ctor).toMap =
      HashTable.entries (HashTable.sourceLoop source (HashTable.copyElement malloc source ctor
        target.pInternalPointer.isNone) source.loopBound source.pListHead target) l' ∧
    ∀ a ∈ source.buckets,
      (HashTable.zendHashCopy malloc target source ctor).mem a = target.mem a := by
  have hi := hl.inv
  have hmem := hl.source
  unfold HashTable.zendHashCopy
  dsimp only
  generalize HashTable.sourceLoop source _ source.loopBound source.pListHead target = target' at *
  split
  · exact ⟨hi.toMap_of_pInternalPointer fun a ha => List.mem_of_head? (hi.list.head ▸ ha), hmem⟩
  · exact ⟨hi.toMap_eq, hmem⟩

theorem Looped.zendHashMerge {overwrite : Bool} {l' : List Addr}
    (hl : Looped target source overwrite ctor (target.mergeAstray malloc source ctor overwrite)
      (HashTable.sourceLoop source (HashTable.mergeElement malloc source ctor overwrite)
        source.loopBound source.pListHead target) l') :
    (HashTable.zendHashMerge malloc target source ctor overwrite).toMap =
      HashTable.entries (HashTable.sourceLoop source (HashTable.mergeElement malloc source ctor
        overwrite) source.loopBound source.pListHead target) l' ∧
    ∀ a ∈ source.buckets,
      (HashTable.zendHashMerge malloc target source ctor overwrite).mem a = target.mem a := by
  have hi := hl.inv
  have hmem := hl.source
  unfold HashTable.zendHashMerge
  generalize HashTable.sourceLoop source _ source.loopBound source.pListHead target = target' at *
  exact ⟨hi.toMap_of_pInternalPointer fun a ha => List.mem_of_head? (hi.list.head ▸ ha), hmem⟩

/-- An allocator of even addresses, and one of odd addresses. -/
def evenBump : Malloc where
  addr s := 2 * bump.addr s
  fresh s h := by
    have hlt : ∀ n : ℕ, ¬ 2 * n + 1 ≤ n := fun n => by omega
    exact hlt _ (Finset.le_sup (f := fun a : ℕ => a + 1) h)

def oddBump : Malloc where
  addr s := 2 * bump.addr s + 1
  fresh s h := by
    have hlt : ∀ n : ℕ, ¬ 2 * n + 1 + 1 ≤ n := fun n => by omega
    exact hlt _ (Finset.le_sup (f := fun a : ℕ => a + 1) h)

/-- The table `{"c" => 2}`, its key interned, in a block at an odd address. -/
def oddKeyTable : HashTable ℕ :=
  (Op.addOrUpdate oddBump ⟨.interned cBytes, cBytes⟩ 2 .HASH_UPDATE).run (zendHashInit zeroMem 8)

theorem inv_oddKeyTable : Inv oddKeyTable oddKeyTable.buckets := by
  have hclean : CleanRun oddKeyTable :=
    Run.step (Run.init zeroMem 8) _ ⟨by simp, by simp, by simp⟩
      ⟨fun a ha => by simp [(Inv.zendHashInit zeroMem 8).buckets_eq] at ha, by decide⟩
      (by simp [Op.source])
  obtain ⟨l, hl⟩ := hclean.exists_inv
  rw [hl.buckets_eq]
  exact hl

theorem buckets_oddKeyTable : oddKeyTable.buckets = [1] := by decide

theorem evenBump_notMem_oddKeyTable (s : Finset Addr) :
    evenBump.addr s ∉ oddKeyTable.buckets := by
  rw [buckets_oddKeyTable, List.mem_singleton]
  have hne : ∀ n : ℕ, 2 * n ≠ 1 := fun n => by omega
  exact hne _

end PhpRuntime.Hash
