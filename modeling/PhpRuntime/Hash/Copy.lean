import PhpRuntime.Hash.Removal

/-!
# Copying and merging

Both walk the source and store its pairs into the target, one by one. The source is a
table of its own: none of its blocks is in the target, and the allocator hands out none of
them while the target grows.
-/

set_option autoImplicit false

namespace PhpRuntime.Hash

open PhpRuntime.Lib PhpRuntime.Lib.OrderedMap

variable {α : Type} {ht source target : HashTable α} {l ls lt t : List Addr} {p : Addr}
  {v : α} {malloc : Malloc}

theorem Inv.of_pInternalPointer (h : Inv ht l) {o : Option Addr}
    (ho : ∀ a, o = some a → a ∈ l) : Inv { ht with pInternalPointer := o } l := by
  obtain ⟨ch, hch⟩ := h.chains
  exact ⟨⟨h.list.congr rfl rfl ho (fun _ _ => rfl) (fun _ _ => rfl), h.live, h.count,
    h.size, h.mask, fun a ha => (h.keys a ha).congr rfl, h.distinct⟩,
    ch, hch.congr rfl rfl (fun _ _ => rfl) (fun _ _ => rfl) (fun _ _ => rfl) (fun _ _ => rfl)⟩

theorem sourceLoop_eq_foldl (turn : Addr → HashTable α → HashTable α) (fuel : ℕ)
    {pre : Option Addr} (hseg : Seg source.listNext source.listLast pre t none)
    (hf : t.length < fuel) :
    HashTable.sourceLoop source turn fuel t.head? target =
      t.foldl (fun target p => turn p target) target := by
  induction t generalizing pre fuel target with
  | nil =>
    obtain ⟨fuel, rfl⟩ : ∃ n, fuel = n + 1 := ⟨fuel - 1, by simp at hf; omega⟩
    rfl
  | cons p t ih =>
    obtain ⟨fuel, rfl⟩ : ∃ n, fuel = n + 1 := ⟨fuel - 1, by simp at hf; omega⟩
    obtain ⟨-, hn, hseg⟩ := hseg
    have hn' : (source.mem p).pListNext = t.head? := by simpa [HashTable.listNext] using hn
    rw [List.head?_cons, HashTable.sourceLoop, hn', List.foldl_cons]
    exact ih fuel hseg (by simp at hf; omega)

/-- A target between two turns: in order, apart from the source, and without an integer
bucket that still has the key pointer of a string of the source. -/
structure TargetOk (source : HashTable α) (ls : List Addr) (target : HashTable α)
    (lt : List Addr) : Prop where
  inv : Inv target lt
  apart : ∀ a ∈ lt, a ∉ ls
  stale : ∀ p ∈ ls, (source.mem p).nKeyLength ≠ 0 → NotStale target lt (source.mem p).arKey

theorem validKey_of_apart (hapart : ∀ a ∈ lt, a ∉ ls) (hp : p ∈ ls) (hk : KeyOk source p)
    (h0 : (source.mem p).nKeyLength ≠ 0) : ValidKey target lt (source.keyArg p) := by
  have ho := hk.owned h0
  refine ⟨?_, fun s hs => ?_, fun b hb hbk => ?_⟩ <;> simp only [HashTable.keyArg] at *
  · rcases ho with ho | ho <;> simp [ho]
  · rcases ho with ho | ho <;> rw [ho] at hs <;> simp at hs
    exact hs
  · rcases ho with ho | ho <;> rw [ho] at hbk <;> simp at hbk
    exact absurd hp (hbk ▸ hapart b hb)

theorem keyArg_nKeyLength (hk : KeyOk source p) (h0 : (source.mem p).nKeyLength ≠ 0) :
    (source.keyArg p).nKeyLength ≠ 0 := by
  rw [KeyArg.nKeyLength, HashTable.keyArg, ← hk.length h0]
  exact h0

theorem Stores.copyConstruct {k : Key} {r : HashTable α × Status × Option Addr} {l' : List Addr}
    (h : Stores malloc ht l k v r l') (ctor : Option (α → α)) :
    Inv (HashTable.copyConstruct ctor r.2.2 r.1) l' ∧
      (HashTable.copyConstruct ctor r.2.2 r.1).entries l' =
        set (ht.entries l) k (ctor.getD id v) := by
  cases ctor with
  | none => exact ⟨h.inv, h.entries⟩
  | some f =>
    obtain ⟨p, hp, hh⟩ := h.dest
    obtain ⟨hi, he⟩ := h.inv.store_pData hh.mem f
    have heq : HashTable.copyConstruct (some f) r.2.2 r.1 =
        r.1.store p fun b => { b with pData := f b.pData } := by
      simp only [HashTable.copyConstruct, hp, HashTable.storeAt, HashTable.store,
        Option.some_inj, eq_comm]
    rw [heq]
    refine ⟨hi, ?_⟩
    rw [he, hh.keyOf, hh.pData, h.entries, replace_set]
    rfl

theorem copyConstruct_mem (ctor : Option (α → α)) (o : Option Addr) (ht : HashTable α)
    (a : Addr) :
    ((HashTable.copyConstruct ctor o ht).mem a).nKeyLength = (ht.mem a).nKeyLength ∧
      ((HashTable.copyConstruct ctor o ht).mem a).arKey = (ht.mem a).arKey := by
  cases ctor with
  | none => exact ⟨rfl, rfl⟩
  | some f =>
    simp only [HashTable.copyConstruct, HashTable.storeAt_mem]
    split <;> exact ⟨rfl, rfl⟩

/-- The pairs of the target after one pair of the source was stored or offered. -/
def storeEntry (overwrite : Bool) (ctor : Option (α → α)) (m : List (Key × α))
    (e : Key × α) : List (Key × α) :=
  if overwrite then set m e.1 (ctor.getD id e.2) else add m e.1 (ctor.getD id e.2)

theorem length_storeEntry_le (overwrite : Bool) (ctor : Option (α → α)) (m : List (Key × α))
    (e : Key × α) : (storeEntry overwrite ctor m e).length ≤ m.length + 1 := by
  unfold storeEntry
  split
  · exact length_set_le
  · unfold add
    split <;> simp

theorem keyOf_copyConstruct (ctor : Option (α → α)) (o : Option Addr) (ht : HashTable α)
    (a : Addr) : (HashTable.copyConstruct ctor o ht).keyOf a = ht.keyOf a := by
  have hmem : ∀ x, ∃ v, (HashTable.copyConstruct ctor o ht).mem x = { ht.mem x with pData := v } := by
    intro x
    cases ctor with
    | none => exact ⟨(ht.mem x).pData, rfl⟩
    | some f =>
      simp only [HashTable.copyConstruct, HashTable.storeAt_mem]
      split
      · exact ⟨f (ht.mem x).pData, rfl⟩
      · exact ⟨(ht.mem x).pData, rfl⟩
  exact keyOf_of_pData hmem a

/-! ## One turn of the loops -/

/-- The key under which the value of the bucket `p` of the source goes into the target. -/
def HashTable.targetKey (source target : HashTable α) (p : Addr) : Key :=
  if (source.mem p).nKeyLength = 0 then source.keyOf p else target.storedKey (source.keyArg p)

theorem chainFind_of_pInternalPointer (ht : HashTable α) (o : Option Addr)
    (test : Addr → Bool) (fuel : ℕ) (p : Option Addr) :
    HashTable.chainFind { ht with pInternalPointer := o } test fuel p =
      ht.chainFind test fuel p := by
  induction fuel generalizing p with
  | zero => rfl
  | succ fuel ih =>
    cases p with
    | none => rfl
    | some a => rw [HashTable.chainFind, HashTable.chainFind, ih]

theorem storedKey_of_pInternalPointer (ht : HashTable α) (o : Option Addr) (key : KeyArg) :
    HashTable.storedKey { ht with pInternalPointer := o } key = ht.storedKey key := by
  unfold HashTable.storedKey HashTable.findKey
  rw [chainFind_of_pInternalPointer]
  rfl

theorem targetKey_of_pInternalPointer (source target : HashTable α) (o : Option Addr) (p : Addr) :
    source.targetKey { target with pInternalPointer := o } p = source.targetKey target p := by
  unfold HashTable.targetKey
  rw [storedKey_of_pInternalPointer]

/-- What one turn of a loop makes of a target. -/
structure Turned (malloc : Malloc) (target : HashTable α) (lt : List Addr) (overwrite : Bool)
    (ctor : Option (α → α)) (e : Key × α) (target' : HashTable α) (l' : List Addr) : Prop where
  inv : Inv target' l'
  entries : target'.entries l' = storeEntry overwrite ctor (target.entries lt) e
  buckets : ∀ a ∈ l', BucketFrom malloc target lt target' a

theorem Stores.turned {k : Key} {overwrite : Bool} {r : HashTable α × Status × Option Addr}
    {l' : List Addr} (hs : Stores malloc target lt k v r l') (ctor : Option (α → α))
    (hnew : overwrite = false → k ∉ keys (target.entries lt)) :
    Turned malloc target lt overwrite ctor (k, v) (HashTable.copyConstruct ctor r.2.2 r.1) l' := by
  obtain ⟨hi, he⟩ := hs.copyConstruct ctor
  refine ⟨hi, ?_, fun a ha => ?_⟩
  · rw [he, storeEntry]
    cases overwrite with
    | true => rfl
    | false => rw [set_of_notMem (hnew rfl), if_neg (by simp), add_of_notMem (hnew rfl)]
  · obtain ⟨hlen, hkey⟩ := copyConstruct_mem ctor r.2.2 r.1 a
    rw [BucketFrom, hlen, hkey]
    exact hs.buckets a ha

theorem Refuses.turned {k : Key} {r : HashTable α × Status × Option Addr}
    (hr : Refuses target lt k r) (malloc : Malloc) (ctor : Option (α → α)) :
    Turned malloc target lt false ctor (k, v) r.1 lt := by
  refine ⟨hr.inv, ?_, fun a ha => Or.inl ⟨ha, by rw [hr.mem], by rw [hr.mem]⟩⟩
  rw [hr.entries, storeEntry, if_neg (by simp), add_of_mem hr.present]

/-- **One turn of `zend_hash_copy`.** -/
theorem copyElement_turned (hsrc : Inv source ls) (h : Inv target lt)
    (hapart : ∀ a ∈ lt, a ∉ ls) (hp : p ∈ ls) (hroom : lt.length + 1 < 2 ^ 32)
    (ctor : Option (α → α)) (b : Bool) :
    ∃ l', Turned malloc target lt true ctor (source.targetKey target p, (source.mem p).pData)
      (HashTable.copyElement malloc source ctor b p target) l' := by
  have hk := hsrc.keys p hp
  -- the target with its internal pointer perhaps reset
  obtain ⟨t1, ht1, h1, he1, hb1⟩ : ∃ t1, t1 = (if b = true ∧ source.pInternalPointer = some p
      then { target with pInternalPointer := none } else target) ∧ Inv t1 lt ∧
      source.targetKey target p = source.targetKey t1 p ∧ t1.mem = target.mem := by
    refine ⟨_, rfl, ?_⟩
    split
    · exact ⟨h.of_pInternalPointer (by simp),
        (targetKey_of_pInternalPointer source target none p).symm, rfl⟩
    · exact ⟨h, rfl, rfl⟩
  -- a store into that target, as the two branches do it
  have hstore : ∀ {k : Key} {r : HashTable α × Status × Option Addr},
      StoreSpec malloc t1 lt k (source.mem p).pData False r →
      ∃ l', Turned malloc target lt true ctor (k, (source.mem p).pData)
        (HashTable.copyConstruct ctor r.2.2 r.1) l' := by
    intro k r hspec
    rcases hspec with ⟨hbad, -⟩ | ⟨-, l', hs⟩
    · exact hbad.elim
    · have hturned : Turned malloc t1 lt true ctor _ _ l' := hs.turned ctor (by simp)
      obtain ⟨hi, he, hb⟩ := hturned
      rw [entries_of_mem hb1] at he
      simp only [BucketFrom, hb1] at hb
      exact ⟨l', hi, he, hb⟩
  unfold HashTable.copyElement
  dsimp only
  rw [← ht1, he1, HashTable.targetKey]
  by_cases h0 : (source.mem p).nKeyLength = 0
  · rw [if_neg (not_not.mpr h0), if_pos h0, keyOf_eq_int_iff.mpr ⟨h0, rfl⟩]
    refine hstore ?_
    simpa using h1.zendHashIndexUpdateOrNextInsert malloc hroom (source.mem p).h
      (source.mem p).pData .HASH_UPDATE
  · have hlen := keyArg_nKeyLength hk h0
    rw [if_pos h0, if_neg h0, HashTable.zendHashQuickAddOrUpdate, if_neg hlen, hk.hash h0]
    refine hstore ?_
    have hspec := h1.addOrUpdate_any malloc (validKey_of_apart hapart hp hk h0) hlen hroom
      (source.mem p).pData .HASH_UPDATE
    rwa [eq_false (by decide : ¬ Flag.HASH_UPDATE = .HASH_ADD)] at hspec

/-- **One turn of `_zend_hash_merge`.** -/
theorem mergeElement_turned (hsrc : Inv source ls) (h : Inv target lt)
    (hapart : ∀ a ∈ lt, a ∉ ls) (hp : p ∈ ls) (hroom : lt.length + 1 < 2 ^ 32)
    (ctor : Option (α → α)) (overwrite : Bool) :
    ∃ l', Turned malloc target lt overwrite ctor
      (source.targetKey target p, (source.mem p).pData)
      (HashTable.mergeElement malloc source ctor overwrite p target) l' := by
  have hk := hsrc.keys p hp
  unfold HashTable.mergeElement
  dsimp only
  rw [HashTable.targetKey]
  by_cases h0 : (source.mem p).nKeyLength = 0
  · have hkey : source.keyOf p = .int (source.mem p).h := keyOf_eq_int_iff.mpr ⟨h0, rfl⟩
    have hex : target.zendHashIndexExists (source.mem p).h = true ↔
        source.keyOf p ∈ keys (target.entries lt) := by
      rw [hkey]
      exact find_isSome_iff fun q => h.findIndex_iff q
    have hpos : ¬ 0 < (source.mem p).nKeyLength := by omega
    rw [if_neg hpos, if_pos h0]
    by_cases hc : overwrite = true ∨ target.zendHashIndexExists (source.mem p).h = false
    · rw [if_pos hc]
      rcases h.zendHashIndexUpdateOrNextInsert malloc hroom (source.mem p).h
        (source.mem p).pData .HASH_UPDATE with ⟨hbad, -⟩ | ⟨-, l', hs⟩
      · simp at hbad
      · rw [if_neg (by simp), ← hkey] at hs
        rw [if_pos hs.status]
        refine ⟨l', hs.turned ctor fun hov hmem => ?_⟩
        have hfalse := hc.resolve_left (by simp [hov])
        rw [hex.mpr hmem] at hfalse
        exact absurd hfalse (by simp)
    · rw [if_neg hc]
      simp only [not_or, Bool.not_eq_true, Bool.not_eq_false] at hc
      refine ⟨lt, h, ?_, fun a ha => Or.inl ⟨ha, rfl, rfl⟩⟩
      rw [storeEntry, if_neg (by simp [hc.1]), add_of_mem (hex.mp hc.2)]
  · have hlen := keyArg_nKeyLength hk h0
    have hh : (source.mem p).h = zendInlineHashFunc (source.keyArg p).bytes := hk.hash h0
    rw [if_pos (Nat.pos_of_ne_zero h0), if_neg h0, HashTable.zendHashQuickAddOrUpdate,
      if_neg hlen, hh]
    rcases h.addOrUpdate_any malloc (validKey_of_apart hapart hp hk h0) hlen hroom
      (source.mem p).pData (if overwrite then .HASH_UPDATE else .HASH_ADD)
      with ⟨hadd, hr⟩ | ⟨hadd, l', hs⟩
    · obtain rfl : overwrite = false := by
        cases overwrite <;> simp at hadd ⊢
      rw [if_neg (by rw [hr.status]; simp)]
      exact ⟨lt, hr.turned malloc ctor⟩
    · rw [if_pos hs.status]
      exact ⟨l', hs.turned ctor fun hov => hadd (by simp [hov])⟩

/-! ## The loops into a target without stale pointers -/

theorem TargetOk.of_turned (h : TargetOk source ls target lt) (hsrc : Inv source ls)
    (hm : ∀ s, malloc.addr s ∉ ls) {overwrite : Bool} {ctor : Option (α → α)} {e : Key × α}
    {target' : HashTable α} {l' : List Addr}
    (ht : Turned malloc target lt overwrite ctor e target' l') :
    TargetOk source ls target' l' := by
  refine ⟨ht.inv, fun a ha => ?_, fun p hp h0 a ha ha0 => ?_⟩
  · rcases ht.buckets a ha with ⟨hl, -⟩ | ⟨⟨s, rfl⟩, -⟩
    · exact h.apart a hl
    · exact hm s
  · rcases ht.buckets a ha with ⟨hl, hlen', hkey'⟩ | ⟨-, hnull⟩
    · rw [hkey']
      exact h.stale p hp h0 a hl (hlen' ▸ ha0)
    · rw [hnull ha0]
      rcases (hsrc.keys p hp).owned h0 with ho | ho <;> rw [ho] <;> simp

theorem TargetOk.targetKey_eq (h : TargetOk source ls target lt) (hsrc : Inv source ls)
    (hp : p ∈ ls) : source.targetKey target p = source.keyOf p := by
  have hk := hsrc.keys p hp
  unfold HashTable.targetKey
  split
  · rfl
  · rename_i h0
    have hown : source.keyOf p = .str (source.keyArg p).bytes := keyOf_eq_str_iff.mpr ⟨h0, rfl⟩
    rcases h.inv.storedKey_cases (validKey_of_apart h.apart hp hk h0) (keyArg_nKeyLength hk h0)
      with hkey | ⟨a, ha, hs, -⟩
    · rw [hkey, hown]
    · exact absurd hs ((h.stale p hp h0).not_staleSlot ha)

/-- What one turn of a loop must do for the whole loop to store the source. -/
def TurnSpec (source : HashTable α) (ls : List Addr) (overwrite : Bool)
    (ctor : Option (α → α)) (turn : Addr → HashTable α → HashTable α) : Prop :=
  ∀ (target : HashTable α) (lt : List Addr) (p : Addr), TargetOk source ls target lt → p ∈ ls →
    lt.length + 1 < 2 ^ 32 → ∃ l', TargetOk source ls (turn p target) l' ∧
      (turn p target).entries l' =
        storeEntry overwrite ctor (target.entries lt) (source.keyOf p, (source.mem p).pData)

theorem TurnSpec.foldl {overwrite : Bool} {ctor : Option (α → α)}
    {turn : Addr → HashTable α → HashTable α}
    (hturn : TurnSpec source ls overwrite ctor turn) (h : TargetOk source ls target lt)
    (ht_ : ∀ a ∈ t, a ∈ ls) (hroom : lt.length + t.length < 2 ^ 32) :
    ∃ l', TargetOk source ls (t.foldl (fun target p => turn p target) target) l' ∧
      (t.foldl (fun target p => turn p target) target).entries l' =
        (source.entries t).foldl (storeEntry overwrite ctor) (target.entries lt) := by
  induction t generalizing target lt with
  | nil => exact ⟨lt, h, rfl⟩
  | cons p t ih =>
    obtain ⟨l1, h1, he⟩ := hturn target lt p h (ht_ p (by simp))
      (by rw [List.length_cons] at hroom; omega)
    have hlen : l1.length ≤ lt.length + 1 := by
      have hle := length_storeEntry_le overwrite ctor (target.entries lt)
        (source.keyOf p, (source.mem p).pData)
      rw [← he] at hle
      simpa [HashTable.entries] using hle
    obtain ⟨l2, h2, he2⟩ := ih h1 (fun a ha => ht_ a (by simp [ha]))
      (by rw [List.length_cons] at hroom; omega)
    exact ⟨l2, h2, by rw [List.foldl_cons, he2, he, entries_cons, List.foldl_cons]⟩

theorem copyElement_spec (hsrc : Inv source ls) (hm : ∀ s, malloc.addr s ∉ ls)
    (ctor : Option (α → α)) (b : Bool) :
    TurnSpec source ls true ctor (HashTable.copyElement malloc source ctor b) := by
  intro target lt p h hp hroom
  obtain ⟨l', ht⟩ := copyElement_turned hsrc h.inv h.apart hp hroom ctor b
  exact ⟨l', h.of_turned hsrc hm ht, by rw [ht.entries, h.targetKey_eq hsrc hp]⟩

theorem mergeElement_spec (hsrc : Inv source ls) (hm : ∀ s, malloc.addr s ∉ ls)
    (ctor : Option (α → α)) (overwrite : Bool) :
    TurnSpec source ls overwrite ctor
      (HashTable.mergeElement malloc source ctor overwrite) := by
  intro target lt p h hp hroom
  obtain ⟨l', ht⟩ := mergeElement_turned hsrc h.inv h.apart hp hroom ctor overwrite
  exact ⟨l', h.of_turned hsrc hm ht, by rw [ht.entries, h.targetKey_eq hsrc hp]⟩

/-- **`zend_hash_copy`** stores every pair of the source into the target. -/
theorem TargetOk.zendHashCopy (h : TargetOk source ls target lt) (hsrc : Inv source ls)
    (hm : ∀ s, malloc.addr s ∉ ls) (hroom : lt.length + ls.length < 2 ^ 32)
    (ctor : Option (α → α)) :
    ∃ l', Inv (HashTable.zendHashCopy malloc target source ctor) l' ∧
      (HashTable.zendHashCopy malloc target source ctor).entries l' =
        (source.entries ls).foldl (storeEntry true ctor) (target.entries lt) := by
  unfold HashTable.zendHashCopy
  dsimp only
  rw [hsrc.list.head, sourceLoop_eq_foldl _ _ hsrc.list.seg (by rw [hsrc.loopBound_eq]; omega)]
  obtain ⟨l', h', he⟩ := (copyElement_spec hsrc hm ctor target.pInternalPointer.isNone).foldl h
    (fun _ ha => ha) hroom
  generalize ls.foldl _ target = target' at *
  refine ⟨l', ?_⟩
  split
  · exact ⟨h'.inv.of_pInternalPointer fun a ha => List.mem_of_head? (h'.inv.list.head ▸ ha), he⟩
  · exact ⟨h'.inv, he⟩

/-- **`_zend_hash_merge`** stores every pair of the source, or those with new keys. -/
theorem TargetOk.zendHashMerge (h : TargetOk source ls target lt) (hsrc : Inv source ls)
    (hm : ∀ s, malloc.addr s ∉ ls) (hroom : lt.length + ls.length < 2 ^ 32)
    (ctor : Option (α → α)) (overwrite : Bool) :
    ∃ l', Inv (HashTable.zendHashMerge malloc target source ctor overwrite) l' ∧
      (HashTable.zendHashMerge malloc target source ctor overwrite).entries l' =
        (source.entries ls).foldl (storeEntry overwrite ctor) (target.entries lt) := by
  unfold HashTable.zendHashMerge
  dsimp only
  rw [hsrc.list.head, sourceLoop_eq_foldl _ _ hsrc.list.seg (by rw [hsrc.loopBound_eq]; omega)]
  obtain ⟨l', h', he⟩ := (mergeElement_spec hsrc hm ctor overwrite).foldl h
    (fun _ ha => ha) hroom
  generalize ls.foldl _ target = target' at *
  exact ⟨l', h'.inv.of_pInternalPointer fun a ha => List.mem_of_head? (h'.inv.list.head ▸ ha), he⟩

end PhpRuntime.Hash
