import PhpRuntime.Hash.Links

/-!
# The representation invariant of the hash table

`Inv ht l` ties a table to the list `l` of its buckets: the list of all buckets is `l`,
every bucket is in the chain of its slot, the counters and sizes fit, and the keys are
well formed and pairwise distinct. A linking step changes links only, so each such step
has a payload lemma (the key words and the data stay), and the two unlinking sequences
of the source are shown to leave the same links.
-/

set_option autoImplicit false

namespace PhpRuntime.Hash

open PhpRuntime.Lib (Seg)

variable {α : Type} {ht ht' : HashTable α} {l s t : List Addr} {p q a x : Addr}
  {ch : ℕ → List Addr} {i : ℕ}

/-- The key a bucket stands for: an integer when `nKeyLength` is 0, else a string. -/
inductive Key where
  | int (h : UInt64)
  | str (bytes : List UInt8)
deriving DecidableEq, Repr

def Bucket.payload (b : Bucket α) : UInt64 × ℕ × KeyPtr × List UInt8 × α :=
  (b.h, b.nKeyLength, b.arKey, b.inlineKey, b.pData)

/-- The key of the bucket at `a`. -/
def HashTable.keyOf (ht : HashTable α) (a : Addr) : Key :=
  if (ht.mem a).nKeyLength = 0 then .int (ht.mem a).h else .str (ht.keyBytes a)

/-- The key words of a bucket are in order: a string bucket has the hash and the length
of its bytes, which are interned or behind the bucket itself. The key pointer of an
integer bucket means nothing: `zend_hash_sort` leaves the old one there. -/
structure KeyOk (ht : HashTable α) (a : Addr) : Prop where
  hash : (ht.mem a).nKeyLength ≠ 0 → (ht.mem a).h = zendInlineHashFunc (ht.keyBytes a)
  length : (ht.mem a).nKeyLength ≠ 0 → (ht.mem a).nKeyLength = (ht.keyBytes a).length
  owned : (ht.mem a).nKeyLength ≠ 0 →
    (ht.mem a).arKey = .interned (ht.keyBytes a) ∨ (ht.mem a).arKey = .inline a

/-- The representation invariant without the chains, for the list `l` of the table's
buckets. -/
structure InvCore (ht : HashTable α) (l : List Addr) : Prop where
  list : ListOk ht l
  live : ht.live = l.toFinset
  count : ht.nNumOfElements = l.length
  size : ∃ k, 3 ≤ k ∧ k ≤ 31 ∧ ht.nTableSize = 2 ^ k
  mask : ht.nTableMask = 0 ∧ l = [] ∨ ht.nTableMask = ht.nTableSize - 1
  keys : ∀ a ∈ l, KeyOk ht a
  distinct : ∀ a ∈ l, ∀ b ∈ l, ht.keyOf a = ht.keyOf b → a = b

/-- The representation invariant. -/
structure Inv (ht : HashTable α) (l : List Addr) : Prop extends InvCore ht l where
  chains : ∃ ch, Chains ht l ch

/-- The table as a list of pairs: what the buckets of `l` hold. -/
def HashTable.entries (ht : HashTable α) (l : List Addr) : List (Key × α) :=
  l.map fun a => (ht.keyOf a, (ht.mem a).pData)

/-! ## Buckets that keep their payload keep their key -/

section Payload

variable (h : (ht'.mem a).payload = (ht.mem a).payload)
include h

theorem h_of_payload : (ht'.mem a).h = (ht.mem a).h := congrArg (·.1) h

theorem nKeyLength_of_payload : (ht'.mem a).nKeyLength = (ht.mem a).nKeyLength :=
  congrArg (·.2.1) h

theorem arKey_of_payload : (ht'.mem a).arKey = (ht.mem a).arKey := congrArg (·.2.2.1) h

theorem pData_of_payload : (ht'.mem a).pData = (ht.mem a).pData := congrArg (·.2.2.2.2) h

end Payload

theorem KeyOk.keyBytes_eq (hk : KeyOk ht a) (h0 : (ht.mem a).nKeyLength ≠ 0)
    (h : (ht'.mem a).payload = (ht.mem a).payload) : ht'.keyBytes a = ht.keyBytes a := by
  have hi : (ht'.mem a).inlineKey = (ht.mem a).inlineKey := congrArg (·.2.2.2.1) h
  unfold HashTable.keyBytes
  rw [arKey_of_payload h]
  rcases hk.owned h0 with h | h
  · rw [h]
  · rw [h]; exact hi

theorem KeyOk.keyOf_eq (hk : KeyOk ht a) (h : (ht'.mem a).payload = (ht.mem a).payload) :
    ht'.keyOf a = ht.keyOf a := by
  unfold HashTable.keyOf
  rw [nKeyLength_of_payload h, h_of_payload h]
  split
  · rfl
  · rename_i h0
    rw [hk.keyBytes_eq h0 h]

theorem KeyOk.congr (hk : KeyOk ht a) (h : (ht'.mem a).payload = (ht.mem a).payload) :
    KeyOk ht' a := by
  refine ⟨?_, ?_, ?_⟩ <;>
    rw [nKeyLength_of_payload h] <;> intro h0
  · rw [h_of_payload h, hk.keyBytes_eq h0 h]; exact hk.hash h0
  · rw [hk.keyBytes_eq h0 h]; exact hk.length h0
  · rw [arKey_of_payload h, hk.keyBytes_eq h0 h]; exact hk.owned h0

theorem KeyOk.of_int (h : (ht.mem a).nKeyLength = 0) : KeyOk ht a :=
  ⟨fun h0 => absurd h h0, fun h0 => absurd h h0, fun h0 => absurd h h0⟩

theorem entries_congr (hk : ∀ a ∈ l, KeyOk ht a)
    (h : ∀ a ∈ l, (ht'.mem a).payload = (ht.mem a).payload) :
    ht'.entries l = ht.entries l := by
  refine List.map_congr_left fun a ha => ?_
  rw [(hk a ha).keyOf_eq (h a ha), pData_of_payload (h a ha)]

/-! ## The linking steps keep every payload -/

namespace HashTable

@[simp] theorem payload_connectToBucketDllist (ht : HashTable α) (p x : Addr)
    (o : Option Addr) :
    ((ht.connectToBucketDllist p o).mem x).payload = (ht.mem x).payload := by
  simp only [connectToBucketDllist, storeAt_mem, store_mem]
  split <;> split <;> rfl

@[simp] theorem payload_connectToGlobalDllist (ht : HashTable α) (p x : Addr) :
    ((ht.connectToGlobalDllist p).mem x).payload = (ht.mem x).payload := by
  simp only [connectToGlobalDllist, storeAt_mem, store_mem]
  split <;> split <;> rfl

@[simp] theorem payload_linkBucket (ht : HashTable α) (p x : Addr) (i : ℕ) :
    ((ht.linkBucket p i).mem x).payload = (ht.mem x).payload := by
  simp [linkBucket]

@[simp] theorem linkBucket_live (ht : HashTable α) (p : Addr) (i : ℕ) :
    (ht.linkBucket p i).live = ht.live := by
  simp [linkBucket, connectToBucketDllist, connectToGlobalDllist]

@[simp] theorem linkBucket_nTableSize (ht : HashTable α) (p : Addr) (i : ℕ) :
    (ht.linkBucket p i).nTableSize = ht.nTableSize := by
  simp [linkBucket, connectToBucketDllist, connectToGlobalDllist]

@[simp] theorem linkBucket_nTableMask (ht : HashTable α) (p : Addr) (i : ℕ) :
    (ht.linkBucket p i).nTableMask = ht.nTableMask := by
  simp [linkBucket, connectToBucketDllist, connectToGlobalDllist]

@[simp] theorem payload_unlist (ht : HashTable α) (p x : Addr) :
    ((ht.unlist p).mem x).payload = (ht.mem x).payload := by
  simp only [unlist, setListLast_mem, setListNext_mem]
  split <;> split <;> rfl

@[simp] theorem payload_unchain (ht : HashTable α) (p x : Addr) (i : ℕ) :
    ((ht.unchain p i).mem x).payload = (ht.mem x).payload := by
  simp only [unchain, storeAt_mem]
  split <;> split <;> (try simp only [storeAt_mem]) <;> (try split) <;> rfl

@[simp] theorem payload_unchainByLast (ht : HashTable α) (p x : Addr) :
    ((ht.unchainByLast p).mem x).payload = (ht.mem x).payload := by
  simp only [unchainByLast, storeAt_mem, setNext_mem]
  split <;> split <;> rfl

@[simp] theorem payload_rechainOut (ht : HashTable α) (p x : Addr) :
    ((ht.rechainOut p).mem x).payload = (ht.mem x).payload := by
  simp only [rechainOut, storeAt_mem, setNext_mem]
  split <;> split <;> rfl

/-! ## The list steps keep the chain links, and the other way round -/

@[simp] theorem unlist_chNext (ht : HashTable α) (p x : Addr) :
    ((ht.unlist p).mem x).pNext = (ht.mem x).pNext := by
  simp only [unlist, setListLast_mem, setListNext_mem]
  split <;> split <;> rfl

@[simp] theorem unlist_chLast (ht : HashTable α) (p x : Addr) :
    ((ht.unlist p).mem x).pLast = (ht.mem x).pLast := by
  simp only [unlist, setListLast_mem, setListNext_mem]
  split <;> split <;> rfl

@[simp] theorem connectToGlobalDllist_chNext (ht : HashTable α) (p x : Addr) :
    ((ht.connectToGlobalDllist p).mem x).pNext = (ht.mem x).pNext := by
  simp only [connectToGlobalDllist, storeAt_mem, store_mem]
  split <;> split <;> rfl

@[simp] theorem connectToGlobalDllist_chLast (ht : HashTable α) (p x : Addr) :
    ((ht.connectToGlobalDllist p).mem x).pLast = (ht.mem x).pLast := by
  simp only [connectToGlobalDllist, storeAt_mem, store_mem]
  split <;> split <;> rfl

@[simp] theorem connectToBucketDllist_listNext (ht : HashTable α) (p x : Addr)
    (o : Option Addr) :
    ((ht.connectToBucketDllist p o).mem x).pListNext = (ht.mem x).pListNext := by
  simp only [connectToBucketDllist, storeAt_mem, store_mem]
  split <;> split <;> rfl

@[simp] theorem connectToBucketDllist_listLast (ht : HashTable α) (p x : Addr)
    (o : Option Addr) :
    ((ht.connectToBucketDllist p o).mem x).pListLast = (ht.mem x).pListLast := by
  simp only [connectToBucketDllist, storeAt_mem, store_mem]
  split <;> split <;> rfl

end HashTable

/-- A step that stores to chain links and slots alone. -/
structure ChainStep (ht ht' : HashTable α) : Prop where
  frame : ht' = { ht with mem := ht'.mem, arBuckets := ht'.arBuckets }
  payload : ∀ x, (ht'.mem x).payload = (ht.mem x).payload
  listNext : ∀ x, (ht'.mem x).pListNext = (ht.mem x).pListNext
  listLast : ∀ x, (ht'.mem x).pListLast = (ht.mem x).pListLast

/-- A chain step that takes `p` out of the chain of slot `i`. -/
structure Unchains (ht ht' : HashTable α) (p : Addr) (i : ℕ) : Prop
    extends ChainStep ht ht' where
  arBuckets : ∀ j, ht'.arBuckets j =
    if j = i ∧ ht.chLast p = none then ht.chNext p else ht.arBuckets j
  chNext : ∀ x, ht'.chNext x = if ht.chLast p = some x then ht.chNext p else ht.chNext x
  chLast : ∀ x, ht'.chLast x = if ht.chNext p = some x then ht.chLast p else ht.chLast x

theorem update_ite (f : ℕ → Option Addr) (i j : ℕ) (o o' : Option Addr) :
    (if o.isSome then f else Function.update f i o') j =
      if j = i ∧ o = none then o' else f j := by
  cases o <;> simp [Function.update_apply]

/-- `zend_hash_apply_deleter` tests `p->pLast`. -/
theorem unchains_unchainByLast (ht : HashTable α) (p : Addr) :
    Unchains ht (ht.unchainByLast p) p (ht.nIndex (ht.mem p).h) := by
  refine ⟨⟨rfl, by simp, ?_, ?_⟩, fun j => update_ite .., ?_, ?_⟩ <;> intro x <;>
    simp only [HashTable.chNext, HashTable.chLast, HashTable.unchainByLast,
      HashTable.storeAt_mem, HashTable.setNext_mem] <;> split <;> split <;> simp_all

/-- `zend_hash_update_current_key_ex` takes the bucket that is moved out of its chain. -/
theorem unchains_rechainOut (ht : HashTable α) (p : Addr) :
    Unchains ht (ht.rechainOut p) p (ht.nIndex (ht.mem p).h) := by
  refine ⟨⟨rfl, by simp, ?_, ?_⟩, fun j => update_ite .., ?_, ?_⟩ <;> intro x <;>
    simp only [HashTable.chNext, HashTable.chLast, HashTable.rechainOut,
      HashTable.storeAt_mem, HashTable.setNext_mem] <;> split <;> split <;> simp_all

theorem unchains_unchain {c : List Addr} (h : Chains ht c ch) (hp : p ∈ c)
    (hi : ht.nIndex (ht.mem p).h = i) (hlt : i < ht.nTableSize) :
    Unchains ht (ht.unchain p i) p i := by
  have hfirst := h.head_iff hp hi hlt
  have hframe : ht.unchain p i =
      { ht with mem := (ht.unchain p i).mem, arBuckets := (ht.unchain p i).arBuckets } := by
    unfold HashTable.unchain
    dsimp only
    split <;> rfl
  by_cases hf : ht.arBuckets i = some p
  · have hl : (ht.mem p).pLast = none := hfirst.mp hf
    have he : ht.unchain p i = (ht.setBucket i (ht.mem p).pNext).storeAt (ht.mem p).pNext
        fun b => { b with pLast := none } := by
      simp [HashTable.unchain, hf, hl]
    refine ⟨⟨hframe, by simp, ?_, ?_⟩, ?_, ?_, ?_⟩ <;> intro x <;> rw [he] <;>
      simp only [HashTable.chNext, HashTable.chLast, HashTable.storeAt_mem,
        HashTable.storeAt_arBuckets, HashTable.setBucket_mem, HashTable.setBucket_arBuckets, hl]
    · split <;> rfl
    · split <;> rfl
    · simp [Function.update_apply]
    · split <;> simp
    · split <;> simp
  · have hl : (ht.mem p).pLast ≠ none := fun hl => hf (hfirst.mpr hl)
    have he : ht.unchain p i = (ht.storeAt (ht.mem p).pLast
        fun b => { b with pNext := (ht.mem p).pNext }).storeAt (ht.mem p).pNext
        fun b => { b with pLast := (ht.mem p).pLast } := by
      simp [HashTable.unchain, hf]
    refine ⟨⟨hframe, by simp, ?_, ?_⟩, ?_, ?_, ?_⟩ <;> intro x <;> rw [he] <;>
      simp only [HashTable.chNext, HashTable.chLast, HashTable.storeAt_mem,
        HashTable.storeAt_arBuckets]
    · split <;> split <;> rfl
    · split <;> split <;> rfl
    · simp [hl]
    · clear hframe he
      split <;> split <;> simp_all
    · clear hframe he
      split <;> split <;> simp_all

/-! ## The invariant under the three kinds of step -/

theorem InvCore.nIndex_lt (h : InvCore ht l) (n : UInt64) : ht.nIndex n < ht.nTableSize := by
  obtain ⟨k, -, -, hk⟩ := h.size
  have hpos : 0 < ht.nTableSize := hk ▸ Nat.two_pow_pos k
  unfold HashTable.nIndex
  rcases h.mask with ⟨h0, -⟩ | hm
  · simpa [h0] using hpos
  · rw [hm]
    exact (Nat.and_le_right).trans_lt (by omega)

theorem ChainStep.core (hs : ChainStep ht ht') (h : InvCore ht l) : InvCore ht' l := by
  have hf := hs.frame
  refine ⟨h.list.congr ?_ ?_ ?_ (fun a _ => hs.listNext a) (fun a _ => hs.listLast a),
    ?_, ?_, ?_, ?_, fun a ha => (h.keys a ha).congr (hs.payload a), ?_⟩
  · rw [hf]
  · rw [hf]
  · rw [hf]; exact h.list.pointer
  · rw [hf]; exact h.live
  · rw [hf]; exact h.count
  · rw [hf]; exact h.size
  · rw [hf]; exact h.mask
  · intro a ha b hb
    rw [(h.keys a ha).keyOf_eq (hs.payload a), (h.keys b hb).keyOf_eq (hs.payload b)]
    exact h.distinct a ha b hb

/-- **Deletion.** A bucket that was taken out of its chain is taken out of the list,
destroyed, freed and uncounted. -/
theorem Inv.delete (h : Inv ht (s ++ p :: t))
    (hu : Unchains ht ht' p (ht.nIndex (ht.mem p).h)) :
    Inv { ((ht'.unlist p).callDestructor p).pefree p with
      nNumOfElements := ht.nNumOfElements - 1 } (s ++ t) := by
  obtain ⟨ch, hch⟩ := h.chains
  have hf := hu.frame
  have hnd := h.list.nodup
  have hlt := h.nIndex_lt (ht.mem p).h
  have hsub : ∀ x ∈ s ++ t, x ∈ s ++ p :: t := fun x hx => by simp at hx ⊢; tauto
  have hpst : p ∉ s ++ t := by
    have hp : (s ++ p :: t).Perm (p :: (s ++ t)) := List.perm_middle
    exact (List.nodup_cons.mp (hp.nodup_iff.mp hnd)).1
  have hcore : InvCore ht' (s ++ p :: t) := hu.toChainStep.core h.toInvCore
  have hlist := hcore.list.unlist
  obtain ⟨ch', hchain⟩ : ∃ ch', Chains ht' ((s ++ p :: t).filter (· ≠ p)) ch' :=
    ⟨_, hch.erase (by simp) rfl hlt (by rw [hf]) (by rw [hf])
      (fun x _ => h_of_payload (hu.payload x)) hu.arBuckets hu.chNext hu.chLast⟩
  have hpay : ∀ x, ((ht'.unlist p).mem x).payload = (ht.mem x).payload := by
    intro x
    rw [HashTable.payload_unlist, hu.payload]
  have hkeys : ∀ a ∈ s ++ t, KeyOk ht a := fun a ha => h.keys a (hsub a ha)
  refine ⟨⟨hlist.congr rfl rfl hlist.pointer (fun _ _ => rfl) (fun _ _ => rfl), ?_, ?_, ?_, ?_,
    fun a ha => (hkeys a ha).congr (hpay a), ?_⟩, ?_⟩
  · show (ht'.live).erase p = (s ++ t).toFinset
    rw [hcore.live]
    ext x
    by_cases hx : x = p
    · subst hx; simpa using hpst
    · simp [hx]
  · show ht.nNumOfElements - 1 = (s ++ t).length
    rw [h.count]
    simp only [List.length_append, List.length_cons]
    omega
  · show ∃ k, 3 ≤ k ∧ k ≤ 31 ∧ ht'.nTableSize = 2 ^ k
    rw [hf]; exact h.size
  · show ht'.nTableMask = 0 ∧ _ ∨ ht'.nTableMask = ht'.nTableSize - 1
    rcases hcore.mask with ⟨-, he⟩ | hm
    · simp at he
    · exact Or.inr hm
  · intro a ha b hb hab
    refine h.distinct a (hsub a ha) b (hsub b hb) ?_
    rw [← (hkeys a ha).keyOf_eq (hpay a), ← (hkeys b hb).keyOf_eq (hpay b)]
    exact hab
  · refine ⟨ch', Chains.of_mem_iff (c := (s ++ p :: t).filter (· ≠ p)) ?_ ?_⟩
    · exact hchain.congr rfl rfl (fun _ _ => rfl)
        (fun a _ => h_of_payload (HashTable.payload_unlist ht' p a))
        (fun a _ => HashTable.unlist_chNext ht' p a) (fun a _ => HashTable.unlist_chLast ht' p a)
    · intro a
      simp only [List.mem_filter, decide_eq_true_eq]
      constructor
      · exact fun ha => ⟨hsub a ha, fun hap => hpst (hap ▸ ha)⟩
      · rintro ⟨ha, hap⟩
        simp at ha ⊢
        tauto

/-- **Insertion.** A block outside the table that holds a new key in good order is put
into the table. -/
theorem Inv.insert (h : Inv ht l) (hm : ht.nTableMask = ht.nTableSize - 1) (hp : p ∉ l)
    (hf : ht' = { ht with mem := ht'.mem, live := insert p ht.live })
    (hmem : ∀ x, x ≠ p → ht'.mem x = ht.mem x) (hk : KeyOk ht' p)
    (hnew : ∀ a ∈ l, ht.keyOf a ≠ ht'.keyOf p) :
    Inv { ht'.linkBucket p (ht'.nIndex (ht'.mem p).h) with
      nNumOfElements := ht.nNumOfElements + 1 } (l ++ [p]) := by
  obtain ⟨ch, hch⟩ := h.chains
  have hne : ∀ x ∈ l, x ≠ p := fun x hx hxp => hp (hxp ▸ hx)
  have hmem' : ∀ x ∈ l, ht'.mem x = ht.mem x := fun x hx => hmem x (hne x hx)
  have hlist : ListOk ht' l := h.list.congr (by rw [hf]) (by rw [hf])
    (by rw [hf]; exact h.list.pointer) (fun a ha => by rw [hmem' a ha])
    (fun a ha => by rw [hmem' a ha])
  have hchain : Chains ht' l ch := hch.congr (by rw [hf]) (by rw [hf])
    (fun i _ => by rw [hf]) (fun a ha => by rw [hmem' a ha]) (fun a ha => by rw [hmem' a ha])
    (fun a ha => by rw [hmem' a ha])
  have hlt : ht'.nIndex (ht'.mem p).h < ht'.nTableSize := by
    have := h.nIndex_lt (ht'.mem p).h
    rw [hf]; exact this
  generalize hi : ht'.nIndex (ht'.mem p).h = i at *
  obtain ⟨ch', hc⟩ : ∃ ch', Chains
      ((ht'.connectToBucketDllist p (ht'.arBuckets i)).setBucket i (some p)) (p :: l) ch' :=
    ⟨_, hchain.connect hp hi hlt⟩
  have hcomm : ht'.linkBucket p i =
      ((ht'.connectToBucketDllist p (ht'.arBuckets i)).setBucket i (some p)).connectToGlobalDllist
        p := rfl
  have hl2 : ListOk (ht'.linkBucket p i) (l ++ [p]) := by
    rw [hcomm]
    refine ListOk.connectToGlobalDllist (l := l) ?_ hp
    exact hlist.congr rfl rfl hlist.pointer
      (fun a _ => HashTable.connectToBucketDllist_listNext ..)
      (fun a _ => HashTable.connectToBucketDllist_listLast ..)
  have hpay : ∀ x, ((ht'.linkBucket p i).mem x).payload = (ht'.mem x).payload :=
    fun x => HashTable.payload_linkBucket ..
  have hkeys : ∀ a ∈ l, KeyOk ht' a := fun a ha =>
    (h.keys a ha).congr (by rw [hmem' a ha])
  have hkeys' : ∀ a ∈ l ++ [p], KeyOk ht' a := by
    intro a ha
    rw [List.mem_append, List.mem_singleton] at ha
    rcases ha with ha | rfl
    · exact hkeys a ha
    · exact hk
  have hkeyOf : ∀ a ∈ l, ht'.keyOf a = ht.keyOf a := fun a ha =>
    (h.keys a ha).keyOf_eq (by rw [hmem' a ha])
  refine ⟨⟨hl2.congr rfl rfl hl2.pointer (fun _ _ => rfl) (fun _ _ => rfl), ?_, ?_, ?_, ?_,
    fun a ha => (hkeys' a ha).congr (hpay a), ?_⟩, ?_⟩
  · have hlive : ht'.live = Insert.insert p ht.live := by rw [hf]
    simp only [HashTable.linkBucket_live, hlive, h.live]
    ext x
    simp
  · simp [h.count]
  · have hsize : ht'.nTableSize = ht.nTableSize := by rw [hf]
    simp only [HashTable.linkBucket_nTableSize, hsize]
    exact h.size
  · right
    have hsize : ht'.nTableSize = ht.nTableSize := by rw [hf]
    have hmask : ht'.nTableMask = ht.nTableMask := by rw [hf]
    simp only [HashTable.linkBucket_nTableSize, HashTable.linkBucket_nTableMask, hsize, hmask, hm]
  · intro a ha b hb hab
    have hab' : ht'.keyOf a = ht'.keyOf b := by
      rw [← (hkeys' a ha).keyOf_eq (hpay a), ← (hkeys' b hb).keyOf_eq (hpay b)]
      exact hab
    rw [List.mem_append, List.mem_singleton] at ha hb
    rcases ha with ha | rfl <;> rcases hb with hb | rfl
    · rw [hkeyOf a ha, hkeyOf b hb] at hab'
      exact h.distinct a ha b hb hab'
    · rw [hkeyOf a ha] at hab'
      exact absurd hab' (hnew a ha)
    · rw [hkeyOf b hb] at hab'
      exact absurd hab'.symm (hnew b hb)
    · rfl
  · refine ⟨ch', Chains.of_mem_iff (c := p :: l) ?_ (by simp [or_comm])⟩
    rw [hcomm]
    exact hc.congr rfl rfl (fun _ _ => rfl)
      (fun a _ => h_of_payload (HashTable.payload_connectToGlobalDllist ..))
      (fun a _ => HashTable.connectToGlobalDllist_chNext ..)
      (fun a _ => HashTable.connectToGlobalDllist_chLast ..)

end PhpRuntime.Hash
