import PhpRuntime.Lib.LinkedSegment
import PhpRuntime.Hash.Operations

/-!
# The two intrusive lists of the hash table

Every bucket sits in two doubly linked lists: the list of all buckets, in insertion order,
and the chain of its slot in `arBuckets`. `ListOk` and `Chains` say what each is in terms
of ghost lists of addresses. The lemmas here take the linking steps of
`PhpRuntime.Hash.Operations` one at a time; a step on one list leaves the other alone
because it stores to other fields (`ListOk.congr`, `Chains.congr`).
-/

set_option autoImplicit false

namespace PhpRuntime.Hash

open PhpRuntime.Lib (Seg)

variable {α : Type} {ht ht' : HashTable α} {l s t c : List Addr} {p q a : Addr}
  {ch : ℕ → List Addr} {i : ℕ}

namespace HashTable

/-- `pListNext` as a function of the bucket. -/
def listNext (ht : HashTable α) (a : Addr) : Option Addr := (ht.mem a).pListNext

/-- `pListLast` as a function of the bucket. -/
def listLast (ht : HashTable α) (a : Addr) : Option Addr := (ht.mem a).pListLast

/-- `pNext` as a function of the bucket. -/
def chNext (ht : HashTable α) (a : Addr) : Option Addr := (ht.mem a).pNext

/-- `pLast` as a function of the bucket. -/
def chLast (ht : HashTable α) (a : Addr) : Option Addr := (ht.mem a).pLast

end HashTable

/-- The list of all buckets is `l`, head to tail, and the internal pointer is on it. -/
structure ListOk (ht : HashTable α) (l : List Addr) : Prop where
  head : ht.pListHead = l.head?
  tail : ht.pListTail = l.getLast?
  seg : Seg ht.listNext ht.listLast none l none
  nodup : l.Nodup
  pointer : ∀ a, ht.pInternalPointer = some a → a ∈ l

/-- The chains hold the buckets of `c`, each in the slot of its `h`: chain `i` is
`ch i`. -/
structure Chains (ht : HashTable α) (c : List Addr) (ch : ℕ → List Addr) : Prop where
  head : ∀ i < ht.nTableSize, ht.arBuckets i = (ch i).head?
  seg : ∀ i < ht.nTableSize, Seg ht.chNext ht.chLast none (ch i) none
  nodup : ∀ i < ht.nTableSize, (ch i).Nodup
  mem : ∀ i < ht.nTableSize, ∀ a, a ∈ ch i ↔ a ∈ c ∧ ht.nIndex (ht.mem a).h = i

/-! ## The list of all buckets -/

theorem ListOk.congr (h : ListOk ht l) (hh : ht'.pListHead = ht.pListHead)
    (ht_ : ht'.pListTail = ht.pListTail)
    (hp : ∀ a, ht'.pInternalPointer = some a → a ∈ l)
    (hn : ∀ a ∈ l, (ht'.mem a).pListNext = (ht.mem a).pListNext)
    (hl : ∀ a ∈ l, (ht'.mem a).pListLast = (ht.mem a).pListLast) : ListOk ht' l where
  head := hh.trans h.head
  tail := ht_.trans h.tail
  seg := h.seg.congr hn hl
  nodup := h.nodup
  pointer := hp

/-- `CONNECT_TO_GLOBAL_DLLIST` appends the bucket to the list. -/
theorem ListOk.connectToGlobalDllist (h : ListOk ht l) (ha : a ∉ l) :
    ListOk (ht.connectToGlobalDllist a) (l ++ [a]) := by
  have hlast : ∀ x ∈ l, x ≠ a := fun x hx hxa => ha (hxa ▸ hx)
  have ht_ := h.tail
  refine ⟨?_, by simp [HashTable.connectToGlobalDllist], ?_, ?_, ?_⟩
  · cases l <;> simp [HashTable.connectToGlobalDllist, h.head]
  · refine h.seg.push_back h.nodup ?_ ?_ ?_ ?_
    · have : ht.pListTail ≠ some a := by
        rw [ht_]; exact fun hh => ha (List.mem_of_getLast? hh)
      simp [HashTable.listNext, HashTable.connectToGlobalDllist, this]
    · simp only [HashTable.listLast, HashTable.connectToGlobalDllist, HashTable.storeAt_mem,
        HashTable.store_mem, if_true, ht_]
      split <;> simp
    · intro x hx
      simp only [HashTable.listNext, HashTable.connectToGlobalDllist, HashTable.storeAt_mem,
        HashTable.store_mem, ht_, if_neg (hlast x hx)]
      split <;> simp
    · intro x hx
      simp only [HashTable.listLast, HashTable.connectToGlobalDllist, HashTable.storeAt_mem,
        HashTable.store_mem, if_neg (hlast x hx)]
      split <;> simp
  · exact List.nodup_append.mpr ⟨h.nodup, by simp, by simpa using fun x hx => hlast x hx⟩
  · intro b hb
    simp only [HashTable.connectToGlobalDllist, HashTable.storeAt_pInternalPointer,
      HashTable.store_pInternalPointer] at hb
    cases hp : ht.pInternalPointer with
    | none => simp [hp] at hb; simp [hb]
    | some c =>
      simp only [hp, Option.some_or, Option.some_inj] at hb
      simp [← hb, h.pointer c hp]

theorem unlist_links (ht : HashTable α) (p x : Addr) :
    (ht.unlist p).listNext x =
        (if ht.listLast p = some x then ht.listNext p else ht.listNext x) ∧
      (ht.unlist p).listLast x =
        if ht.listNext p = some x then ht.listLast p else ht.listLast x := by
  simp only [HashTable.listNext, HashTable.listLast, HashTable.unlist,
    HashTable.setListLast_mem, HashTable.setListNext_mem]
  constructor <;> split <;> split <;> simp [*]

theorem ListOk.unlist (h : ListOk ht (s ++ p :: t)) : ListOk (ht.unlist p) (s ++ t) := by
  obtain ⟨hlast, hnext⟩ := h.seg.at_middle
  simp only [Option.or_none] at hlast hnext
  have hnd := h.nodup
  refine ⟨?_, ?_, ?_, ?_, ?_⟩
  · have hh := h.head
    have hl : (ht.mem p).pListLast = s.getLast? := hlast
    have hn : (ht.mem p).pListNext = t.head? := hnext
    simp only [HashTable.unlist, HashTable.setListLast_pListHead, HashTable.setListNext_pListHead,
      hl, hn, hh]
    cases s <;> simp
  · have hh := h.tail
    have hl : (ht.mem p).pListLast = s.getLast? := hlast
    have hn : (ht.mem p).pListNext = t.head? := hnext
    simp only [HashTable.unlist, HashTable.setListLast_pListTail, HashTable.setListNext_pListTail,
      hl, hn, hh]
    cases t <;> simp [List.getLast?_append]
  · exact h.seg.erase hnd (fun x _ => (unlist_links ht p x).1)
      (fun x _ => (unlist_links ht p x).2)
  · exact hnd.sublist (List.Sublist.append_left (List.sublist_cons_self p t) s)
  · intro a ha
    simp only [HashTable.unlist, HashTable.setListLast_pInternalPointer,
      HashTable.setListNext_pInternalPointer] at ha
    split at ha
    · have : a ∈ t := List.mem_of_head? (hnext ▸ ha)
      simp [this]
    · rename_i hne
      have := h.pointer a ha
      have hap : a ≠ p := fun hap => hne (hap ▸ ha)
      simpa [hap] using this

theorem ListOk.moveBucket (h : ListOk ht (s ++ p :: t)) (malloc : Malloc)
    (hlive : ht.live = (s ++ p :: t).toFinset) (n : ℕ) :
    ListOk (ht.moveBucket malloc p n).2 (s ++ malloc.addr ht.live :: t) := by
  obtain ⟨hlast, hnext⟩ := h.seg.at_middle
  simp only [Option.or_none] at hlast hnext
  have hl : (ht.mem p).pListLast = s.getLast? := hlast
  have hn : (ht.mem p).pListNext = t.head? := hnext
  have hnd := h.nodup
  have hq : malloc.addr ht.live ∉ s ++ p :: t := by
    have := malloc.fresh ht.live
    rwa [hlive, List.mem_toFinset, ← hlive] at this
  have hmem : ∀ x, (ht.moveBucket malloc p n).2.mem x =
      (let q := malloc.addr ht.live
       let b := if x = q then { ht.mem x with
          nKeyLength := n
          pData := (ht.mem p).pData
          pListNext := t.head?
          pListLast := s.getLast? } else ht.mem x
       let b := if t.head? = some x then { b with pListLast := some q } else b
       if s.getLast? = some x then { b with pListNext := some q } else b) := by
    intro x
    rw [← hl, ← hn]
    rfl
  have hxq : ∀ x ∈ s ++ p :: t, x ≠ malloc.addr ht.live := fun x hx hxq => hq (hxq ▸ hx)
  have hqt : t.head? ≠ some (malloc.addr ht.live) :=
    fun e => hq (by simp [List.mem_of_head? e])
  have hqs : s.getLast? ≠ some (malloc.addr ht.live) :=
    fun e => hq (by simp [List.mem_of_getLast? e])
  refine ⟨?_, ?_, ?_, ?_, ?_⟩
  · have hh := h.head
    simp only [HashTable.moveBucket, HashTable.pefree_pListHead, HashTable.setListNext_pListHead,
      HashTable.setListLast_pListHead, HashTable.store_pListHead, HashTable.pemalloc, hl, hh]
    cases s <;> simp
  · have hh := h.tail
    simp only [HashTable.moveBucket, HashTable.pefree_pListTail, HashTable.setListNext_pListTail,
      HashTable.setListLast_pListTail, HashTable.store_pListTail, HashTable.pemalloc, hn, hh]
    cases t <;> simp [List.getLast?_append]
  · refine h.seg.subst hnd ?_ ?_ ?_ ?_
    · simp [HashTable.listNext, hmem, hqs, hqt, hn]
    · simp [HashTable.listLast, hmem, hqs, hqt, hl]
    · intro x hx
      have := hxq x (by simp at hx; simp; tauto)
      simp only [HashTable.listNext, HashTable.listLast, hmem, hl, this, if_false]
      split <;> split <;> rfl
    · intro x hx
      have := hxq x (by simp at hx; simp; tauto)
      simp only [HashTable.listNext, HashTable.listLast, hmem, hn, this, if_false]
      split <;> split <;> rfl
  · have hp : (s ++ p :: t).Perm (p :: (s ++ t)) := List.perm_middle
    have hq' : (s ++ malloc.addr ht.live :: t).Perm (malloc.addr ht.live :: (s ++ t)) :=
      List.perm_middle
    rw [hp.nodup_iff, List.nodup_cons] at hnd
    rw [hq'.nodup_iff, List.nodup_cons]
    exact ⟨fun hx => hq (by simp at hx; simp; tauto), hnd.2⟩
  · intro a ha
    have ha' : (if ht.pInternalPointer = some p then some (malloc.addr ht.live)
        else ht.pInternalPointer) = some a := ha
    split at ha'
    · simp at ha'; simp [ha']
    · rename_i hne
      have hm := h.pointer a ha'
      have hap : a ≠ p := fun e => hne (e ▸ ha')
      simp [hap] at hm
      simp
      tauto

/-! ## The chains -/

theorem Chains.congr (h : Chains ht c ch) (hs : ht'.nTableSize = ht.nTableSize)
    (hm : ht'.nTableMask = ht.nTableMask)
    (hb : ∀ i < ht.nTableSize, ht'.arBuckets i = ht.arBuckets i)
    (hh : ∀ a ∈ c, (ht'.mem a).h = (ht.mem a).h)
    (hn : ∀ a ∈ c, (ht'.mem a).pNext = (ht.mem a).pNext)
    (hl : ∀ a ∈ c, (ht'.mem a).pLast = (ht.mem a).pLast) : Chains ht' c ch := by
  have hc : ∀ i < ht.nTableSize, ∀ a ∈ ch i, a ∈ c := fun i hi a ha => ((h.mem i hi a).mp ha).1
  refine ⟨?_, ?_, ?_, ?_⟩ <;> rw [hs]
  · exact fun i hi => (hb i hi).trans (h.head i hi)
  · exact fun i hi => (h.seg i hi).congr (fun a ha => hn a (hc i hi a ha))
      (fun a ha => hl a (hc i hi a ha))
  · exact h.nodup
  · intro i hi a
    rw [h.mem i hi a]
    refine and_congr_right fun ha => ?_
    rw [HashTable.nIndex, HashTable.nIndex, hh a ha, hm]

theorem Chains.of_mem_iff (h : Chains ht c ch) {c' : List Addr} (hc : ∀ a, a ∈ c' ↔ a ∈ c) :
    Chains ht c' ch :=
  ⟨h.head, h.seg, h.nodup, fun i hi a => by rw [h.mem i hi a, hc]⟩

theorem Chains.connect (h : Chains ht c ch) (hp : p ∉ c) (hi : ht.nIndex (ht.mem p).h = i)
    (hlt : i < ht.nTableSize) :
    Chains ((ht.connectToBucketDllist p (ht.arBuckets i)).setBucket i (some p)) (p :: c)
      (Function.update ch i (p :: ch i)) := by
  have hpc : ∀ j < ht.nTableSize, ∀ x ∈ ch j, x ≠ p :=
    fun j hj x hx hxp => hp (hxp ▸ ((h.mem j hj x).mp hx).1)
  have hhead := h.head i hlt
  have hmem : ∀ x, ((ht.connectToBucketDllist p (ht.arBuckets i)).setBucket i (some p)).mem x =
      (let b := if x = p then { ht.mem x with pNext := (ch i).head?, pLast := none } else ht.mem x
       if (ch i).head? = some x then { b with pLast := some p } else b) := by
    intro x
    rw [← hhead]
    rfl
  have hself : (ch i).head? ≠ some p := fun hh => hpc i hlt p (List.mem_of_head? hh) rfl
  refine ⟨?_, ?_, ?_, ?_⟩
  · intro j hj
    by_cases hji : j = i
    · subst hji; simp
    · simpa [hji, HashTable.connectToBucketDllist] using h.head j hj
  · intro j hj
    by_cases hji : j = i
    · subst hji
      rw [Function.update_self]
      refine (h.seg j hj).push_front (h.nodup j hj) ?_ ?_ ?_ ?_
      · simp only [HashTable.chNext, hmem, if_true, if_neg hself]
      · simp only [HashTable.chLast, hmem, if_true, if_neg hself]
      · intro x hx
        simp only [HashTable.chNext, hmem, if_neg (hpc j hj x hx)]
        split <;> rfl
      · intro x hx
        simp only [HashTable.chLast, hmem, if_neg (hpc j hj x hx)]
        split <;> rfl
    · rw [Function.update_of_ne hji]
      refine (h.seg j hj).congr ?_ ?_
      · intro x hx
        simp only [HashTable.chNext, hmem, if_neg (hpc j hj x hx)]
        split <;> rfl
      · intro x hx
        have hx' : (ch i).head? ≠ some x := by
          intro hh
          have h1 := ((h.mem i hlt x).mp (List.mem_of_head? hh)).2
          exact hji (((h.mem j hj x).mp hx).2.symm.trans h1)
        simp only [HashTable.chLast, hmem, if_neg (hpc j hj x hx), if_neg hx']
  · intro j hj
    by_cases hji : j = i
    · subst hji
      rw [Function.update_self]
      exact List.nodup_cons.mpr ⟨fun hx => hpc j hj p hx rfl, h.nodup j hj⟩
    · rw [Function.update_of_ne hji]
      exact h.nodup j hj
  · intro j hj x
    have hh : (((ht.connectToBucketDllist p (ht.arBuckets i)).setBucket i (some p)).mem x).h =
        (ht.mem x).h := by
      rw [hmem]; dsimp only; split <;> split <;> rfl
    have hidx : ((ht.connectToBucketDllist p (ht.arBuckets i)).setBucket i (some p)).nIndex
        (ht.mem x).h = ht.nIndex (ht.mem x).h := rfl
    rw [hh, hidx]
    by_cases hji : j = i
    · subst hji
      rw [Function.update_self, List.mem_cons, List.mem_cons, h.mem j hj x, or_and_right]
      refine or_congr_left ⟨fun hx => ⟨hx, by rw [hx, hi]⟩, And.left⟩
    · rw [Function.update_of_ne hji, h.mem j hj x, List.mem_cons, or_and_right]
      refine ⟨Or.inr, ?_⟩
      rintro (⟨rfl, hx⟩ | hx)
      · exact absurd (hx.symm.trans hi) hji
      · exact hx

theorem Chains.head_iff (h : Chains ht c ch) (hp : p ∈ c) (hi : ht.nIndex (ht.mem p).h = i)
    (hlt : i < ht.nTableSize) : ht.arBuckets i = some p ↔ ht.chLast p = none := by
  have hpi : p ∈ ch i := (h.mem i hlt p).mpr ⟨hp, hi⟩
  obtain ⟨s, t, hst⟩ := List.append_of_mem hpi
  have hseg := h.seg i hlt
  have hnd := h.nodup i hlt
  rw [h.head i hlt, hst] at *
  rw [(hseg.at_middle).1, Option.or_none]
  rcases s with _ | ⟨b, s⟩
  · simp
  · have : b ≠ p := by
      rintro rfl
      simp at hnd
    simp [this]

/-- **Removal from a chain**, stated on what the step leaves in the links and slots. -/
theorem Chains.erase (h : Chains ht c ch) (hp : p ∈ c) (hi : ht.nIndex (ht.mem p).h = i)
    (hlt : i < ht.nTableSize)
    (hs : ht'.nTableSize = ht.nTableSize) (hm : ht'.nTableMask = ht.nTableMask)
    (hh : ∀ x ∈ c, (ht'.mem x).h = (ht.mem x).h)
    (hb : ∀ j, ht'.arBuckets j =
      if j = i ∧ ht.chLast p = none then ht.chNext p else ht.arBuckets j)
    (hn : ∀ x, ht'.chNext x = if ht.chLast p = some x then ht.chNext p else ht.chNext x)
    (hl : ∀ x, ht'.chLast x = if ht.chNext p = some x then ht.chLast p else ht.chLast x) :
    Chains ht' (c.filter (· ≠ p)) (Function.update ch i ((ch i).filter (· ≠ p))) := by
  have hpi : p ∈ ch i := (h.mem i hlt p).mpr ⟨hp, hi⟩
  have hfirst := h.head_iff hp hi hlt
  obtain ⟨s, t, hst⟩ := List.append_of_mem hpi
  have hseg := h.seg i hlt
  have hnd := h.nodup i hlt
  rw [hst] at hseg hnd
  have hfilter : (ch i).filter (· ≠ p) = s ++ t := by
    have hps : p ∉ s := fun hx => (List.nodup_append.mp hnd).2.2 p hx p (by simp) rfl
    have hpt : p ∉ t := (List.nodup_cons.mp (List.nodup_append.mp hnd).2.1).1
    have hs' : s.filter (· ≠ p) = s := List.filter_eq_self.mpr fun x hx =>
      decide_eq_true fun hxp : x = p => hps (hxp ▸ hx)
    have ht' : t.filter (· ≠ p) = t := List.filter_eq_self.mpr fun x hx =>
      decide_eq_true fun hxp : x = p => hpt (hxp ▸ hx)
    rw [hst, List.filter_append, List.filter_cons_of_neg (by simp), hs', ht']
  obtain ⟨hlastp, hnextp⟩ := hseg.at_middle
  simp only [Option.or_none] at hlastp hnextp
  -- a chain neighbour of `p` is in the chain of `p`
  have hother : ∀ j < ht.nTableSize, j ≠ i → ∀ x ∈ ch j,
      ht.chLast p ≠ some x ∧ ht.chNext p ≠ some x := by
    intro j hj hji x hx
    have hxi : x ∉ ch i := fun hxi =>
      hji (((h.mem j hj x).mp hx).2.symm.trans ((h.mem i hlt x).mp hxi).2)
    rw [hst] at hxi
    rw [hlastp, hnextp]
    exact ⟨fun e => hxi (by simp [List.mem_of_getLast? e]),
      fun e => hxi (by simp [List.mem_of_head? e])⟩
  refine ⟨?_, ?_, ?_, ?_⟩ <;> rw [hs]
  · intro j hj
    rw [hb j]
    by_cases hji : j = i
    · subst hji
      rw [Function.update_self, hfilter, hnextp, hlastp, h.head j hj, hst]
      cases s <;> simp
    · rw [if_neg (fun hc => hji hc.1), Function.update_of_ne hji, h.head j hj]
  · intro j hj
    by_cases hji : j = i
    · subst hji
      rw [Function.update_self, hfilter]
      exact hseg.erase hnd (fun x _ => hn x) (fun x _ => hl x)
    · rw [Function.update_of_ne hji]
      refine (h.seg j hj).congr ?_ ?_
      · intro x hx
        rw [hn x, if_neg (hother j hj hji x hx).1]
      · intro x hx
        rw [hl x, if_neg (hother j hj hji x hx).2]
  · intro j hj
    by_cases hji : j = i
    · subst hji
      rw [Function.update_self]
      exact (h.nodup j hj).filter _
    · rw [Function.update_of_ne hji]
      exact h.nodup j hj
  · intro j hj x
    by_cases hji : j = i
    · subst hji
      rw [Function.update_self, List.mem_filter, List.mem_filter, h.mem j hj x]
      constructor
      · rintro ⟨⟨hx, hxi⟩, hne⟩
        exact ⟨⟨hx, hne⟩, by rw [HashTable.nIndex, hh x hx, hm]; exact hxi⟩
      · rintro ⟨⟨hx, hne⟩, hxi⟩
        rw [HashTable.nIndex, hh x hx, hm] at hxi
        exact ⟨⟨hx, hxi⟩, hne⟩
    · rw [Function.update_of_ne hji, h.mem j hj x, List.mem_filter]
      constructor
      · rintro ⟨hx, hxj⟩
        refine ⟨⟨hx, ?_⟩, by rw [HashTable.nIndex, hh x hx, hm]; exact hxj⟩
        simp only [ne_eq, decide_eq_true_eq]
        rintro rfl
        exact hji (hxj.symm.trans hi)
      · rintro ⟨⟨hx, -⟩, hxj⟩
        rw [HashTable.nIndex, hh x hx, hm] at hxj
        exact ⟨hx, hxj⟩

end PhpRuntime.Hash
