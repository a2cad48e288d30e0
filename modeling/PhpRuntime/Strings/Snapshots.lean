import PhpRuntime.Strings.Table

/-!
# Snapshots of the interned strings

Restoring walks each chain from its newest bucket on and drops the buckets above the snapshot. The
chains are ordered by address, so that what it leaves are the buckets below.
-/

set_option autoImplicit false

namespace PhpRuntime.Strings

open PhpRuntime.Hash PhpRuntime.Lib

variable {ht ht' : HashTable Addr} {l c : List Addr} {p a : Addr} {top i : ℕ}

/-! ## Dropping buckets from the list -/

/-- The list of a table, what is in use, and the count. -/
structure Row (ht : HashTable Addr) (l : List Addr) : Prop where
  list : ListOk ht l
  live : ht.live = l.toFinset
  count : ht.nNumOfElements = l.length
  pointer : ht.pInternalPointer = none

/-- A table with other list links, but the same chains. -/
structure SameChains (ht ht' : HashTable Addr) : Prop where
  size : ht'.nTableSize = ht.nTableSize
  mask : ht'.nTableMask = ht.nTableMask
  arBuckets : ht'.arBuckets = ht.arBuckets
  chNext : ∀ x, ht'.chNext x = ht.chNext x
  chLast : ∀ x, ht'.chLast x = ht.chLast x
  payload : ∀ x, (ht'.mem x).payload = (ht.mem x).payload

theorem SameChains.refl (ht : HashTable Addr) : SameChains ht ht :=
  ⟨rfl, rfl, rfl, fun _ => rfl, fun _ => rfl, fun _ => rfl⟩

theorem SameChains.trans {ht'' : HashTable Addr} (h : SameChains ht ht')
    (h' : SameChains ht' ht'') : SameChains ht ht'' :=
  ⟨h'.size.trans h.size, h'.mask.trans h.mask, h'.arBuckets.trans h.arBuckets,
    fun x => (h'.chNext x).trans (h.chNext x), fun x => (h'.chLast x).trans (h.chLast x),
    fun x => (h'.payload x).trans (h.payload x)⟩

theorem dropString_sameChains (ht : HashTable Addr) (p : Addr) :
    SameChains ht (dropString ht p) := by
  refine ⟨rfl, rfl, rfl, ?_, ?_, ?_⟩
  · intro x
    simp only [dropString, HashTable.chNext, HashTable.setListLast_mem, HashTable.setListNext_mem]
    split <;> split <;> rfl
  · intro x
    simp only [dropString, HashTable.chLast, HashTable.setListLast_mem, HashTable.setListNext_mem]
    split <;> split <;> rfl
  · intro x
    simp only [dropString, HashTable.setListLast_mem, HashTable.setListNext_mem]
    split <;> split <;> rfl

theorem filter_ne_of_split {s t : List Addr} (h : (s ++ p :: t).Nodup) :
    (s ++ p :: t).filter (· ≠ p) = s ++ t := by
  rw [List.nodup_append, List.nodup_cons] at h
  obtain ⟨-, ⟨ht, -⟩, hd⟩ := h
  have hs : p ∉ s := fun hp => hd p hp p List.mem_cons_self rfl
  have hkeepS : s.filter (· ≠ p) = s :=
    List.filter_eq_self.mpr fun x hx => decide_eq_true fun e : x = p => hs (e ▸ hx)
  have hkeepT : t.filter (· ≠ p) = t :=
    List.filter_eq_self.mpr fun x hx => decide_eq_true fun e : x = p => ht (e ▸ hx)
  rw [List.filter_append, List.filter_cons_of_neg (by simp), hkeepS, hkeepT]

theorem Row.drop (h : Row ht l) (hp : p ∈ l) : Row (dropString ht p) (l.filter (· ≠ p)) := by
  obtain ⟨s, t, rfl⟩ := List.append_of_mem hp
  have hnodup := h.list.nodup
  have hun : ListOk (ht.unlist p) (s ++ t) := h.list.unlist
  rw [filter_ne_of_split hnodup]
  refine ⟨hun.congr rfl rfl ?_ (fun _ _ => rfl) (fun _ _ => rfl), ?_, ?_, h.pointer⟩
  · intro a ha
    have hnone : ht.pInternalPointer = some a := ha
    rw [h.pointer] at hnone
    simp at hnone
  · have hlive : (dropString ht p).live = ht.live.erase p := rfl
    rw [hlive, h.live, ← filter_ne_of_split hnodup]
    ext x
    simp only [List.mem_toFinset, Finset.mem_erase, List.mem_filter, decide_eq_true_eq, and_comm]
  · have hcount : (dropString ht p).nNumOfElements = ht.nNumOfElements - 1 := rfl
    rw [hcount, h.count, List.length_append, List.length_append, List.length_cons]
    omega

/-- A bucket that is dropped: its key is above the top. -/
def above (top : ℕ) (a : Addr) : Bool :=
  top < a + sizeofBucket

theorem restoreChain_spec (top : ℕ) (c : List Addr) :
    ∀ (fuel : ℕ) (ht : HashTable Addr) (l : List Addr) (pre : Option Addr), Row ht l →
      (∀ a ∈ c, a ∈ l) → c.Nodup → Seg ht.chNext ht.chLast pre c none →
      (∀ a ∈ c, Entry ht a) → c.length < fuel →
      let gone := c.takeWhile (above top)
      let r := restoreChain top fuel c.head? ht
      Row r.1 (l.filter fun a => a ∉ gone) ∧ SameChains ht r.1 ∧
        r.2 = (c.dropWhile (above top)).head? := by
  induction c with
  | nil =>
    intro fuel ht l pre hrow _ _ _ _ hf
    obtain ⟨fuel, rfl⟩ : ∃ n, fuel = n + 1 := ⟨fuel - 1, by simp at hf; omega⟩
    refine ⟨?_, SameChains.refl ht, rfl⟩
    rw [List.filter_eq_self.mpr fun a _ => by simp]
    exact hrow
  | cons p c ih =>
    intro fuel ht l pre hrow hsub hn hseg hentry hf
    obtain ⟨fuel, rfl⟩ : ∃ n, fuel = n + 1 := ⟨fuel - 1, by simp at hf; omega⟩
    obtain ⟨-, hnext, hrest⟩ := hseg
    rw [Option.or_none] at hnext
    have haddr := (hentry p List.mem_cons_self).keyAddress
    dsimp only
    rw [List.head?_cons, restoreChain, haddr]
    by_cases hgone : above top p = true
    · rw [if_pos (of_decide_eq_true hgone), List.takeWhile_cons_of_pos hgone,
        List.dropWhile_cons_of_pos hgone]
      have hsame := dropString_sameChains ht p
      have hdrop := hrow.drop (hsub p List.mem_cons_self)
      have hpc : p ∉ c := (List.nodup_cons.mp hn).1
      have hp : ((dropString ht p).mem p).pNext = c.head? := (hsame.chNext p).trans hnext
      have hsub1 : ∀ a ∈ c, a ∈ l.filter (· ≠ p) := fun a ha =>
        List.mem_filter.mpr ⟨hsub a (List.mem_cons_of_mem p ha),
          decide_eq_true fun e : a = p => hpc (e ▸ ha)⟩
      obtain ⟨hrow2, hsame2, hlast⟩ := ih fuel (dropString ht p) (l.filter (· ≠ p)) (some p) hdrop
        hsub1 (List.nodup_cons.mp hn).2
        (hrest.congr (fun x _ => hsame.chNext x) fun x _ => hsame.chLast x)
        (fun a ha => (hentry a (List.mem_cons_of_mem p ha)).congr (hsame.payload a))
        (by simp at hf; omega)
      dsimp only
      rw [hp]
      refine ⟨?_, hsame.trans hsame2, hlast⟩
      have hfilter : (l.filter fun a => a ∉ p :: c.takeWhile (above top)) =
          (l.filter (· ≠ p)).filter fun a => a ∉ c.takeWhile (above top) := by
        rw [List.filter_filter]
        apply List.filter_congr
        intro a _
        simp [Bool.and_comm]
      rw [hfilter]
      exact hrow2
    · have hstay : ¬ top < p + sizeofBucket := fun h => hgone (decide_eq_true h)
      rw [if_neg hstay, List.takeWhile_cons_of_neg hgone, List.dropWhile_cons_of_neg hgone]
      refine ⟨?_, SameChains.refl ht, rfl⟩
      rw [List.filter_eq_self.mpr fun a _ => by simp]
      exact hrow

/-! ## One slot -/

theorem takeWhile_above (top : ℕ) (h : c.Pairwise (· > ·)) :
    c.takeWhile (above top) = c.filter (above top) ∧
      c.dropWhile (above top) = c.filter fun a => !above top a := by
  induction c with
  | nil => exact ⟨rfl, rfl⟩
  | cons p c ih =>
    obtain ⟨hp, hc⟩ := List.pairwise_cons.mp h
    by_cases hgone : above top p = true
    · obtain ⟨h1, h2⟩ := ih hc
      rw [List.takeWhile_cons_of_pos hgone, List.dropWhile_cons_of_pos hgone,
        List.filter_cons_of_pos hgone, List.filter_cons_of_neg (by simpa using hgone), h1, h2]
      exact ⟨rfl, rfl⟩
    · have hstay : ∀ a ∈ c, ¬ above top a = true := by
        intro a ha hgone'
        have hlt : a < p := hp a ha
        apply hgone
        apply decide_eq_true
        exact Nat.lt_trans (of_decide_eq_true hgone') (Nat.add_lt_add_right hlt _)
      rw [List.takeWhile_cons_of_neg hgone, List.dropWhile_cons_of_neg hgone,
        List.filter_cons_of_neg hgone, List.filter_cons_of_pos (by simpa using hgone),
        List.filter_eq_nil_iff.mpr hstay, List.filter_eq_self.mpr fun a ha => by
          simpa using hstay a ha]
      exact ⟨rfl, rfl⟩

theorem slotOf_pairwise (ht : HashTable Addr) (h : l.Pairwise (· < ·)) (i : ℕ) :
    (ht.slotOf l i).Pairwise (· > ·) := by
  unfold HashTable.slotOf
  rw [List.pairwise_reverse]
  exact h.filter _

/-- A list without the dropped buckets of a slot. -/
def remaining (ht : HashTable Addr) (top i : ℕ) (l : List Addr) : List Addr :=
  l.filter fun a => !above top a || ht.nIndex (ht.mem a).h ≠ i

theorem remaining_eq (h : ∀ a, a ∈ c ↔ a ∈ l ∧ ht.nIndex (ht.mem a).h = i) :
    (l.filter fun a => a ∉ c.filter (above top)) = remaining ht top i l := by
  apply List.filter_congr
  intro a ha
  by_cases hgone : above top a = true
  · by_cases hi : ht.nIndex (ht.mem a).h = i
    · have hc : a ∈ c := (h a).mpr ⟨ha, hi⟩
      simp [hgone, hi, hc]
    · have hc : a ∉ c := fun hc => hi ((h a).mp hc).2
      simp [hgone, hi, hc]
  · simp [hgone]

theorem storeAt_last_mem (ht : HashTable Addr) (p : Option Addr) (x : Addr) :
    ((ht.storeAt p fun b => { b with pLast := none }).mem x).payload = (ht.mem x).payload ∧
      (ht.storeAt p fun b => { b with pLast := none }).chNext x = ht.chNext x ∧
      (ht.storeAt p fun b => { b with pLast := none }).chLast x =
        if p = some x then none else ht.chLast x := by
  simp only [HashTable.chNext, HashTable.chLast, HashTable.storeAt_mem]
  split
  · exact ⟨rfl, rfl, rfl⟩
  · exact ⟨rfl, rfl, rfl⟩

theorem Row.storeAt_last (h : Row ht l) (p : Option Addr) (i : ℕ) :
    Row ((ht.storeAt p fun b => { b with pLast := none }).setBucket i p) l := by
  refine ⟨h.list.congr rfl rfl h.list.pointer ?_ ?_, h.live, h.count, h.pointer⟩
  · intro a _
    simp only [HashTable.setBucket_mem, HashTable.storeAt_mem]
    split <;> rfl
  · intro a _
    simp only [HashTable.setBucket_mem, HashTable.storeAt_mem]
    split <;> rfl

theorem mem_slotOf : a ∈ ht.slotOf l i ↔ a ∈ l ∧ ht.nIndex (ht.mem a).h = i := by
  unfold HashTable.slotOf
  rw [List.mem_reverse, List.mem_filter, decide_eq_true_eq]

theorem slotOf_remaining (ht : HashTable Addr) (top i j : ℕ) (l : List Addr) :
    ht.slotOf (remaining ht top i l) j =
      if j = i then (ht.slotOf l i).filter fun a => !above top a else ht.slotOf l j := by
  unfold HashTable.slotOf remaining
  split
  · rename_i hji
    subst hji
    rw [List.filter_reverse, List.filter_filter, List.filter_filter]
    congr 1
    apply List.filter_congr
    intro a _
    by_cases hj : ht.nIndex (ht.mem a).h = j
    · simp [hj]
    · simp [hj]
  · rename_i hji
    rw [List.filter_filter]
    congr 1
    apply List.filter_congr
    intro a _
    by_cases hj : ht.nIndex (ht.mem a).h = j
    · simp [hj, hji]
    · simp [hj]

theorem Chains.cut {p : Option Addr} (h : Chains ht l (ht.slotOf l)) (hi : i < ht.nTableSize)
    (hsorted : l.Pairwise (· < ·)) (hp : p = ((ht.slotOf l i).filter fun a => !above top a).head?)
    (hsize : ht'.nTableSize = ht.nTableSize) (hmask : ht'.nTableMask = ht.nTableMask)
    (hb : ht'.arBuckets = Function.update ht.arBuckets i p)
    (hn : ∀ x, ht'.chNext x = ht.chNext x)
    (hl : ∀ x, ht'.chLast x = if p = some x then none else ht.chLast x)
    (hpay : ∀ x, (ht'.mem x).payload = (ht.mem x).payload) :
    Chains ht' (remaining ht top i l) (ht'.slotOf (remaining ht top i l)) := by
  have hslots : ht'.slotOf (remaining ht top i l) = ht.slotOf (remaining ht top i l) :=
    slotOf_congr hmask fun a _ => h_of_payload (hpay a)
  rw [hslots]
  refine ⟨?_, ?_, ?_, ?_⟩ <;> rw [hsize] <;> intro j hj
  · rw [hb, slotOf_remaining]
    by_cases hji : j = i
    · rw [if_pos hji, hji, Function.update_self, hp]
    · rw [if_neg hji, Function.update_of_ne hji, h.head j hj]
  · rw [slotOf_remaining]
    by_cases hji : j = i
    · rw [if_pos hji]
      obtain ⟨-, hdrop⟩ := takeWhile_above top (slotOf_pairwise ht hsorted i)
      have hcut := List.takeWhile_append_dropWhile (p := above top) (l := ht.slotOf l i)
      have hseg := h.seg i hi
      rw [← hcut, Seg.append_iff, hdrop] at hseg
      refine hseg.2.relink_head ((h.nodup i hi).filter _) (fun x _ => hn x) ?_
      intro x _
      rw [hl x, hp]
    · rw [if_neg hji]
      refine (h.seg j hj).congr (fun x _ => hn x) ?_
      intro x hx
      have hpx : p ≠ some x := by
        intro e
        rw [hp] at e
        have hxi := (List.mem_filter.mp (List.mem_of_head? e)).1
        exact hji ((mem_slotOf.mp hx).2.symm.trans (mem_slotOf.mp hxi).2)
      rw [hl x, if_neg hpx]
  · rw [slotOf_remaining]
    split
    · exact (h.nodup i hi).filter _
    · exact h.nodup j hj
  · intro a
    rw [mem_slotOf, HashTable.nIndex, HashTable.nIndex, hmask, h_of_payload (hpay a)]

theorem Listed.restoreSlot (top : ℕ) (h : Listed ht l) (hsorted : l.Pairwise (· < ·))
    (hi : i < ht.nTableSize) :
    Listed (restoreSlot top ht i) (remaining ht top i l) ∧
      (∀ x, ((restoreSlot top ht i).mem x).payload = (ht.mem x).payload) ∧
      (restoreSlot top ht i).nTableSize = ht.nTableSize ∧
      (restoreSlot top ht i).nTableMask = ht.nTableMask := by
  have hmem := h.chains.mem i hi
  have hchain := slotOf_pairwise ht hsorted i
  have hsub : ∀ a ∈ ht.slotOf l i, a ∈ l := fun a ha => ((hmem a).mp ha).1
  have hlen : (ht.slotOf l i).length < ht.loopBound := by
    rw [h.core.loopBound_eq]
    apply Nat.lt_succ_of_le
    exact List.Subperm.length_le (List.subperm_of_subset (h.chains.nodup i hi) hsub)
  obtain ⟨hrow, hsame, hlast⟩ := restoreChain_spec top (ht.slotOf l i) ht.loopBound ht l
    none ⟨h.core.list, h.core.live, h.core.count, h.pointer⟩ hsub (h.chains.nodup i hi)
    (h.chains.seg i hi) (fun a ha => h.entry a (hsub a ha)) hlen
  obtain ⟨htake, hdrop⟩ := takeWhile_above top hchain
  unfold Strings.restoreSlot
  rw [h.chains.head i hi]
  rw [htake, remaining_eq hmem] at hrow
  rw [hdrop] at hlast
  generalize restoreChain top ht.loopBound (ht.slotOf l i).head? ht = r at *
  obtain ⟨ht1, p⟩ := r
  dsimp only at hrow hsame hlast ⊢
  have hrow2 := hrow.storeAt_last p i
  have hstore := storeAt_last_mem ht1 p
  generalize hht2 : (ht1.storeAt p fun b => { b with pLast := none }).setBucket i p = ht2 at *
  have hsize : ht2.nTableSize = ht.nTableSize := by
    rw [← hht2]
    exact hsame.size
  have hmask : ht2.nTableMask = ht.nTableMask := by
    rw [← hht2]
    exact hsame.mask
  have hpay : ∀ x, (ht2.mem x).payload = (ht.mem x).payload := by
    intro x
    rw [← hht2]
    exact (hstore x).1.trans (hsame.payload x)
  have hb : ht2.arBuckets = Function.update ht.arBuckets i p := by
    rw [← hht2, ← hsame.arBuckets]
    rfl
  have hn : ∀ x, ht2.chNext x = ht.chNext x := by
    intro x
    rw [← hht2]
    exact (hstore x).2.1.trans (hsame.chNext x)
  have hl : ∀ x, ht2.chLast x = if p = some x then none else ht.chLast x := by
    intro x
    rw [← hht2, ← hsame.chLast x]
    exact (hstore x).2.2
  have hkept : ∀ a ∈ remaining ht top i l, a ∈ l := fun a ha => (List.mem_filter.mp ha).1
  have hkeys : ∀ a ∈ l, ht2.keyOf a = ht.keyOf a :=
    fun a ha => (h.core.keys a ha).keyOf_eq (hpay a)
  refine ⟨⟨⟨hrow2.list, hrow2.live, hrow2.count, ?_, ?_, ?_, ?_⟩, ?_, ?_, hrow2.pointer, ?_⟩, hpay,
    hsize, hmask⟩
  · rw [hsize]
    exact h.core.size
  · right
    rw [hsize, hmask]
    exact h.mask
  · exact fun a ha => (h.core.keys a (hkept a ha)).congr (hpay a)
  · intro a ha b hb hab
    rw [hkeys a (hkept a ha), hkeys b (hkept b hb)] at hab
    exact h.core.distinct a (hkept a ha) b (hkept b hb) hab
  · exact Chains.cut h.chains hi hsorted hlast hsize hmask hb hn hl hpay
  · rw [hsize, hmask]
    exact h.mask
  · exact fun a ha => (h.entry a (hkept a ha)).congr (hpay a)

/-! ## All slots -/

theorem Listed.restoreSlots (top : ℕ) (slots : List ℕ) :
    ∀ (ht : HashTable Addr) (l : List Addr), Listed ht l → l.Pairwise (· < ·) →
      (∀ i ∈ slots, i < ht.nTableSize) →
      Listed (slots.foldl (Strings.restoreSlot top) ht)
          (l.filter fun a => !above top a || ht.nIndex (ht.mem a).h ∉ slots) ∧
        ∀ x, ((slots.foldl (Strings.restoreSlot top) ht).mem x).payload = (ht.mem x).payload := by
  induction slots with
  | nil =>
    intro ht l h _ _
    refine ⟨?_, fun _ => rfl⟩
    rw [List.filter_eq_self.mpr fun a _ => by simp]
    exact h
  | cons i slots ih =>
    intro ht l h hsorted hlt
    obtain ⟨h1, hpay1, hsize1, hmask1⟩ := h.restoreSlot top hsorted
      (hlt i List.mem_cons_self)
    obtain ⟨h2, hpay2⟩ := ih (Strings.restoreSlot top ht i) (remaining ht top i l) h1
      (hsorted.filter _)
      (fun j hj => by rw [hsize1]; exact hlt j (List.mem_cons_of_mem i hj))
    rw [List.foldl_cons]
    refine ⟨?_, fun x => (hpay2 x).trans (hpay1 x)⟩
    have hsame : ((remaining ht top i l).filter fun a => !above top a ||
        (Strings.restoreSlot top ht i).nIndex ((Strings.restoreSlot top ht i).mem a).h ∉ slots) =
          l.filter fun a => !above top a || ht.nIndex (ht.mem a).h ∉ i :: slots := by
      unfold remaining
      rw [List.filter_filter]
      apply List.filter_congr
      intro a _
      rw [h_of_payload (hpay1 a), HashTable.nIndex, hmask1, ← HashTable.nIndex]
      by_cases hgone : above top a = true
      · by_cases hi : ht.nIndex (ht.mem a).h = i
        · simp [hgone, hi]
        · simp [hgone, hi]
      · simp [hgone]
    rw [← hsame]
    exact h2

theorem Listed.restore (top : ℕ) (h : Listed ht l) (hsorted : l.Pairwise (· < ·)) :
    Listed ((List.range ht.nTableSize).foldl (Strings.restoreSlot top) ht)
        (l.filter fun a => a + sizeofBucket ≤ top) ∧
      ∀ x, (((List.range ht.nTableSize).foldl (Strings.restoreSlot top) ht).mem x).payload =
        (ht.mem x).payload := by
  obtain ⟨hlisted, hpay⟩ := Listed.restoreSlots top (List.range ht.nTableSize) ht l h
    hsorted fun i hi => List.mem_range.mp hi
  refine ⟨?_, hpay⟩
  have hall : (l.filter fun a => !above top a ||
      ht.nIndex (ht.mem a).h ∉ List.range ht.nTableSize) =
        l.filter fun a => a + sizeofBucket ≤ top := by
    apply List.filter_congr
    intro a _
    have hi : ht.nIndex (ht.mem a).h ∈ List.range ht.nTableSize :=
      List.mem_range.mpr (h.core.nIndex_lt (ht.mem a).h)
    by_cases hle : a + sizeofBucket ≤ top
    · simp [above, hle, Nat.not_lt.mpr hle]
    · simp [above, hle, hi, Nat.not_le.mp hle]
  rw [← hall]
  exact hlisted

/-! ## Runs -/

/-- The interned strings as a pool: what it holds, and what it held at the snapshot. -/
structure Held (cg : InternedStrings) (pool : Pool (List UInt8)) : Prop where
  stored : Stored cg pool.entries
  sound : pool.Sound
  snapshot : cg.snapshotTop = cg.start + extent entrySize pool.saved

/-- The pointer that a string has in a pool; one that is not there keeps its own. -/
def pointer (start : ℕ) (pool : Pool (List UInt8)) (src : Source) : ℕ :=
  (pool.place entrySize src.bytes).elim src.arKey fun k => start + k + sizeofBucket

/-- What the operations do to a pool, and the pointers they return. -/
def poolStep (start : ℕ) (pool : Pool (List UInt8)) : Operation → Pool (List UInt8) × Option ℕ
  | .intern src _ =>
    if start ≤ src.arKey ∧ src.arKey < start + arenaSize then (pool, some src.arKey)
    else
      let pool := pool.intern entrySize arenaSize src.bytes
      (pool, some (pointer start pool src))
  | .snapshot => (pool.snapshot, none)
  | .restore => (pool.restore, none)

def poolRun (start : ℕ) (pool : Pool (List UInt8)) :
    List Operation → Pool (List UInt8) × List (Option ℕ)
  | [] => (pool, [])
  | operation :: operations =>
    let (pool, arKey) := poolStep start pool operation
    let (pool, arKeys) := poolRun start pool operations
    (pool, arKey :: arKeys)

variable {cg : InternedStrings} {pool : Pool (List UInt8)}

/-- What interning a string comes to where the table holds `strings`: a string that is new is added,
and `Holds` is what is true of the table then. -/
inductive Interns (Holds : InternedStrings → List (List UInt8) → Prop) (cg : InternedStrings)
    (strings : List (List UInt8)) (src : Source) : InternedStrings × ℕ → Prop where
  | inside (hin : cg.isInterned src.arKey = true) : Interns Holds cg strings src (cg, src.arKey)
  | found (a : Addr) (s t : List (List UInt8)) (hout : cg.isInterned src.arKey = false)
      (hs : strings = s ++ src.bytes :: t) (ha : a = cg.start + extent entrySize s)
      (hmem : a ∈ offsets entrySize cg.start strings) (hb : cg.table.keyBytes a = src.bytes) :
      Interns Holds cg strings src (cg, keyAddress (cg.table.mem a).arKey)
  | full (hout : cg.isInterned src.arKey = false) (hnew : src.bytes ∉ strings)
      (hfull : cg.stop ≤ cg.top + entrySize src.bytes) :
      Interns Holds cg strings src (cg, src.arKey)
  | fresh (cg' : InternedStrings) (hout : cg.isInterned src.arKey = false)
      (hnew : src.bytes ∉ strings) (hroom : cg.top + entrySize src.bytes < cg.stop)
      (hholds : Holds cg' (strings ++ [src.bytes])) (hstart : cg'.start = cg.start)
      (hsnap : cg'.snapshotTop = cg.snapshotTop)
      (htop : cg.top = cg.start + extent entrySize strings)
      (hb : cg'.table.keyBytes cg.top = src.bytes) :
      Interns Holds cg strings src (cg', keyAddress (cg'.table.mem cg.top).arKey)

theorem Interns.mono {P Q : InternedStrings → List (List UInt8) → Prop}
    {strings : List (List UInt8)} {src : Source} {r : InternedStrings × ℕ}
    (h : Interns P cg strings src r)
    (hpq : P r.1 (strings ++ [src.bytes]) → Q r.1 (strings ++ [src.bytes])) :
    Interns Q cg strings src r := by
  cases h with
  | inside hin => exact .inside hin
  | found a s t hout hs ha hmem hb => exact .found a s t hout hs ha hmem hb
  | full hout hnew hfull => exact .full hout hnew hfull
  | fresh cg' hout hnew hroom hholds hstart hsnap htop hb =>
    exact .fresh cg' hout hnew hroom (hpq hholds) hstart hsnap htop hb

theorem Stored.interns {strings : List (List UInt8)} (h : Stored cg strings) (src : Source)
    (recoverable : Bool) :
    Interns Stored cg strings src (zend_new_interned_string_int cg src recoverable) := by
  unfold zend_new_interned_string_int
  generalize hin : cg.isInterned src.arKey = inside
  cases inside with
  | true => exact .inside hin
  | false =>
    rw [if_neg Bool.false_ne_true]
    dsimp only
    generalize hf : findString cg.table src.bytes (zendInlineHashFunc src.bytes) = found
    cases found with
    | some p =>
      obtain ⟨hp, hbytes⟩ := (h.listed.findString_iff src.bytes p).mp hf
      obtain ⟨s, t, hst, hx⟩ := h.split hp
      rw [hbytes] at hst
      exact .found p s t hin hst hx hp hbytes
    | none =>
      obtain ⟨-, hnotMem⟩ := h.findString_none hf
      dsimp only
      by_cases hfull : cg.stop ≤ cg.top + entrySize src.bytes
      · rw [if_pos hfull]
        exact .full hin hnotMem hfull
      · have hroom : cg.top + entrySize src.bytes < cg.stop := Nat.not_le.mp hfull
        have hfill := filled_newBucket cg.table cg.top src.bytes
        obtain ⟨hstored, hbytes⟩ := h.add recoverable hfill hf hroom rfl
        have hslot := hfill.nIndex_eq
        rw [if_neg hfull]
        generalize ({ cg.table with live := insert cg.top cg.table.live } : HashTable Addr).store
          cg.top (newBucket src.bytes (zendInlineHashFunc src.bytes) cg.top) = ht' at *
        have hnum : (linkString ht' cg.top
            (cg.table.nIndex (zendInlineHashFunc src.bytes))).nNumOfElements =
              cg.table.nNumOfElements := by
          rw [linkString_nNumOfElements, hfill.frame]
        rw [hslot] at hstored hbytes
        rw [hnum]
        exact .fresh _ hin hnotMem hroom hstored rfl rfl h.top hbytes

theorem Stored.isInterned_iff {strings : List (List UInt8)} (h : Stored cg strings) (k : ℕ) :
    cg.isInterned k = true ↔ cg.start ≤ k ∧ k < cg.start + arenaSize := by
  unfold InternedStrings.isInterned
  rw [h.stop, Bool.and_eq_true, decide_eq_true_eq, decide_eq_true_eq]

theorem intern_spec (h : Held cg pool) (src : Source) (recoverable : Bool) :
    let r := zend_new_interned_string_int cg src recoverable
    let s := poolStep cg.start pool (.intern src recoverable)
    Held r.1 s.1 ∧ r.1.start = cg.start ∧ some r.2 = s.2 := by
  have hstop := h.stored.stop
  have htop := h.stored.top
  have hiff := h.stored.isInterned_iff src.arKey
  have hcase := h.stored.interns src recoverable
  generalize zend_new_interned_string_int cg src recoverable = r at *
  unfold poolStep
  dsimp only
  cases hcase with
  | inside hin =>
    rw [if_pos (hiff.mp hin)]
    exact ⟨h, rfl, rfl⟩
  | found a s t hout hs ha hmem hb =>
    have hmemText : src.bytes ∈ pool.entries := by
      rw [hs]
      exact List.mem_append_right _ List.mem_cons_self
    have hbefore : src.bytes ∉ s := by
      intro hm
      have hn := h.sound.nodup
      rw [hs] at hn
      exact (List.nodup_append.mp hn).2.2 _ hm _ List.mem_cons_self rfl
    rw [if_neg (by rw [← hiff, hout]; exact Bool.false_ne_true), Pool.intern_of_mem hmemText,
      pointer, Pool.place_of_split hs hbefore, (h.stored.listed.entry a hmem).keyAddress, ha]
    exact ⟨h, rfl, rfl⟩
  | full hout hnew hfull =>
    have hfull' : arenaSize ≤ extent entrySize pool.entries + entrySize src.bytes := by omega
    rw [if_neg (by rw [← hiff, hout]; exact Bool.false_ne_true),
      Pool.intern_of_full hnew hfull', pointer, Pool.place_eq_none hnew]
    exact ⟨h, rfl, rfl⟩
  | fresh cg' hout hnew hroom hholds hstart hsnap htop' hb =>
    have hroom' : extent entrySize pool.entries + entrySize src.bytes < arenaSize := by omega
    have hsound : (pool.intern entrySize arenaSize src.bytes).Sound := h.sound.intern
    have hblock : cg.top ∈ offsets entrySize cg'.start (pool.entries ++ [src.bytes]) := by
      rw [offsets_append_singleton, hstart, htop]
      exact List.mem_append_right _ List.mem_cons_self
    rw [if_neg (by rw [← hiff, hout]; exact Bool.false_ne_true), pointer,
      Pool.place_of_room hnew hroom', (hholds.listed.entry _ hblock).keyAddress, htop]
    rw [Pool.intern_of_room hnew hroom'] at hsound ⊢
    exact ⟨⟨hholds, hsound, by rw [hsnap, hstart]; exact h.snapshot⟩, hstart, rfl⟩

theorem restore_spec (h : Held cg pool) :
    Held (zend_interned_strings_restore_int cg) pool.restore := by
  obtain ⟨rest, hrest⟩ := h.sound.saved
  have hsorted : (offsets entrySize cg.start pool.entries).Pairwise (· < ·) :=
    offsets_pairwise fun b _ => entrySize_pos b
  have hkeep : (offsets entrySize cg.start pool.entries).filter
      (fun a => a + sizeofBucket ≤ cg.snapshotTop) = offsets entrySize cg.start pool.saved := by
    rw [← hrest, h.snapshot]
    exact filter_offsets (by decide) fun b _ => sizeofBucket_le_entrySize b
  obtain ⟨hlisted, hpay⟩ := h.stored.listed.restore cg.snapshotTop hsorted
  rw [hkeep] at hlisted
  have hsub : ∀ a ∈ offsets entrySize cg.start pool.saved,
      a ∈ offsets entrySize cg.start pool.entries := by
    intro a ha
    rw [← hrest, offsets_append]
    exact List.mem_append_left _ ha
  have htexts : (offsets entrySize cg.start pool.saved).map cg.table.keyBytes = pool.saved := by
    have hall := h.stored.texts
    rw [← hrest, offsets_append, List.map_append] at hall
    have hlen : ((offsets entrySize cg.start pool.saved).map cg.table.keyBytes).length =
        pool.saved.length := by
      rw [List.length_map, length_offsets]
    exact (List.append_inj hall hlen).1
  have hroom : extent entrySize pool.saved ≤ extent entrySize pool.entries := by
    rw [← hrest, extent_append]
    exact Nat.le_add_right _ _
  refine ⟨⟨hlisted, ?_, h.snapshot, h.stored.stop, Nat.lt_of_le_of_lt hroom h.stored.room⟩,
    h.sound.restore, h.snapshot⟩
  refine Eq.trans (List.map_congr_left fun a ha => ?_) htexts
  exact keyBytes_of_payload (h.stored.listed.entry a (hsub a ha)) (hpay a)

theorem step_spec (h : Held cg pool) (operation : Operation) :
    Held (step cg operation).1 (poolStep cg.start pool operation).1 ∧
      (step cg operation).1.start = cg.start ∧
      (step cg operation).2 = (poolStep cg.start pool operation).2 := by
  cases operation with
  | intern src recoverable => exact intern_spec h src recoverable
  | snapshot =>
    exact ⟨⟨⟨h.stored.listed, h.stored.texts, h.stored.top, h.stored.stop, h.stored.room⟩,
      h.sound.snapshot, h.stored.top⟩, rfl, rfl⟩
  | restore => exact ⟨restore_spec h, rfl, rfl⟩

theorem run_spec (operations : List Operation) :
    ∀ (cg : InternedStrings) (pool : Pool (List UInt8)), Held cg pool →
      Held (run cg operations).1 (poolRun cg.start pool operations).1 ∧
        (run cg operations).1.start = cg.start ∧
        (run cg operations).2 = (poolRun cg.start pool operations).2 := by
  induction operations with
  | nil => exact fun cg pool h => ⟨h, rfl, rfl⟩
  | cons operation operations ih =>
    intro cg pool h
    obtain ⟨hheld, hstart, hkey⟩ := step_spec h operation
    obtain ⟨hrest, hstart', hkeys⟩ := ih _ _ hheld
    rw [hstart] at hrest hkeys
    exact ⟨hrest, hstart'.trans hstart, congrArg₂ List.cons hkey hkeys⟩

theorem init_held (start : ℕ) (mem : Addr → Bucket Addr) :
    Held (zend_interned_strings_init start mem) Pool.empty := by
  have hcore : InvCore (zend_interned_strings_init start mem).table [] := by
    refine ⟨⟨rfl, rfl, trivial, List.nodup_nil, fun a ha => ?_⟩, rfl, rfl,
      ⟨3, Nat.le_refl 3, by decide, rfl⟩, Or.inr rfl, fun a ha => ?_, fun a ha => ?_⟩
    · exact absurd ha (Option.some_ne_none a).symm
    · exact absurd ha List.not_mem_nil
    · exact absurd ha List.not_mem_nil
  refine ⟨⟨⟨hcore, ?_, rfl, rfl, fun a ha => ?_⟩, rfl, rfl, rfl, by decide⟩, Pool.sound_empty, rfl⟩
  · refine ⟨fun _ _ => rfl, fun _ _ => trivial, fun _ _ => List.nodup_nil, fun i _ a => ?_⟩
    exact mem_slotOf
  · exact absurd ha List.not_mem_nil

/-! ## Uniqueness -/

/-- The table holds each of the strings once: on the list in the order of the strings, and in the
chain of its slot. Strings and pointers determine each other. -/
structure HoldsOnce (cg : InternedStrings) (strings : List (List UInt8)) : Prop where
  order : walk cg.table.listNext (strings.length + 1) cg.table.pListHead =
    offsets entrySize cg.start strings
  chain : ∀ i < cg.table.nTableSize,
    walk cg.table.chNext (strings.length + 1) (cg.table.arBuckets i) =
      ((offsets entrySize cg.start strings).filter fun a =>
        cg.table.nIndex (zendInlineHashFunc (cg.table.keyBytes a)) = i).reverse
  count : cg.table.nNumOfElements = strings.length
  once : (offsets entrySize cg.start strings).Nodup
  texts : (offsets entrySize cg.start strings).map cg.table.keyBytes = strings
  arKey : ∀ a ∈ offsets entrySize cg.start strings,
    keyAddress (cg.table.mem a).arKey = a + sizeofBucket ∧
      (cg.table.mem a).nKeyLength = (cg.table.keyBytes a).length
  unique : ∀ a ∈ offsets entrySize cg.start strings, ∀ b ∈ offsets entrySize cg.start strings,
    cg.table.keyBytes a = cg.table.keyBytes b ↔
      keyAddress (cg.table.mem a).arKey = keyAddress (cg.table.mem b).arKey

theorem Stored.holdsOnce {strings : List (List UInt8)} (h : Stored cg strings) :
    HoldsOnce cg strings := by
  have hl := h.listed
  have hlen : (offsets entrySize cg.start strings).length = strings.length := length_offsets
  have hentry : ∀ a ∈ offsets entrySize cg.start strings,
      cg.table.nIndex (cg.table.mem a).h =
        cg.table.nIndex (zendInlineHashFunc (cg.table.keyBytes a)) :=
    fun a ha => by rw [(hl.entry a ha).hash]
  refine ⟨?_, ?_, hl.core.count.trans hlen, hl.nodup, h.texts, ?_, ?_⟩
  · rw [hl.core.list.head]
    exact hl.core.list.seg.walk_eq (by rw [hlen]; exact Nat.le_succ _)
  · intro i hi
    have hsub : ∀ a ∈ cg.table.slotOf (offsets entrySize cg.start strings) i,
        a ∈ offsets entrySize cg.start strings := fun a ha => (mem_slotOf.mp ha).1
    rw [hl.chains.head i hi, (hl.chains.seg i hi).walk_eq]
    · unfold HashTable.slotOf
      congr 1
      apply List.filter_congr
      intro a ha
      rw [hentry a ha]
    · rw [← hlen]
      exact Nat.le_succ_of_le (List.Subperm.length_le
        (List.subperm_of_subset (hl.chains.nodup i hi) hsub))
  · exact fun a ha => ⟨(hl.entry a ha).keyAddress, (hl.entry a ha).length⟩
  · intro a ha b hb
    rw [(hl.entry a ha).keyAddress, (hl.entry b hb).keyAddress]
    constructor
    · intro hab
      rw [hl.core.distinct a ha b hb (((hl.entry a ha).keyOf_eq_iff (hl.entry b hb)).mpr hab)]
    · intro hab
      rw [Nat.add_right_cancel hab]

theorem poolRun_restore (start : ℕ) (operations : List Operation)
    (h : ∀ operation ∈ operations, operation ≠ .snapshot) :
    ∀ pool : Pool (List UInt8),
      (poolRun start pool (operations ++ [.restore])).1.entries = pool.saved := by
  induction operations with
  | nil => exact fun _ => rfl
  | cons operation operations ih =>
    intro pool
    have hrest := ih fun o ho => h o (List.mem_cons_of_mem operation ho)
    have hkeep : (poolStep start pool operation).1.saved = pool.saved := by
      cases operation with
      | intern src recoverable =>
        rw [poolStep]
        split
        · rfl
        · exact Pool.intern_saved
      | snapshot => exact absurd rfl (h .snapshot List.mem_cons_self)
      | restore => rfl
    exact (hrest (poolStep start pool operation).1).trans hkeep

theorem poolRun_append (start : ℕ) (operations operations' : List Operation) :
    ∀ pool : Pool (List UInt8), (poolRun start pool (operations ++ operations')).1 =
      (poolRun start (poolRun start pool operations).1 operations').1 := by
  induction operations with
  | nil => exact fun _ => rfl
  | cons operation operations ih => exact fun pool => ih (poolStep start pool operation).1

/-- In every run the table holds the strings of the pool once each, interning a string returns the
pointer it has there or adds it, and a restore brings back what the pool held at the snapshot, at
the same addresses. -/
theorem interned_strings_unique (start : ℕ) (mem : Addr → Bucket Addr)
    (operations : List Operation) :
    let init := zend_interned_strings_init start mem
    let strings := fun operations => (poolRun start Pool.empty operations).1.entries
    let cg := (run init operations).1
    HoldsOnce cg (strings operations) ∧ cg.start = start ∧
      (run init operations).2 = (poolRun start Pool.empty operations).2 ∧
      (∀ (src : Source) (recoverable : Bool), Interns HoldsOnce cg (strings operations) src
        (zend_new_interned_string_int cg src recoverable)) ∧
      ∀ more : List Operation, (∀ operation ∈ more, operation ≠ .snapshot) →
        HoldsOnce (run init (operations ++ .snapshot :: (more ++ [.restore]))).1
          (strings operations) := by
  intro init strings cg
  have hinit := init_held start mem
  obtain ⟨hheld, hstart, hkeys⟩ := run_spec operations init Pool.empty hinit
  refine ⟨hheld.stored.holdsOnce, hstart, hkeys, ?_, ?_⟩
  · intro src recoverable
    exact (hheld.stored.interns src recoverable).mono Stored.holdsOnce
  · intro more hmore
    obtain ⟨hrestored, -, -⟩ := run_spec (operations ++ .snapshot :: (more ++ [.restore])) init
      Pool.empty hinit
    have hback : (poolRun init.start Pool.empty
        (operations ++ .snapshot :: (more ++ [.restore]))).1.entries = strings operations := by
      rw [poolRun_append]
      exact poolRun_restore _ more hmore _
    have h := hrestored.stored.holdsOnce
    rw [hback] at h
    exact h

end PhpRuntime.Strings
