import PhpRuntime.Hash.Removal

/-!
# Sorting

`zend_hash_sort` links the buckets anew in the order of an array and, with `renumber`,
gives them the integer keys 0, 1, .. and rehashes. The renumbering stores `h` and
`nKeyLength` but not `arKey`: the buckets keep the key pointers of their old keys.
-/

set_option autoImplicit false

namespace PhpRuntime.Hash

open PhpRuntime.Lib PhpRuntime.Lib.OrderedMap

variable {α : Type} {ht ht' : HashTable α} {l m s t : List Addr} {p q a x : Addr}

theorem collect_spec (fuel : ℕ) {pre : Option Addr}
    (hseg : Seg ht.listNext ht.listLast pre t none) (hf : t.length < fuel) :
    ht.collect fuel t.head? = t := by
  induction t generalizing pre fuel with
  | nil =>
    obtain ⟨fuel, rfl⟩ : ∃ n, fuel = n + 1 := ⟨fuel - 1, by simp at hf; omega⟩
    rfl
  | cons p t ih =>
    obtain ⟨fuel, rfl⟩ : ∃ n, fuel = n + 1 := ⟨fuel - 1, by simp at hf; omega⟩
    obtain ⟨-, hn, hseg⟩ := hseg
    have hn' : (ht.mem p).pListNext = t.head? := by simpa [HashTable.listNext] using hn
    rw [List.head?_cons, HashTable.collect, hn', ih fuel hseg (by simp at hf; omega)]

theorem InvCore.collect_eq (h : InvCore ht l) : ht.collect ht.loopBound ht.pListHead = l := by
  rw [h.list.head]
  exact collect_spec ht.loopBound h.list.seg (by rw [h.loopBound_eq]; omega)

/-- A step that stores to list links alone. -/
structure ListStep (ht ht' : HashTable α) : Prop where
  frame : ht' = { ht with mem := ht'.mem }
  payload : ∀ x, (ht'.mem x).payload = (ht.mem x).payload
  chNext : ∀ x, (ht'.mem x).pNext = (ht.mem x).pNext
  chLast : ∀ x, (ht'.mem x).pLast = (ht.mem x).pLast

/-- The relinking of `zend_hash_sort` threads the array, in its order. -/
theorem relink_spec (ht : HashTable α) (last : Option Addr) (hm : m.Nodup) :
    ListStep ht (HashTable.relink last m ht) ∧
      (∀ x, x ∉ m → (HashTable.relink last m ht).mem x = ht.mem x) ∧
      Seg (HashTable.relink last m ht).listNext (HashTable.relink last m ht).listLast last m
        none := by
  induction m generalizing last ht with
  | nil => exact ⟨⟨rfl, fun _ => rfl, fun _ => rfl, fun _ => rfl⟩, fun _ _ => rfl, trivial⟩
  | cons p rest ih =>
    obtain ⟨hp, hrest⟩ := List.nodup_cons.mp hm
    obtain ⟨hs, ho, hseg⟩ := ih (ht.store p fun b =>
      { b with pListLast := last, pListNext := rest.head? }) (some p) hrest
    have hrec : HashTable.relink last (p :: rest) ht = HashTable.relink (some p) rest
        (ht.store p fun b => { b with pListLast := last, pListNext := rest.head? }) := rfl
    have hmem : ∀ x, (ht.store p fun b =>
        { b with pListLast := last, pListNext := rest.head? }).mem x =
        if x = p then { ht.mem x with pListLast := last, pListNext := rest.head? }
        else ht.mem x := fun _ => rfl
    rw [hrec]
    generalize HashTable.relink (some p) rest _ = ht2 at *
    have hp2 := ho p hp
    rw [hmem, if_pos rfl] at hp2
    refine ⟨⟨?_, fun x => (hs.payload x).trans ?_, fun x => (hs.chNext x).trans ?_,
      fun x => (hs.chLast x).trans ?_⟩, ?_, ?_, ?_, hseg⟩
    · exact hs.frame
    · rw [hmem]; split <;> rfl
    · rw [hmem]; split <;> rfl
    · rw [hmem]; split <;> rfl
    · intro x hx
      simp only [List.mem_cons, not_or] at hx
      rw [ho x hx.2, hmem, if_neg hx.1]
    · simp [HashTable.listLast, hp2]
    · simp [HashTable.listNext, hp2]

/-- **Sorting without renumbering** permutes the list and nothing else. -/
theorem Inv.relink (h : Inv ht l) (hm : m.Perm l) :
    Inv (HashTable.relink none m { ht with
        pListHead := m.head?
        pListTail := m.getLast?
        pInternalPointer := m.head? }) m ∧
      (HashTable.relink none m { ht with
        pListHead := m.head?
        pListTail := m.getLast?
        pInternalPointer := m.head? }).entries m = ht.entries m := by
  obtain ⟨ch, hch⟩ := h.chains
  have hnd : m.Nodup := hm.nodup_iff.mpr h.list.nodup
  obtain ⟨hs, -, hseg⟩ := relink_spec ({ ht with
        pListHead := m.head?
        pListTail := m.getLast?
        pInternalPointer := m.head? }) none hnd
  generalize HashTable.relink none m _ = ht2 at *
  have hk : ∀ a ∈ m, KeyOk ht a := fun a ha => h.keys a (hm.mem_iff.mp ha)
  have hf := hs.frame
  have hpay : ∀ x, (ht2.mem x).payload = (ht.mem x).payload := hs.payload
  refine ⟨⟨⟨⟨?_, ?_, hseg, hnd, ?_⟩, ?_, ?_, ?_, ?_, fun a ha => (hk a ha).congr (hpay a), ?_⟩,
    ch, ?_⟩, entries_congr hk fun a _ => hpay a⟩
  · rw [hf]
  · rw [hf]
  · intro a ha
    rw [hf] at ha
    exact List.mem_of_head? ha
  · have hlive : ht2.live = ht.live := by rw [hf]
    rw [hlive, h.live]
    exact List.toFinset_eq_of_perm _ _ hm.symm
  · have hcount : ht2.nNumOfElements = ht.nNumOfElements := by rw [hf]
    rw [hcount, h.count, hm.length_eq]
  · rw [hf]; exact h.size
  · rw [hf]
    exact h.mask.imp_left fun hl => ⟨hl.1, by simpa [hl.2] using hm⟩
  · intro a ha b hb hab
    rw [(hk a ha).keyOf_eq (hpay a), (hk b hb).keyOf_eq (hpay b)] at hab
    exact h.distinct a (hm.mem_iff.mp ha) b (hm.mem_iff.mp hb) hab
  · refine Chains.of_mem_iff (c := l) ?_ fun a => hm.mem_iff
    exact hch.congr (by rw [hf]) (by rw [hf]) (fun i _ => by rw [hf])
      (fun a _ => h_of_payload (hpay a)) (fun a _ => hs.chNext a) (fun a _ => hs.chLast a)

/-! ## Renumbering -/

theorem renumberLoop_spec (fuel i : ℕ) {pre : Option Addr}
    (hseg : Seg ht.listNext ht.listLast pre t none) (hnd : t.Nodup) (hf : t.length < fuel) :
    HashTable.renumberLoop fuel i t.head? ht =
        { ht with mem := (HashTable.renumberLoop fuel i t.head? ht).mem } ∧
      ∀ x, (HashTable.renumberLoop fuel i t.head? ht).mem x =
        if x ∈ t then { ht.mem x with nKeyLength := 0, h := UInt64.ofNat (i + t.idxOf x) }
        else ht.mem x := by
  induction t generalizing ht pre fuel i with
  | nil =>
    obtain ⟨fuel, rfl⟩ : ∃ n, fuel = n + 1 := ⟨fuel - 1, by simp at hf; omega⟩
    exact ⟨rfl, by simp [HashTable.renumberLoop]⟩
  | cons p t ih =>
    obtain ⟨fuel, rfl⟩ : ∃ n, fuel = n + 1 := ⟨fuel - 1, by simp at hf; omega⟩
    obtain ⟨-, hn, hseg⟩ := hseg
    obtain ⟨hp, hnd⟩ := List.nodup_cons.mp hnd
    have hn' : (ht.mem p).pListNext = t.head? := by simpa [HashTable.listNext] using hn
    have hmem : ∀ x, (ht.store p fun b => { b with nKeyLength := 0, h := UInt64.ofNat i }).mem x =
        if x = p then { ht.mem x with nKeyLength := 0, h := UInt64.ofNat i } else ht.mem x :=
      fun _ => rfl
    have hseg1 : Seg (ht.store p fun b =>
        { b with nKeyLength := 0, h := UInt64.ofNat i }).listNext (ht.store p fun b =>
        { b with nKeyLength := 0, h := UInt64.ofNat i }).listLast (some p) t none := by
      refine hseg.congr ?_ ?_ <;> intro x _ <;>
        simp only [HashTable.listNext, HashTable.listLast, hmem] <;> split <;> rfl
    have hrec : HashTable.renumberLoop (fuel + 1) i (some p) ht =
        HashTable.renumberLoop fuel (i + 1) t.head?
          (ht.store p fun b => { b with nKeyLength := 0, h := UInt64.ofNat i }) := by
      simp [HashTable.renumberLoop, hn']
    obtain ⟨hframe, hall⟩ := ih fuel (i + 1) hseg1 hnd (by simp at hf; omega)
    rw [List.head?_cons, hrec]
    refine ⟨hframe, fun x => ?_⟩
    rw [hall, hmem]
    by_cases hxp : x = p
    · subst hxp
      simp [hp]
    · have hidx : (p :: t).idxOf x = t.idxOf x + 1 := List.idxOf_cons_ne t (Ne.symm hxp)
      have hadd : i + 1 + t.idxOf x = i + (t.idxOf x + 1) := by omega
      simp [hxp, hidx, hadd]

theorem Inv.renumberLoop (h : Inv ht l) (hroom : l.length < 2 ^ 31) (n : UInt64) :
    InvCore { HashTable.renumberLoop ht.loopBound 0 ht.pListHead ht with nNextFreeElement := n } l ∧
    HashTable.renumberLoop ht.loopBound 0 ht.pListHead ht =
      { ht with mem := (HashTable.renumberLoop ht.loopBound 0 ht.pListHead ht).mem } ∧
    ∀ a ∈ l, (HashTable.renumberLoop ht.loopBound 0 ht.pListHead ht).mem a =
      { ht.mem a with nKeyLength := 0, h := UInt64.ofNat (l.idxOf a) } := by
  obtain ⟨hf, hmem⟩ := renumberLoop_spec ht.loopBound 0 h.list.seg h.list.nodup
    (by rw [h.loopBound_eq]; omega)
  rw [← h.list.head] at hf hmem
  generalize HashTable.renumberLoop ht.loopBound 0 ht.pListHead ht = ht2 at *
  have hin : ∀ a ∈ l, ht2.mem a =
      { ht.mem a with nKeyLength := 0, h := UInt64.ofNat (l.idxOf a) } := fun a ha => by
    rw [hmem a, if_pos ha, Nat.zero_add]
  have hkey : ∀ a ∈ l, ht2.keyOf a = .int (UInt64.ofNat (l.idxOf a)) := fun a ha => by
    rw [keyOf_eq_int_iff, hin a ha]
    exact ⟨rfl, rfl⟩
  have hidx : ∀ a ∈ l, l.idxOf a < 2 ^ 64 := fun a ha =>
    (List.idxOf_lt_length_iff.mpr ha).trans (by omega)
  refine ⟨⟨h.list.congr ?_ ?_ ?_ ?_ ?_, ?_, ?_, ?_, ?_, fun a ha => KeyOk.of_int ?_, ?_⟩, hf, hin⟩
  · rw [hf]
  · rw [hf]
  · rw [hf]; exact h.list.pointer
  · exact fun a ha => by rw [hin a ha]
  · exact fun a ha => by rw [hin a ha]
  · rw [hf]; exact h.live
  · rw [hf]; exact h.count
  · rw [hf]; exact h.size
  · rw [hf]; exact h.mask
  · exact congrArg (·.nKeyLength) (hin a ha)
  · intro a ha b hb hab
    have hab' : ht2.keyOf a = ht2.keyOf b := hab
    rw [hkey a ha, hkey b hb, Key.int.injEq] at hab'
    have hnat := congrArg UInt64.toNat hab'
    rw [UInt64.toNat_ofNat_of_lt' (hidx a ha), UInt64.toNat_ofNat_of_lt' (hidx b hb)] at hnat
    exact (List.idxOf_inj ha).mp hnat

/-- **Renumbering** numbers the values in their order. -/
theorem Inv.renumber (h : Inv ht l) (hl : l ≠ []) (hroom : l.length < 2 ^ 31) (n : UInt64) :
    Inv (HashTable.zendHashRehash { HashTable.renumberLoop ht.loopBound 0 ht.pListHead ht with
      nNextFreeElement := n }) l ∧
    (HashTable.zendHashRehash { HashTable.renumberLoop ht.loopBound 0 ht.pListHead ht with
      nNextFreeElement := n }).entries l =
      l.map fun a => (Key.int (UInt64.ofNat (l.idxOf a)), (ht.mem a).pData) := by
  obtain ⟨hcore, -, hin⟩ := h.renumberLoop hroom n
  generalize HashTable.renumberLoop ht.loopBound 0 ht.pListHead ht = ht2 at *
  obtain ⟨hinv, hstep⟩ := hcore.zendHashRehash hl
  refine ⟨hinv, (hstep.entries hcore).trans ?_⟩
  refine List.map_congr_left fun a ha => ?_
  have hk : ({ ht2 with nNextFreeElement := n } : HashTable α).keyOf a =
      .int (UInt64.ofNat (l.idxOf a)) :=
    keyOf_eq_int_iff.mpr ⟨congrArg (·.nKeyLength) (hin a ha), congrArg (·.h) (hin a ha)⟩
  rw [hk, hin a ha]

/-- **`zend_hash_sort`** permutes the buckets; without `renumber` the pairs are permuted, with
it the values get the keys 0, 1, .. in the new order. -/
theorem Inv.zendHashSort (h : Inv ht l) (f : SortFunc α) (renumber : Bool)
    (hroom : l.length < 2 ^ 31) :
    ∃ l', Inv (ht.zendHashSort f renumber) l' ∧ l'.Perm l ∧
      (ht.zendHashSort f renumber).entries l' = if renumber
        then l'.map fun a => (Key.int (UInt64.ofNat (l'.idxOf a)), (ht.mem a).pData)
        else ht.entries l' := by
  unfold HashTable.zendHashSort
  split
  · rename_i hcount
    refine ⟨l, h, List.Perm.refl l, ?_⟩
    cases renumber with
    | false => rfl
    | true =>
      have hl : l = [] := by
        by_contra hl
        exact hcount.2 ⟨rfl, h.count ▸ List.length_pos_iff.mpr hl⟩
      simp [hl]
  · rename_i hcount
    dsimp only
    rw [h.collect_eq]
    have hperm := f.perm ht.mem l
    generalize f.run ht.mem l = m at *
    obtain ⟨hi, he⟩ := h.relink hperm
    have hpay : ∀ a ∈ m, ((HashTable.relink none m { ht with
        pListHead := m.head?
        pListTail := m.getLast?
        pInternalPointer := m.head? }).mem a).payload = (ht.mem a).payload := fun a _ =>
      (relink_spec _ none hi.list.nodup).1.payload a
    generalize HashTable.relink none m _ = ht2 at *
    cases renumber with
    | false => exact ⟨m, hi, hperm, he⟩
    | true =>
      have hm : m ≠ [] := by
        rintro rfl
        simp [h.count, hperm.nil_eq.symm] at hcount
      obtain ⟨hr, he2⟩ := hi.renumber hm (by rw [hperm.length_eq]; exact hroom)
        (UInt64.ofNat m.length)
      refine ⟨m, hr, hperm, he2.trans ?_⟩
      refine List.map_congr_left fun a ha => ?_
      rw [pData_of_payload (hpay a ha)]

end PhpRuntime.Hash
