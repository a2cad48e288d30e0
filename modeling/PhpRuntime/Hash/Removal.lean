import PhpRuntime.Hash.Update

/-!
# Deleting, cleaning and applying

Every deletion is an unchaining followed by the steps of `Inv.delete`. The walks that
delete on the way (`zend_hash_apply` and its relatives) are an induction over the part of
the list that is still to come.
-/

set_option autoImplicit false

namespace PhpRuntime.Hash

open PhpRuntime.Lib PhpRuntime.Lib.OrderedMap

variable {α : Type} {ht ht' : HashTable α} {l s t : List Addr} {p q a x : Addr}
  {key : KeyArg} {n : UInt64} {v : α}

theorem Inv.entries_erase (h : Inv ht (s ++ p :: t)) :
    erase (ht.entries (s ++ p :: t)) (ht.keyOf p) = ht.entries (s ++ t) := by
  have hnd := h.list.nodup
  have hne : ∀ a ∈ s ++ t, ht.keyOf a ≠ ht.keyOf p := by
    intro a ha hk
    have hap := h.distinct a (by simp at ha ⊢; tauto) p (by simp) hk
    have hp : (s ++ p :: t).Perm (p :: (s ++ t)) := List.perm_middle
    exact (List.nodup_cons.mp (hp.nodup_iff.mp hnd)).1 (hap ▸ ha)
  have hkeep : ∀ r : List Addr, (∀ a ∈ r, a ∈ s ++ t) →
      (ht.entries r).filter (fun e => decide (e.1 ≠ ht.keyOf p)) = ht.entries r := by
    intro r hr
    refine List.filter_eq_self.mpr fun e he => ?_
    obtain ⟨a, ha, rfl⟩ := List.mem_map.mp he
    exact decide_eq_true (hne a (hr a ha))
  have hsplit : ht.entries (s ++ p :: t) =
      ht.entries s ++ (ht.keyOf p, (ht.mem p).pData) :: ht.entries t := by
    simp [HashTable.entries]
  rw [hsplit, erase, List.filter_append, List.filter_cons_of_neg (by simp),
    hkeep s (fun a ha => by simp [ha]), hkeep t (fun a ha => by simp [ha])]
  simp [HashTable.entries]

/-- What a deletion of the bucket at `p` leaves. -/
structure Removes (ht ht' : HashTable α) (s t : List Addr) (p : Addr) : Prop where
  inv : Inv ht' (s ++ t)
  entries : ht'.entries (s ++ t) = erase (ht.entries (s ++ p :: t)) (ht.keyOf p)
  payload : ∀ x, (ht'.mem x).payload = (ht.mem x).payload
  live : ht'.live = ht.live.erase p

theorem Inv.removes (h : Inv ht (s ++ p :: t))
    (hu : Unchains ht ht' p (ht.nIndex (ht.mem p).h)) :
    Removes ht { ((ht'.unlist p).callDestructor p).pefree p with
      nNumOfElements := ht.nNumOfElements - 1 } s t p := by
  have hinv := h.delete hu
  have hpay : ∀ x, ((ht'.unlist p).mem x).payload = (ht.mem x).payload := fun x =>
    (HashTable.payload_unlist ht' p x).trans (hu.payload x)
  refine ⟨hinv, ?_, hpay, ?_⟩
  · rw [h.entries_erase]
    exact entries_congr (fun a ha => h.keys a (by simp at ha ⊢; tauto)) fun a _ => hpay a
  · show (ht'.live).erase p = _
    rw [hu.frame]

/-- **The open-coded deletion.** -/
theorem Inv.deleteBucket (h : Inv ht (s ++ p :: t)) :
    Removes ht (ht.deleteBucket p (ht.nIndex (ht.mem p).h)) s t p := by
  obtain ⟨ch, hch⟩ := h.chains
  have hu := unchains_unchain hch (by simp : p ∈ s ++ p :: t) rfl (h.nIndex_lt _)
  have hcount : (ht.unchain p (ht.nIndex (ht.mem p).h)).nNumOfElements = ht.nNumOfElements := by
    rw [hu.frame]
  have hr := h.removes hu
  rw [← hcount] at hr
  exact hr

/-- **`zend_hash_apply_deleter`**; it returns the bucket after the deleted one. -/
theorem Inv.zendHashApplyDeleter (h : Inv ht (s ++ p :: t)) :
    Removes ht (ht.zendHashApplyDeleter p).1 s t p ∧
      (ht.zendHashApplyDeleter p).2 = t.head? := by
  have hu := unchains_unchainByLast ht p
  have hnext : (ht.mem p).pListNext = t.head? := by
    simpa [HashTable.listNext] using h.list.seg.at_middle.2
  have hlast : (ht.mem p).pListLast = s.getLast? := by
    simpa [HashTable.listLast] using h.list.seg.at_middle.1
  refine ⟨h.removes hu, ?_⟩
  have hps : s.getLast? ≠ some p := fun hp => by
    have := (List.nodup_append.mp h.list.nodup).2.2 p (List.mem_of_getLast? hp) p (by simp)
    exact this rfl
  have hl := (unlist_links (ht.unchainByLast p) p p).1
  have h1 : (ht.unchainByLast p).listLast p = s.getLast? := (hu.listLast p).trans hlast
  have h2 : (ht.unchainByLast p).listNext p = t.head? := (hu.listNext p).trans hnext
  rw [h1, if_neg hps, h2] at hl
  exact hl

/-- The hash value that `zend_hash_del_key_or_index` works with. -/
def delHash (key : KeyArg) (h : UInt64) (flag : DelFlag) : UInt64 :=
  if flag = .HASH_DEL_KEY then zendInlineHashFunc key.bytes else h

/-- **`zend_hash_del_key_or_index`** removes the pair of the key, if there is one. -/
theorem Inv.zendHashDelKeyOrIndex (h : Inv ht l) (h' : UInt64) (flag : DelFlag)
    (hkey : key.nKeyLength ≠ 0 → delHash key h' flag = zendInlineHashFunc key.bytes) :
    ∃ l', Inv (ht.zendHashDelKeyOrIndex key h' flag).1 l' ∧
      (ht.zendHashDelKeyOrIndex key h' flag).1.entries l' =
        erase (ht.entries l) (key.toKey (delHash key h' flag)) ∧
      ((ht.zendHashDelKeyOrIndex key h' flag).2 = .SUCCESS ↔
        key.toKey (delHash key h' flag) ∈ keys (ht.entries l)) := by
  unfold HashTable.zendHashDelKeyOrIndex
  dsimp only
  rw [← delHash]
  generalize delHash key h' flag = n at hkey ⊢
  have hfind := h.findDel_iff hkey
  have hsome := find_isSome_iff hfind
  cases hf : ht.chainFind (ht.matchesDel key n) ht.loopBound (ht.arBuckets (ht.nIndex n)) with
  | some p =>
    obtain ⟨hp, hk⟩ := (hfind p).mp hf
    obtain ⟨s, t, rfl⟩ := List.append_of_mem hp
    have hh := (h.keys p hp).h_eq_of_toKey hkey hk
    have hr := h.deleteBucket
    rw [hh] at hr
    refine ⟨s ++ t, hr.inv, hk ▸ hr.entries, ?_⟩
    simpa [hf] using hsome
  | none =>
    have hnot : key.toKey n ∉ keys (ht.entries l) := notMem_keys_of_find_none hf hfind
    refine ⟨l, h, ?_, by simpa using hnot⟩
    refine (List.filter_eq_self.mpr fun e he => ?_).symm
    exact decide_eq_true fun hek => hnot (hek ▸ List.mem_map_of_mem he)

/-! ## Cleaning -/

/-- The loop of `zend_hash_clean` frees the buckets of the list and touches nothing
else. -/
theorem cleanLoop_spec (ht : HashTable α) (fuel : ℕ) {pre : Option Addr}
    (hseg : Seg ht.listNext ht.listLast pre t none) (hf : t.length < fuel) :
    HashTable.cleanLoop fuel t.head? ht = { ht with
      live := ht.live \ t.toFinset
      destroyed := ht.destroyed ++ t.map fun a => (ht.mem a).pData } := by
  induction t generalizing ht pre fuel with
  | nil =>
    obtain ⟨fuel, rfl⟩ : ∃ n, fuel = n + 1 := ⟨fuel - 1, by simp at hf; omega⟩
    simp [HashTable.cleanLoop]
  | cons q t ih =>
    obtain ⟨fuel, rfl⟩ : ∃ n, fuel = n + 1 := ⟨fuel - 1, by simp at hf; omega⟩
    obtain ⟨-, hn, hseg⟩ := hseg
    have hn' : (ht.mem q).pListNext = t.head? := by simpa [HashTable.listNext] using hn
    rw [List.head?_cons, HashTable.cleanLoop, hn',
      ih ((ht.callDestructor q).pefree q) fuel hseg (by simp at hf; omega)]
    have hlive : ht.live.erase q \ t.toFinset = ht.live \ (q :: t).toFinset := by
      ext x
      simp
      tauto
    simp [HashTable.callDestructor, HashTable.pefree, hlive]

/-- **`zend_hash_clean`** leaves no bucket. -/
theorem Inv.zendHashClean (h : Inv ht l) : Inv ht.zendHashClean [] := by
  obtain ⟨ch, hch⟩ := h.chains
  unfold HashTable.zendHashClean
  dsimp only
  have hspec := cleanLoop_spec ({ ht with
      arBuckets := if ht.nTableMask = 0 then ht.arBuckets
        else fun i => if i < ht.nTableSize then none else ht.arBuckets i
      pListHead := none
      pListTail := none
      nNumOfElements := 0
      nNextFreeElement := 0
      pInternalPointer := none }) (t := l) ht.loopBound h.list.seg (by rw [h.loopBound_eq]; omega)
  rw [← h.list.head] at hspec
  rw [hspec]
  refine ⟨⟨⟨rfl, rfl, trivial, List.nodup_nil, by simp⟩, by simp [h.live], rfl, h.size,
    h.mask.imp_left fun hm => ⟨hm.1, rfl⟩, by simp, by simp⟩, fun _ => [], ?_⟩
  refine ⟨fun i hi => ?_, by simp, by simp, by simp⟩
  show (if ht.nTableMask = 0 then ht.arBuckets
    else fun i => if i < ht.nTableSize then none else ht.arBuckets i) i = none
  rcases h.mask with ⟨h0, rfl⟩ | hm
  · rw [if_pos h0, hch.head i hi]
    cases hci : ch i with
    | nil => rfl
    | cons a r => exact absurd ((hch.mem i hi a).mp (by simp [hci])).1 (by simp)
  · obtain ⟨k, hk3, -, hk⟩ := h.size
    have hpow : 2 ^ 3 ≤ 2 ^ k := Nat.pow_le_pow_right (by omega) hk3
    rw [if_neg (by omega), if_pos (show i < ht.nTableSize from hi)]

/-! ## Walks that delete -/

/-- The pairs that `zend_hash_apply` leaves of those it still has to visit. -/
def applyEntries {K : Type} (applyFunc : ℕ → α → ApplyResult α) :
    ℕ → List (K × α) → List (K × α)
  | _, [] => []
  | n, (k, v) :: rest =>
      let result := applyFunc n v
      let rest' := if result.stop then rest else applyEntries applyFunc (n + 1) rest
      if result.remove then rest' else (k, result.pDest) :: rest'

theorem Inv.store_result (h : Inv ht (s ++ p :: t)) (v : α) :
    Inv (ht.store p fun b => { b with pData := v }) (s ++ p :: t) ∧
      (ht.store p fun b => { b with pData := v }).entries s = ht.entries s ∧
      (ht.store p fun b => { b with pData := v }).entries t = ht.entries t ∧
      Holds (ht.store p fun b => { b with pData := v }) (s ++ p :: t) p (ht.keyOf p) v := by
  obtain ⟨hi, hk⟩ := h.of_pData (ht.store p fun b => { b with pData := v }) rfl fun x =>
    ⟨((ht.store p fun b => { b with pData := v }).mem x).pData, by
      by_cases hx : x = p <;> simp [hx]⟩
  have hnd : (p :: (s ++ t)).Nodup := List.perm_middle.nodup_iff.mp h.list.nodup
  have hp := (List.nodup_cons.mp hnd).1
  have hr : ∀ r : List Addr, (∀ a ∈ r, a ∈ s ++ t) →
      (ht.store p fun b => { b with pData := v }).entries r = ht.entries r := by
    intro r hr
    refine List.map_congr_left fun a ha => ?_
    have hap : a ≠ p := fun hap => hp (hap ▸ hr a ha)
    rw [hk a (by have := hr a ha; simp at this ⊢; tauto), HashTable.store_mem, if_neg hap]
  exact ⟨hi, hr s (fun a ha => by simp [ha]), hr t (fun a ha => by simp [ha]),
    by simp, hk p (by simp), by simp⟩

theorem entries_append (ht : HashTable α) (s t : List Addr) :
    ht.entries (s ++ t) = ht.entries s ++ ht.entries t := List.map_append

@[simp] theorem entries_nil (ht : HashTable α) : ht.entries [] = [] := rfl

theorem entries_cons (ht : HashTable α) (p : Addr) (t : List Addr) :
    ht.entries (p :: t) = (ht.keyOf p, (ht.mem p).pData) :: ht.entries t := rfl

theorem Removes.entries_split (h : Inv ht (s ++ p :: t)) (hr : Removes ht ht' s t p) :
    ht'.entries s = ht.entries s ∧ ht'.entries t = ht.entries t :=
  ⟨entries_congr (fun a ha => h.keys a (by simp [ha])) fun a _ => hr.payload a,
    entries_congr (fun a ha => h.keys a (by simp [ha])) fun a _ => hr.payload a⟩

/-- One turn of an apply walk, at the bucket `p`: the value is stored and the bucket
deleted, or kept. -/
def HashTable.applyTurn (ht : HashTable α) (r : ApplyResult α) (p : Addr) : HashTable α :=
  if r.remove then ((ht.store p fun b => { b with pData := r.pDest }).zendHashApplyDeleter p).1
  else ht.store p fun b => { b with pData := r.pDest }

/-- What is left of the pair of `p` after the turn. -/
def keptEntry (k : Key) (r : ApplyResult α) : List (Key × α) :=
  if r.remove then [] else [(k, r.pDest)]

theorem Inv.applyTurn (h : Inv ht (s ++ p :: t)) (r : ApplyResult α) :
    Inv (ht.applyTurn r p) (s ++ ((if r.remove then [] else [p]) ++ t)) ∧
      (ht.applyTurn r p).entries (s ++ if r.remove then [] else [p]) =
        ht.entries s ++ keptEntry (ht.keyOf p) r ∧
      (ht.applyTurn r p).entries ((if r.remove then [] else [p]) ++ t) =
        keptEntry (ht.keyOf p) r ++ ht.entries t ∧
      (ht.applyTurn r p).entries s = ht.entries s ∧
      (ht.applyTurn r p).entries t = ht.entries t := by
  obtain ⟨hi, hs, ht_, hp⟩ := h.store_result r.pDest
  unfold HashTable.applyTurn keptEntry
  generalize ht.store p (fun b => { b with pData := r.pDest }) = ht1 at *
  cases r.remove with
  | false =>
    refine ⟨by simpa using hi, ?_, ?_, by simpa using hs, by simpa using ht_⟩
    · simp [entries_append, entries_cons, hs, hp.keyOf, hp.pData]
    · simp [entries_cons, ht_, hp.keyOf, hp.pData]
  | true =>
    obtain ⟨hr, -⟩ := hi.zendHashApplyDeleter
    obtain ⟨he1, he2⟩ := Removes.entries_split hi hr
    exact ⟨by simpa using hr.inv, by simp [he1, hs], by simp [he2, ht_], by simp [he1, hs],
      by simp [he2, ht_]⟩

/-- The loop of `zend_hash_apply` at a bucket, as one turn and the rest. -/
theorem Inv.applyLoop_cons (h : Inv ht (s ++ p :: t)) (f : ℕ → α → ApplyResult α)
    (fuel n : ℕ) :
    HashTable.applyLoop f (fuel + 1) n (some p) ht =
      let r := f n (ht.mem p).pData
      if r.stop then ht.applyTurn r p
      else HashTable.applyLoop f fuel (n + 1) t.head? (ht.applyTurn r p) := by
  have hnext : (ht.mem p).pListNext = t.head? := by
    simpa [HashTable.listNext] using h.list.seg.at_middle.2
  conv_lhs => rw [HashTable.applyLoop]
  unfold HashTable.applyTurn
  dsimp only
  generalize f n (ht.mem p).pData = r
  have hi := (h.store_result r.pDest).1
  cases hr : r.remove with
  | false => simp [hnext]
  | true => simp [(hi.zendHashApplyDeleter).2]

/-- The walk of `zend_hash_apply` over the buckets of `t`. -/
theorem applyLoop_spec (f : ℕ → α → ApplyResult α) (fuel n : ℕ) (h : Inv ht (s ++ t))
    (hf : t.length < fuel) :
    ∃ l', Inv (HashTable.applyLoop f fuel n t.head? ht) l' ∧
      (HashTable.applyLoop f fuel n t.head? ht).entries l' =
        ht.entries s ++ applyEntries f n (ht.entries t) := by
  induction t generalizing ht s fuel n with
  | nil =>
    obtain ⟨fuel, rfl⟩ : ∃ n, fuel = n + 1 := ⟨fuel - 1, by simp at hf; omega⟩
    exact ⟨s ++ [], h, by simp [HashTable.applyLoop, applyEntries]⟩
  | cons p t ih =>
    obtain ⟨fuel, rfl⟩ : ∃ n, fuel = n + 1 := ⟨fuel - 1, by simp at hf; omega⟩
    rw [List.head?_cons, h.applyLoop_cons, entries_cons]
    dsimp only [applyEntries]
    generalize f n (ht.mem p).pData = r
    obtain ⟨hi, hes, -, -, het⟩ := h.applyTurn r
    have hsplit : ∀ rest : List (Key × α), (if r.remove = true then rest
        else (ht.keyOf p, r.pDest) :: rest) = keptEntry (ht.keyOf p) r ++ rest := by
      intro rest
      unfold keptEntry
      split <;> rfl
    rw [hsplit, ← List.append_assoc, ← hes]
    rw [← List.append_assoc] at hi
    cases hr : r.stop with
    | true => exact ⟨_, hi, by rw [if_pos rfl, if_pos rfl, entries_append, het]⟩
    | false =>
      simp only [Bool.false_eq_true, if_false, ← het]
      exact ih fuel (n + 1) hi (by simp at hf; omega)

/-- **`zend_hash_apply`.** -/
theorem Inv.zendHashApply (h : Inv ht l) (f : ℕ → α → ApplyResult α) :
    ∃ l', Inv (ht.zendHashApply f) l' ∧
      (ht.zendHashApply f).entries l' = applyEntries f 0 (ht.entries l) := by
  have hspec := applyLoop_spec (s := []) (t := l) f ht.loopBound 0 h (by rw [h.loopBound_eq]; omega)
  rw [← h.list.head] at hspec
  exact hspec

/-- The walk of `zend_hash_reverse_apply` over the buckets of `s`, from the last one. -/
theorem reverseApplyLoop_spec (f : ℕ → α → ApplyResult α) (fuel n : ℕ) (h : Inv ht (s ++ t))
    (hf : s.length < fuel) :
    ∃ l', Inv (HashTable.reverseApplyLoop f fuel n s.getLast? ht) l' ∧
      (HashTable.reverseApplyLoop f fuel n s.getLast? ht).entries l' =
        (applyEntries f n (ht.entries s).reverse).reverse ++ ht.entries t := by
  induction s using List.reverseRecOn generalizing ht t fuel n with
  | nil =>
    obtain ⟨fuel, rfl⟩ : ∃ n, fuel = n + 1 := ⟨fuel - 1, by simp at hf; omega⟩
    exact ⟨t, h, by simp [HashTable.reverseApplyLoop, applyEntries, HashTable.entries]⟩
  | append_singleton s p ih =>
    obtain ⟨fuel, rfl⟩ : ∃ n, fuel = n + 1 := ⟨fuel - 1, by simp at hf; omega⟩
    rw [List.append_assoc, List.singleton_append] at h
    have hlast : (ht.mem p).pListLast = s.getLast? := by
      simpa [HashTable.listLast] using h.list.seg.at_middle.1
    have hloop : HashTable.reverseApplyLoop f (fuel + 1) n (some p) ht =
        let r := f n (ht.mem p).pData
        if r.stop then ht.applyTurn r p
        else HashTable.reverseApplyLoop f fuel (n + 1) s.getLast? (ht.applyTurn r p) := by
      conv_lhs => rw [HashTable.reverseApplyLoop]
      simp [HashTable.applyTurn, hlast]
    have hrev : (ht.entries (s ++ [p])).reverse =
        (ht.keyOf p, (ht.mem p).pData) :: (ht.entries s).reverse := by
      simp [HashTable.entries]
    rw [List.getLast?_concat, hloop, hrev]
    dsimp only [applyEntries]
    generalize f n (ht.mem p).pData = r
    obtain ⟨hi, -, het, hes, -⟩ := h.applyTurn r
    have hsplit : ∀ rest : List (Key × α), (if r.remove = true then rest
        else (ht.keyOf p, r.pDest) :: rest).reverse =
          rest.reverse ++ keptEntry (ht.keyOf p) r := by
      intro rest
      unfold keptEntry
      split <;> simp
    rw [hsplit, List.append_assoc, ← het]
    cases hr : r.stop with
    | true => exact ⟨_, hi, by rw [if_pos rfl, if_pos rfl, entries_append, hes, List.reverse_reverse]⟩
    | false =>
      simp only [Bool.false_eq_true, if_false, ← hes]
      exact ih fuel (n + 1) hi (by simp at hf; omega)

/-- **`zend_hash_reverse_apply`.** -/
theorem Inv.zendHashReverseApply (h : Inv ht l) (f : ℕ → α → ApplyResult α) :
    ∃ l', Inv (ht.zendHashReverseApply f) l' ∧
      (ht.zendHashReverseApply f).entries l' =
        (applyEntries f 0 (ht.entries l).reverse).reverse := by
  have h' : Inv ht (l ++ []) := by simpa using h
  have hspec := reverseApplyLoop_spec (s := l) (t := []) f ht.loopBound 0 h'
    (by rw [h.loopBound_eq]; omega)
  rw [← h.list.tail, entries_nil, List.append_nil] at hspec
  exact hspec

/-- **`zend_hash_graceful_destroy`** deletes every bucket, first to last. -/
theorem Inv.zendHashGracefulDestroy (h : Inv ht l) : Inv ht.zendHashGracefulDestroy [] := by
  have hloop : ∀ (t : List Addr) (fuel : ℕ) (ht : HashTable α), Inv ht t → t.length < fuel →
      Inv (HashTable.gracefulDestroyLoop fuel t.head? ht) [] := by
    intro t
    induction t with
    | nil =>
      intro fuel ht h hf
      obtain ⟨fuel, rfl⟩ : ∃ n, fuel = n + 1 := ⟨fuel - 1, by simp at hf; omega⟩
      exact h
    | cons p t ih =>
      intro fuel ht h hf
      obtain ⟨fuel, rfl⟩ : ∃ n, fuel = n + 1 := ⟨fuel - 1, by simp at hf; omega⟩
      obtain ⟨hr, hn⟩ := Inv.zendHashApplyDeleter (s := []) h
      simp only [List.head?_cons, HashTable.gracefulDestroyLoop, hn]
      exact ih fuel _ hr.inv (by simp at hf; omega)
  have := hloop l ht.loopBound ht h (by rw [h.loopBound_eq]; omega)
  rwa [← h.list.head] at this

/-- **`zend_hash_graceful_reverse_destroy`** deletes every bucket, last to first. -/
theorem Inv.zendHashGracefulReverseDestroy (h : Inv ht l) :
    Inv ht.zendHashGracefulReverseDestroy [] := by
  have hloop : ∀ (s : List Addr) (fuel : ℕ) (ht : HashTable α), Inv ht s → s.length < fuel →
      Inv (HashTable.gracefulReverseDestroyLoop fuel ht) [] := by
    intro s
    induction s using List.reverseRecOn with
    | nil =>
      intro fuel ht h hf
      obtain ⟨fuel, rfl⟩ : ∃ n, fuel = n + 1 := ⟨fuel - 1, by simp at hf; omega⟩
      have htail : ht.pListTail = none := h.list.tail
      simpa [HashTable.gracefulReverseDestroyLoop, htail] using h
    | append_singleton s p ih =>
      intro fuel ht h hf
      obtain ⟨fuel, rfl⟩ : ∃ n, fuel = n + 1 := ⟨fuel - 1, by simp at hf; omega⟩
      have htail : ht.pListTail = some p := by rw [h.list.tail]; simp
      obtain ⟨hr, -⟩ := Inv.zendHashApplyDeleter h
      simp only [HashTable.gracefulReverseDestroyLoop, htail]
      exact ih fuel _ (by simpa using hr.inv) (by simp at hf; omega)
  exact hloop l ht.loopBound ht h (by rw [h.loopBound_eq]; omega)

end PhpRuntime.Hash
