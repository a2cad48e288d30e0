import PhpRuntime.Hash.Copy
import PhpRuntime.Hash.Rekey
import PhpRuntime.Hash.Reorder

/-!
# Runs of a hash table

A run starts from `_zend_hash_init` and takes any operations, each called as its callers
call it (`Admissible`). Along a run whose steps are all `Clean` the representation
invariant holds and every operation does to the list of pairs what it does to an
insertion-ordered map. A step is not clean when a string key is passed by a pointer that an
integer bucket still has as its `arKey`: the pointer shortcut of the string lookups then
takes the integer bucket for the bucket of the key. `zend_hash_sort` with `renumber`
leaves such pointers behind.
-/

set_option autoImplicit false

namespace PhpRuntime.Hash

open PhpRuntime.Lib PhpRuntime.Lib.OrderedMap

variable {α : Type} {ht ht' : HashTable α} {l : List Addr} {p : Addr} {key : KeyArg} {v : α}

/-- One operation with its arguments. -/
inductive Op (α : Type) where
  | addOrUpdate (malloc : Malloc) (key : KeyArg) (pData : α) (flag : Flag)
  | quickAddOrUpdate (malloc : Malloc) (key : KeyArg) (h : UInt64) (pData : α) (flag : Flag)
  | indexUpdateOrNextInsert (malloc : Malloc) (h : UInt64) (pData : α) (flag : Flag)
  | delKeyOrIndex (key : KeyArg) (h : UInt64) (flag : DelFlag)
  | applyDeleter (p : Addr)
  | apply (applyFunc : ℕ → α → ApplyResult α)
  | reverseApply (applyFunc : ℕ → α → ApplyResult α)
  | gracefulDestroy
  | gracefulReverseDestroy
  | clean
  | rehash
  | doResize
  | sort (sortFunc : SortFunc α) (renumber : Bool)
  | updateCurrentKeyEx (malloc : Malloc) (key : KeyIndex) (mode : UpdateMode)
      (pos : Option (Option Addr))
  | copy (malloc : Malloc) (source : HashTable α) (ctor : Option (α → α))
  | merge (malloc : Malloc) (source : HashTable α) (ctor : Option (α → α)) (overwrite : Bool)

def Op.run (ht : HashTable α) : Op α → HashTable α
  | addOrUpdate malloc key pData flag => (ht.zendHashAddOrUpdate malloc key pData flag).1
  | quickAddOrUpdate malloc key h pData flag =>
      (ht.zendHashQuickAddOrUpdate malloc key h pData flag).1
  | indexUpdateOrNextInsert malloc h pData flag =>
      (ht.zendHashIndexUpdateOrNextInsert malloc h pData flag).1
  | delKeyOrIndex key h flag => (ht.zendHashDelKeyOrIndex key h flag).1
  | applyDeleter p => (ht.zendHashApplyDeleter p).1
  | apply f => ht.zendHashApply f
  | reverseApply f => ht.zendHashReverseApply f
  | gracefulDestroy => ht.zendHashGracefulDestroy
  | gracefulReverseDestroy => ht.zendHashGracefulReverseDestroy
  | clean => ht.zendHashClean
  | rehash => ht.zendHashRehash
  | doResize => ht.zendHashDoResize
  | sort f renumber => ht.zendHashSort f renumber
  | updateCurrentKeyEx malloc key mode pos =>
      (ht.zendHashUpdateCurrentKeyEx malloc key mode pos).1
  | copy malloc source ctor => HashTable.zendHashCopy malloc ht source ctor
  | merge malloc source ctor overwrite => HashTable.zendHashMerge malloc ht source ctor overwrite

def Op.source : Op α → Option (HashTable α)
  | copy _ source _ => some source
  | merge _ source _ _ => some source
  | _ => none

namespace HashTable

/-- The buckets along `pListHead`, `pListNext`. -/
def buckets (ht : HashTable α) : List Addr := ht.collect ht.loopBound ht.pListHead

/-- **The abstraction**: the pairs of key and value along `pListHead`, `pListNext`. -/
def toMap (ht : HashTable α) : List (Key × α) := ht.entries ht.buckets

end HashTable

/-- The source of a copy has blocks of its own, which the allocator does not hand out. -/
def Apart (malloc : Malloc) (ht source : HashTable α) : Prop :=
  (∀ a ∈ ht.buckets, a ∉ source.buckets) ∧ ∀ s, malloc.addr s ∉ source.buckets

/-- What the callers of an operation see to: key arguments point to their bytes, a hash that
is passed is the hash of the key, positions are buckets of the table, the static
`zend_hash_do_resize` is called for a table with buckets, and a source is another table. -/
def Admissible (ht : HashTable α) : Op α → Prop
  | .addOrUpdate _ key _ _ => ValidKey ht ht.buckets key
  | .quickAddOrUpdate _ key h _ _ =>
      key.nKeyLength ≠ 0 → ValidKey ht ht.buckets key ∧ h = zendInlineHashFunc key.bytes
  | .indexUpdateOrNextInsert _ _ _ _ => True
  | .delKeyOrIndex key h flag =>
      key.nKeyLength ≠ 0 → delHash key h flag = zendInlineHashFunc key.bytes
  | .applyDeleter p => p ∈ ht.buckets
  | .apply _ => True
  | .reverseApply _ => True
  | .gracefulDestroy => True
  | .gracefulReverseDestroy => True
  | .clean => True
  | .rehash => True
  | .doResize => ht.nNumOfElements ≠ 0
  | .sort _ _ => True
  | .updateCurrentKeyEx _ key _ pos =>
      key.Valid ht ht.buckets ∧ ∀ p, pos = some (some p) → p ∈ ht.buckets
  | .copy malloc source _ => Apart malloc ht source
  | .merge malloc source _ _ => Apart malloc ht source

/-- No string key comes with the key pointer of an integer bucket, and the counters (`uint`
for the number of buckets, `int` for the walk of a sort) do not wrap. -/
def Clean (ht : HashTable α) : Op α → Prop
  | .addOrUpdate _ key _ _ =>
      NotStale ht ht.buckets key.arKey ∧ ht.nNumOfElements + 1 < 2 ^ 32
  | .quickAddOrUpdate _ key _ _ _ =>
      NotStale ht ht.buckets key.arKey ∧ ht.nNumOfElements + 1 < 2 ^ 32
  | .indexUpdateOrNextInsert _ _ _ _ => ht.nNumOfElements + 1 < 2 ^ 32
  | .delKeyOrIndex _ _ _ => True
  | .applyDeleter _ => True
  | .apply _ => True
  | .reverseApply _ => True
  | .gracefulDestroy => True
  | .gracefulReverseDestroy => True
  | .clean => True
  | .rehash => True
  | .doResize => True
  | .sort _ _ => ht.nNumOfElements < 2 ^ 31
  | .updateCurrentKeyEx _ key _ _ => key.NotStale ht ht.buckets
  | .copy _ source _ =>
      (∀ p ∈ source.buckets, (source.mem p).nKeyLength ≠ 0 →
        NotStale ht ht.buckets (source.mem p).arKey) ∧
      ht.nNumOfElements + source.nNumOfElements < 2 ^ 32
  | .merge _ source _ _ =>
      (∀ p ∈ source.buckets, (source.mem p).nKeyLength ≠ 0 →
        NotStale ht ht.buckets (source.mem p).arKey) ∧
      ht.nNumOfElements + source.nNumOfElements < 2 ^ 32

/-- The tables reached from `_zend_hash_init` by operations that satisfy `P`; the source of
a copy is reached in the same way. -/
inductive Run (P : HashTable α → Op α → Prop) : HashTable α → Prop
  | init (mem : Addr → Bucket α) (nSize : ℕ) : Run P (zendHashInit mem nSize)
  | step {ht : HashTable α} (h : Run P ht) (op : Op α) (ha : Admissible ht op) (hp : P ht op)
      (hs : ∀ source, op.source = some source → Run P source) : Run P (op.run ht)

abbrev Reachable : HashTable α → Prop := Run fun _ _ => True

abbrev CleanRun : HashTable α → Prop := Run Clean

theorem Inv.buckets_eq (h : Inv ht l) : ht.buckets = l := h.collect_eq

theorem Inv.toMap_eq (h : Inv ht l) : ht.toMap = ht.entries l := by
  rw [HashTable.toMap, h.buckets_eq]

/-! ## The invariant along a run -/

theorem initExponent_spec (nSize : ℕ) (fuel i : ℕ) :
    i ≤ initExponent nSize fuel i ∧ initExponent nSize fuel i ≤ i + fuel ∧
      (i + fuel ≤ initExponent nSize fuel i → fuel = 0 ∨ 2 ^ (i + fuel - 1) < nSize) := by
  induction fuel generalizing i with
  | zero => simp [initExponent]
  | succ fuel ih =>
    simp only [initExponent]
    split
    · rename_i hlt
      obtain ⟨h1, h2, h3⟩ := ih (i + 1)
      refine ⟨by omega, by omega, fun hle => Or.inr ?_⟩
      rcases h3 (by omega) with h0 | h0
      · simpa [h0] using hlt
      · have he : i + 1 + fuel - 1 = i + (fuel + 1) - 1 := by omega
        rwa [he] at h0
    · exact ⟨le_rfl, by omega, fun hle => by omega⟩

/-- `_zend_hash_init` yields an empty table in order. -/
theorem Inv.zendHashInit (mem : Addr → Bucket α) (nSize : ℕ) :
    Inv (zendHashInit mem nSize) [] := by
  have hsize : ∃ k, 3 ≤ k ∧ k ≤ 31 ∧ (Hash.zendHashInit mem nSize).nTableSize = 2 ^ k := by
    unfold Hash.zendHashInit
    dsimp only
    split
    · exact ⟨31, by omega, by omega, by decide⟩
    · rename_i hlt
      obtain ⟨h1, h2, h3⟩ := initExponent_spec nSize 29 3
      refine ⟨_, h1, ?_, rfl⟩
      by_contra h32
      have hbig := (h3 (by omega)).resolve_left (by omega)
      have hpow : 2 ^ (3 + 29 - 1) = 0x80000000 := by decide
      omega
  refine ⟨⟨⟨rfl, rfl, trivial, List.nodup_nil, by simp [Hash.zendHashInit]⟩, rfl, rfl, hsize,
    Or.inl ⟨rfl, rfl⟩, by simp, by simp⟩, fun _ => [], ?_⟩
  exact ⟨fun _ _ => rfl, by simp, by simp, by simp⟩

theorem room_of_count (h : Inv ht l) (hc : ht.nNumOfElements + 1 < 2 ^ 32) :
    l.length + 1 < 2 ^ 32 := by
  rwa [h.count] at hc

theorem StoreSpec.exists_inv {malloc : Malloc} {k : Key} {addOnly : Prop}
    {r : HashTable α × Status × Option Addr} (h : StoreSpec malloc ht l k v addOnly r) :
    ∃ l', Inv r.1 l' := by
  rcases h with ⟨-, h⟩ | ⟨-, l', h⟩
  · exact ⟨l, h.inv⟩
  · exact ⟨l', h.inv⟩

theorem targetOk_of_clean {source : HashTable α} {ls : List Addr} {malloc : Malloc}
    (h : Inv ht l) (hsrc : Inv source ls) (ha : Apart malloc ht source)
    (hc : ∀ p ∈ source.buckets, (source.mem p).nKeyLength ≠ 0 →
      NotStale ht ht.buckets (source.mem p).arKey) :
    TargetOk source ls ht l ∧ ∀ s, malloc.addr s ∉ ls := by
  rw [Apart, h.buckets_eq, hsrc.buckets_eq] at ha
  rw [h.buckets_eq, hsrc.buckets_eq] at hc
  exact ⟨⟨h, ha.1, hc⟩, ha.2⟩

/-- **One clean step keeps the invariant.** -/
theorem Inv.step (h : Inv ht l) (op : Op α) (ha : Admissible ht op) (hc : Clean ht op)
    (hs : ∀ source, op.source = some source → ∃ ls, Inv source ls) : ∃ l', Inv (op.run ht) l' := by
  have hb := h.buckets_eq
  cases op with
  | addOrUpdate malloc key v flag =>
    simp only [Admissible, Clean, hb] at ha hc
    simp only [Op.run, HashTable.zendHashAddOrUpdate]
    split
    · exact ⟨l, h⟩
    · rename_i hlen
      exact (h.addOrUpdate malloc ha (fun a ha => hc.1.not_staleSlot ha) hlen
        (room_of_count h hc.2) v flag).exists_inv
  | quickAddOrUpdate malloc key n v flag =>
    simp only [Admissible, Clean, hb] at ha hc
    simp only [Op.run, HashTable.zendHashQuickAddOrUpdate]
    split
    · exact (h.zendHashIndexUpdateOrNextInsert malloc (room_of_count h hc.2) n v _).exists_inv
    · rename_i hlen
      obtain ⟨hv, rfl⟩ := ha hlen
      exact (h.addOrUpdate malloc hv (fun a ha => hc.1.not_staleSlot ha) hlen
        (room_of_count h hc.2) v flag).exists_inv
  | indexUpdateOrNextInsert malloc n v flag =>
    exact (h.zendHashIndexUpdateOrNextInsert malloc (room_of_count h hc) n v flag).exists_inv
  | delKeyOrIndex key n flag =>
    obtain ⟨l', h', -⟩ := h.zendHashDelKeyOrIndex n flag ha
    exact ⟨l', h'⟩
  | applyDeleter p =>
    simp only [Admissible, hb] at ha
    obtain ⟨s, t, rfl⟩ := List.append_of_mem ha
    exact ⟨s ++ t, h.zendHashApplyDeleter.1.inv⟩
  | apply f =>
    obtain ⟨l', h', -⟩ := h.zendHashApply f
    exact ⟨l', h'⟩
  | reverseApply f =>
    obtain ⟨l', h', -⟩ := h.zendHashReverseApply f
    exact ⟨l', h'⟩
  | gracefulDestroy => exact ⟨[], h.zendHashGracefulDestroy⟩
  | gracefulReverseDestroy => exact ⟨[], h.zendHashGracefulReverseDestroy⟩
  | clean => exact ⟨[], h.zendHashClean⟩
  | rehash => exact ⟨l, h.zendHashRehash.1⟩
  | doResize =>
    have hl : l ≠ [] := by
      rintro rfl
      exact ha h.count
    exact ⟨l, (h.zendHashDoResize hl).1⟩
  | sort f renumber =>
    obtain ⟨l', h', -⟩ := h.zendHashSort f renumber (by rw [← h.count]; exact hc)
    exact ⟨l', h'⟩
  | updateCurrentKeyEx malloc key mode pos =>
    simp only [Admissible, Clean, hb] at ha hc
    have hpos : ∀ p, pos.getD ht.pInternalPointer = some p → p ∈ l := by
      intro p hp
      cases pos with
      | none => exact h.list.pointer p hp
      | some o => exact ha.2 p (congrArg some hp)
    obtain ⟨l', h', -⟩ := h.zendHashUpdateCurrentKeyEx malloc ha.1 mode pos (hc.noHit hpos) hpos
    exact ⟨l', h'⟩
  | copy malloc source ctor =>
    obtain ⟨ls, hsrc⟩ := hs source rfl
    obtain ⟨ht_, hm⟩ := targetOk_of_clean h hsrc ha hc.1
    obtain ⟨l', h', -⟩ := ht_.zendHashCopy hsrc hm (by rw [← h.count, ← hsrc.count]; exact hc.2) ctor
    exact ⟨l', h'⟩
  | merge malloc source ctor overwrite =>
    obtain ⟨ls, hsrc⟩ := hs source rfl
    obtain ⟨ht_, hm⟩ := targetOk_of_clean h hsrc ha hc.1
    obtain ⟨l', h', -⟩ := ht_.zendHashMerge hsrc hm (by rw [← h.count, ← hsrc.count]; exact hc.2)
      ctor overwrite
    exact ⟨l', h'⟩

theorem CleanRun.exists_inv (h : CleanRun ht) : ∃ l, Inv ht l := by
  induction h with
  | init mem nSize => exact ⟨[], Inv.zendHashInit mem nSize⟩
  | step _ op ha hp _ ih ihs =>
    obtain ⟨l, hl⟩ := ih
    exact hl.step op ha hp ihs

end PhpRuntime.Hash
