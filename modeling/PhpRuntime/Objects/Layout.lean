import PhpRuntime.Objects.Store

/-!
# The array of the object store

What the operations do to the array and to its free list, whoever calls them: the list
holds the handles that are not in use, and a put takes one of these or a new one.
-/

set_option autoImplicit false

namespace PhpRuntime.Objects

open PhpRuntime.Lib

/-- The array is there, it has `top` buckets and its size is a `zend_uint`. -/
structure Store.Laid (s : Store) : Prop where
  array : 0 < s.object_buckets
  first : 1 ≤ s.top
  room : s.top ≤ s.size
  bound : s.size < uintRange
  free_list : FreeList link (-1) (fun h => (s.bucket h).next) s.free_list_head s.Vacant

section Links

variable {h h' : ℕ}

theorem unlink_link (hh : h < uintRange) : unlink (link h) = h := by
  unfold uintRange at hh
  unfold unlink link
  split <;> omega

theorem link_ne (hh : h + 1 < uintRange) : link h ≠ -1 := by
  unfold uintRange at hh
  unfold link
  split <;> omega

theorem link_injective (hh : h < uintRange) (hh' : h' < uintRange) (e : link h = link h') :
    h = h' := by
  rw [← unlink_link hh, e, unlink_link hh']

end Links

section Layout

variable {s s' : Store} {h x : ℕ} {f : Bucket → Bucket}

theorem Store.Laid.lt_size (hs : s.Laid) (hh : h < s.top) : h < s.size :=
  Nat.lt_of_lt_of_le hh hs.room

theorem Store.Laid.handle_lt (hs : s.Laid) (hh : h < s.top) : h + 1 < uintRange := by
  have h1 := hs.room
  have h2 := hs.bound
  omega

theorem Store.not_live_of_vacant (hv : s.Vacant h) : ¬ s.Live h := by
  intro hl
  have h1 := hv.2.2
  rw [hl.2.2] at h1
  cases h1

@[simp] theorem Store.modify_bucket_self : (s.modify h f).bucket h = f (s.bucket h) :=
  Function.update_self ..

theorem Store.modify_bucket_of_ne (hx : x ≠ h) : (s.modify h f).bucket x = s.bucket x :=
  Function.update_of_ne hx ..

theorem Store.modify_field {α : Type*} (field : Bucket → α)
    (hf : field (f (s.bucket h)) = field (s.bucket h)) (x : ℕ) :
    field ((s.modify h f).bucket x) = field (s.bucket x) := by
  by_cases hx : x = h
  · subst hx
    rw [modify_bucket_self]
    exact hf
  · rw [modify_bucket_of_ne hx]

theorem Store.live_modify (hv : (f (s.bucket h)).valid = (s.bucket h).valid) :
    (s.modify h f).Live x ↔ s.Live x := by
  unfold Store.Live
  rw [Store.modify_field Bucket.valid hv x]
  rfl

theorem Store.Laid.modify (hs : s.Laid) (hv : (f (s.bucket h)).valid = (s.bucket h).valid)
    (hn : (f (s.bucket h)).next = (s.bucket h).next) : (s.modify h f).Laid where
  array := hs.array
  first := hs.first
  room := hs.room
  bound := hs.bound
  free_list := by
    apply hs.free_list.congr
    · intro a
      unfold Store.Vacant
      rw [Store.modify_field Bucket.valid hv a]
      rfl
    · intro a _
      exact Store.modify_field Bucket.next hn a

theorem Store.address_injective (e : s.address x = s.address h) : x = h := by
  unfold Store.address bucketSize at e
  omega

theorem Store.decrement_address :
    s.decrement (s.address h) = s.modify h Bucket.decremented := by
  have hb : ∀ x, (if s.address x = s.address h then (s.bucket x).decremented else s.bucket x) =
      Function.update s.bucket h (s.bucket h).decremented x := by
    intro x
    by_cases hx : x = h
    · subst hx
      rw [if_pos rfl, Function.update_self]
    · rw [if_neg, Function.update_of_ne hx]
      intro e
      exact hx (Store.address_injective e)
  unfold Store.decrement Store.modify
  rw [funext hb]

theorem Store.Laid.inside (hs : s.Laid) (hh : h < s.top) :
    Access.Inside ⟨s.address h, s.object_buckets, s.size⟩ := by
  have hlt := hs.lt_size hh
  unfold Access.Inside Store.address bucketSize
  constructor
  · exact Nat.le_add_right _ _
  · dsimp only
    omega

/-! ## Taking and giving back a handle -/

/-- What a put does to the store. -/
structure Store.Puts (object : ℕ) (free_storage : Bool) (s s' : Store) : Prop where
  laid : s'.Laid
  fresh : ¬ s.Live s.nextHandle
  bucket : s'.bucket = Function.update s.bucket s.nextHandle
    ((s.bucket s.nextHandle).put object free_storage)
  live : ∀ x, s'.Live x ↔ x = s.nextHandle ∨ s.Live x
  below : s.nextHandle < s'.top

theorem put_reused (object : ℕ) (free_storage : Bool) (moved : ℕ) (hs : s.Laid)
    (hne : s.free_list_head ≠ -1) :
    s.Puts object free_storage (zend_objects_store_put object free_storage moved s) := by
  obtain ⟨h, hh, hv⟩ := hs.free_list.exists_head hne
  have hu : unlink s.free_list_head = h := by
    rw [hh]
    exact unlink_link (Nat.lt_of_succ_lt (hs.handle_lt hv.2.1))
  have hnext : s.nextHandle = h := by
    unfold Store.nextHandle
    rw [if_pos hne, hu]
  have hput : zend_objects_store_put object free_storage moved s =
      { s with free_list_head := (s.bucket h).next }.modify h (Bucket.put object free_storage) := by
    unfold zend_objects_store_put
    rw [if_pos hne, hu]
  have hvalid : ∀ x, x ≠ h → (Store.modify { s with free_list_head := (s.bucket h).next } h
      (Bucket.put object free_storage)).bucket x = s.bucket x :=
    fun x hx => Store.modify_bucket_of_ne hx
  have hself : (Store.modify { s with free_list_head := (s.bucket h).next } h
      (Bucket.put object free_storage)).bucket h = (s.bucket h).put object free_storage :=
    Store.modify_bucket_self
  rw [hput]
  constructor
  · refine ⟨hs.array, hs.first, hs.room, hs.bound, ?_⟩
    have hl := hs.free_list
    rw [hh] at hl
    apply hl.pop (link_ne (hs.handle_lt hv.2.1))
    · intro x hx e
      exact link_injective (Nat.lt_of_succ_lt (hs.handle_lt hx.2.1))
        (Nat.lt_of_succ_lt (hs.handle_lt hv.2.1)) e
    · intro x
      unfold Store.Vacant
      by_cases hx : x = h
      · subst hx
        rw [hself]
        simp [Bucket.put]
      · rw [hvalid x hx]
        exact ⟨fun h1 => ⟨hx, h1⟩, fun h1 => h1.2⟩
    · intro x hx
      by_cases e : x = h
      · subst e
        rw [hself]
        rfl
      · rw [hvalid x e]
  · rw [hnext]
    exact Store.not_live_of_vacant hv
  · rw [hnext]
    rfl
  · intro x
    rw [hnext]
    unfold Store.Live
    by_cases hx : x = h
    · subst hx
      rw [hself]
      exact ⟨fun _ => Or.inl rfl, fun _ => ⟨hv.1, hv.2.1, rfl⟩⟩
    · rw [hvalid x hx]
      exact ⟨Or.inr, fun h1 => h1.resolve_left hx⟩
  · rw [hnext]
    exact hv.2.1

theorem grow_spec (moved : ℕ) (hs : s.Laid) (hm : 0 < moved)
    (hz : s.top = s.size → s.size * 2 < uintRange) :
    0 < (s.grow moved).object_buckets ∧ (s.grow moved).top < (s.grow moved).size ∧
      (s.grow moved).size < uintRange ∧ (s.grow moved).bucket = s.bucket ∧
      (s.grow moved).top = s.top ∧ (s.grow moved).free_list_head = s.free_list_head := by
  have h1 := hs.first
  have h2 := hs.room
  unfold Store.grow
  by_cases ht : s.top = s.size
  · rw [if_pos ht]
    have hmod : s.size * 2 % uintRange = s.size * 2 := Nat.mod_eq_of_lt (hz ht)
    refine ⟨hm, ?_, ?_, rfl, rfl, rfl⟩
    · dsimp only
      omega
    · dsimp only
      rw [hmod]
      exact hz ht
  · rw [if_neg ht]
    exact ⟨hs.array, Nat.lt_of_le_of_ne h2 ht, hs.bound, rfl, rfl, rfl⟩

theorem put_appended (object : ℕ) (free_storage : Bool) (moved : ℕ) (hs : s.Laid)
    (hm : 0 < moved) (hz : s.top = s.size → s.size * 2 < uintRange)
    (heq : s.free_list_head = -1) :
    s.Puts object free_storage (zend_objects_store_put object free_storage moved s) := by
  obtain ⟨hbase, hroom, hbound, hbucket, htop, hhead⟩ := grow_spec moved hs hm hz
  have hnext : s.nextHandle = s.top := by
    unfold Store.nextHandle
    rw [if_neg (not_not.mpr heq)]
  have hput : zend_objects_store_put object free_storage moved s =
      { s.grow moved with top := ((s.grow moved).top + 1) % uintRange }.modify s.top
        (Bucket.put object free_storage) := by
    unfold zend_objects_store_put
    rw [if_neg (not_not.mpr heq)]
  have hmod : ((s.grow moved).top + 1) % uintRange = s.top + 1 := by
    rw [Nat.mod_eq_of_lt (Nat.lt_of_le_of_lt hroom hbound), htop]
  have hb : (zend_objects_store_put object free_storage moved s).bucket =
      Function.update s.bucket s.top ((s.bucket s.top).put object free_storage) := by
    rw [hput]
    unfold Store.modify
    rw [hbucket]
  have ht : (zend_objects_store_put object free_storage moved s).top = s.top + 1 := by
    rw [hput]
    exact hmod
  have hother : ∀ x, x ≠ s.top →
      (zend_objects_store_put object free_storage moved s).bucket x = s.bucket x := by
    intro x hx
    rw [hb, Function.update_of_ne hx]
  have hself : (zend_objects_store_put object free_storage moved s).bucket s.top =
      (s.bucket s.top).put object free_storage := by
    rw [hb, Function.update_self]
  have hvac : ∀ x, (zend_objects_store_put object free_storage moved s).Vacant x ↔ s.Vacant x := by
    intro x
    unfold Store.Vacant
    rw [ht]
    by_cases hx : x = s.top
    · subst hx
      rw [hself]
      simp [Bucket.put]
    · rw [hother x hx]
      have : x < s.top + 1 ↔ x < s.top := by omega
      rw [this]
  constructor
  · refine ⟨?_, ?_, ?_, ?_, ?_⟩
    · rw [hput]
      exact hbase
    · rw [ht]
      exact Nat.le_add_left 1 s.top
    · rw [ht, hput]
      rw [htop] at hroom
      exact hroom
    · rw [hput]
      exact hbound
    · have hh : (zend_objects_store_put object free_storage moved s).free_list_head =
          s.free_list_head := by
        rw [hput]
        exact hhead
      rw [hh]
      apply hs.free_list.congr hvac
      intro x hx
      rw [hother x (Nat.ne_of_lt hx.2.1)]
  · rw [hnext]
    intro hl
    exact Nat.lt_irrefl _ hl.2.1
  · rw [hnext]
    exact hb
  · intro x
    rw [hnext]
    unfold Store.Live
    rw [ht]
    by_cases hx : x = s.top
    · subst hx
      rw [hself]
      exact ⟨fun _ => Or.inl rfl, fun _ => ⟨hs.first, Nat.lt_succ_self _, rfl⟩⟩
    · rw [hother x hx]
      have : x < s.top + 1 ↔ x < s.top := by omega
      rw [this]
      exact ⟨Or.inr, fun h1 => h1.resolve_left hx⟩
  · rw [hnext, ht]
    exact Nat.lt_succ_self _

theorem zend_objects_store_put_spec (object : ℕ) (free_storage : Bool) (moved : ℕ) (hs : s.Laid)
    (hm : 0 < moved)
    (hz : s.free_list_head = -1 → s.top = s.size → s.size * 2 < uintRange) :
    s.Puts object free_storage (zend_objects_store_put object free_storage moved s) := by
  by_cases heq : s.free_list_head = -1
  · exact put_appended object free_storage moved hs hm (hz heq) heq
  · exact put_reused object free_storage moved hs heq

theorem addToFreeList_spec (hs : s.Laid) (hh : s.Live h) :
    (s.addToFreeList h).Laid ∧ (∀ x, (s.addToFreeList h).Live x ↔ x ≠ h ∧ s.Live x) ∧
      ∀ x, x ≠ h → (s.addToFreeList h).bucket x = s.bucket x := by
  have hother : ∀ x, x ≠ h → (s.addToFreeList h).bucket x = s.bucket x :=
    fun x hx => Store.modify_bucket_of_ne hx
  have hself : (s.addToFreeList h).bucket h =
      { s.bucket h with next := s.free_list_head, valid := false } :=
    Store.modify_bucket_self
  refine ⟨⟨hs.array, hs.first, hs.room, hs.bound, ?_⟩, ?_, hother⟩
  · apply hs.free_list.push (a := h)
    · intro hv
      exact Store.not_live_of_vacant hv hh
    · rw [hself]
    · intro x hx
      rw [hother x]
      intro e
      exact Store.not_live_of_vacant hx (e ▸ hh)
    · intro x
      unfold Store.Vacant
      by_cases hx : x = h
      · subst hx
        rw [hself]
        exact ⟨fun _ => Or.inl rfl, fun _ => ⟨hh.1, hh.2.1, rfl⟩⟩
      · rw [hother x hx]
        exact ⟨Or.inr, fun h1 => h1.resolve_left hx⟩
  · intro x
    unfold Store.Live
    by_cases hx : x = h
    · subst hx
      rw [hself]
      simp
    · rw [hother x hx]
      exact ⟨fun h1 => ⟨hx, h1⟩, fun h1 => h1.2⟩

end Layout

end PhpRuntime.Objects
