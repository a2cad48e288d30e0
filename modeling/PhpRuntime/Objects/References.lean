import PhpRuntime.Objects.Layout

/-!
# References and callbacks

The invariant of the store while releases are interrupted by their callbacks. The
`refcount` of an object is the number of references its callers own plus one for each
interrupted release of it, and a callback is called only while the release that calls it
holds the last one.
-/

set_option autoImplicit false

namespace PhpRuntime.Objects

open PhpRuntime.Lib

/-- The references to a handle: those its callers own and those of interrupted releases. -/
def references (owned : ℕ → ℕ) (stack : List Frame) (handle : ℕ) : ℕ :=
  owned handle + pending stack handle

/-- An interrupted release has called the `free_storage` of this handle. -/
def Freeing (stack : List Frame) (handle : ℕ) : Prop :=
  ∃ f ∈ stack, f.handle = handle ∧ f.Freeing

/-- The handles in use are those with references, and `refcount` counts them. -/
structure Store.Counts (s : Store) (refs : ℕ → ℕ) : Prop where
  counted : ∀ h, s.Live h → (s.bucket h).refcount = refs h
  positive : ∀ h, s.Live h → 0 < refs h
  bounded : ∀ h, refs h < uintRange
  dead : ∀ h, ¬ s.Live h → refs h = 0

/-- The interrupted releases are of different objects that are in use. The one whose
`free_storage` runs has no other reference. -/
structure Framed (s : Store) (owned : ℕ → ℕ) (stack : List Frame) : Prop where
  nodup : (stack.map Frame.handle).Nodup
  live : ∀ f ∈ stack, s.Live f.handle
  called : ∀ f ∈ stack, (s.bucket f.handle).destructor_called = true
  alone : ∀ f ∈ stack, f.Freeing → owned f.handle = 0

/-- The calls so far. An object is known by the number of its put. -/
structure Histories (w : World) (stack : List Frame) : Prop where
  known : ∀ h, w.store.Live h →
    w.created[(w.store.bucket h).object]? = some (w.store.bucket h).free_storage
  injective : ∀ h h', w.store.Live h → w.store.Live h' →
    (w.store.bucket h).object = (w.store.bucket h').object → h = h'
  dtor_now : ∀ h, w.store.Live h →
    w.times .dtor (w.store.bucket h).object = (w.store.bucket h).destructor_called.toNat
  free_later : ∀ h, w.store.Live h → ¬ Freeing stack h →
    w.times .free_storage (w.store.bucket h).object = 0
  free_now : ∀ h, w.store.Live h → Freeing stack h →
    w.times .free_storage (w.store.bucket h).object = (w.store.bucket h).free_storage.toNat
  gone : ∀ n b, w.created[n]? = some b →
    (∀ h, w.store.Live h → (w.store.bucket h).object ≠ n) →
      w.times .dtor n = 1 ∧ w.times .free_storage n = b.toNat
  unborn : ∀ callback n, w.created.length ≤ n → w.times callback n = 0
  alone : ∀ c ∈ w.calls, c.others = 0

/-- The invariant of the world while the releases of `stack` are interrupted. -/
structure Inv (w : World) (stack : List Frame) : Prop where
  laid : w.store.Laid
  counts : w.store.Counts (references w.owned stack)
  framed : Framed w.store w.owned stack
  histories : Histories w stack
  inside : ∀ a ∈ w.accesses, a.Inside

section Stacks

variable {f f' : Frame} {stack : List Frame} {h : ℕ}

theorem pending_cons_self : pending (f :: stack) f.handle = pending stack f.handle + 1 :=
  List.count_cons_self

theorem pending_cons_of_ne (hh : h ≠ f.handle) : pending (f :: stack) h = pending stack h :=
  List.count_cons_of_ne (Ne.symm hh)

theorem pending_eq_zero_iff : pending stack h = 0 ↔ ∀ f ∈ stack, f.handle ≠ h := by
  unfold pending
  rw [List.count_eq_zero, List.mem_map]
  constructor
  · intro hn f hf e
    exact hn ⟨f, hf, e⟩
  · rintro hn ⟨f, hf, e⟩
    exact hn f hf e

theorem freeing_cons : Freeing (f :: stack) h ↔ (f.handle = h ∧ f.Freeing) ∨ Freeing stack h := by
  unfold Freeing
  simp

theorem freeing_cons_of_not (hn : ¬ f.Freeing) : Freeing (f :: stack) h ↔ Freeing stack h := by
  rw [freeing_cons]
  constructor
  · intro e
    exact e.resolve_left fun e => hn e.2
  · exact Or.inr

theorem Freeing.pending_pos (hf : Freeing stack h) : pending stack h ≠ 0 := by
  obtain ⟨f, hm, e, -⟩ := hf
  intro h0
  exact pending_eq_zero_iff.mp h0 f hm e

theorem Framed.tail {s : Store} {owned : ℕ → ℕ} (hf : Framed s owned (f :: stack)) :
    Framed s owned stack where
  nodup := (List.nodup_cons.mp hf.nodup).2
  live g hg := hf.live g (List.mem_cons_of_mem _ hg)
  called g hg := hf.called g (List.mem_cons_of_mem _ hg)
  alone g hg := hf.alone g (List.mem_cons_of_mem _ hg)

theorem Framed.head_alone {s : Store} {owned : ℕ → ℕ} (hf : Framed s owned (f :: stack)) :
    pending stack f.handle = 0 := by
  apply pending_eq_zero_iff.mpr
  intro g hg e
  exact (List.nodup_cons.mp hf.nodup).1 (List.mem_map.mpr ⟨g, hg, e⟩)

/-- The innermost release goes on to `free_storage`. -/
theorem Framed.rehead {s : Store} {owned : ℕ → ℕ} (hf : Framed s owned (f :: stack))
    (he : f'.handle = f.handle) (ho : owned f.handle = 0) : Framed s owned (f' :: stack) := by
  have hmem : ∀ g ∈ f' :: stack, g.handle = f.handle ∨ g ∈ stack := by
    intro g hg
    cases hg with
    | head => exact Or.inl he
    | tail _ hg => exact Or.inr hg
  constructor
  · rw [List.map_cons, he]
    exact hf.nodup
  · intro g hg
    cases hmem g hg with
    | inl e =>
      rw [e]
      exact hf.live f List.mem_cons_self
    | inr hg => exact hf.live g (List.mem_cons_of_mem _ hg)
  · intro g hg
    cases hmem g hg with
    | inl e =>
      rw [e]
      exact hf.called f List.mem_cons_self
    | inr hg => exact hf.called g (List.mem_cons_of_mem _ hg)
  · intro g hg hfree
    cases hmem g hg with
    | inl e =>
      rw [e]
      exact ho
    | inr hg => exact hf.alone g (List.mem_cons_of_mem _ hg) hfree

theorem references_rehead {owned : ℕ → ℕ} (he : f'.handle = f.handle) (x : ℕ) :
    references owned (f' :: stack) x = references owned (f :: stack) x := by
  unfold references pending
  rw [List.map_cons, List.map_cons, he]

theorem Framed.congr {s s' : Store} {owned owned' : ℕ → ℕ} (hf : Framed s owned stack)
    (hl : ∀ f ∈ stack, s'.Live f.handle)
    (hc : ∀ f ∈ stack, (s'.bucket f.handle).destructor_called = true)
    (ho : ∀ f ∈ stack, f.Freeing → owned' f.handle = 0) : Framed s' owned' stack :=
  ⟨hf.nodup, hl, hc, ho⟩

end Stacks

section Calls

variable {w w' : World} {stack stack' : List Frame} {callback callback' : Callback} {h n : ℕ}

theorem times_cons {others : ℕ} (hc : w'.calls = ⟨callback', n, others⟩ :: w.calls) (m : ℕ) :
    w'.times callback m = w.times callback m + if callback' = callback ∧ n = m then 1 else 0 := by
  unfold World.times
  rw [hc, List.countP_cons]
  congr 1
  unfold Call.is
  simp

/-- Two buckets hold the same object in the same stage of its life. -/
structure Bucket.Same (b b' : Bucket) : Prop where
  object : b'.object = b.object
  free_storage : b'.free_storage = b.free_storage
  called : b'.destructor_called = b.destructor_called

theorem Histories.congr (hh : Histories w stack) (hl : ∀ x, w'.store.Live x ↔ w.store.Live x)
    (hb : ∀ x, (w.store.bucket x).Same (w'.store.bucket x)) (hc : w'.calls = w.calls)
    (hn : w'.created = w.created) (hf : ∀ x, Freeing stack' x ↔ Freeing stack x) :
    Histories w' stack' := by
  have ht : ∀ cb n, w'.times cb n = w.times cb n := by
    intro cb n
    unfold World.times
    rw [hc]
  constructor
  · intro h hlive
    rw [hn, (hb h).object, (hb h).free_storage]
    exact hh.known h ((hl h).mp hlive)
  · intro h h' hlive hlive' e
    rw [(hb h).object, (hb h').object] at e
    exact hh.injective h h' ((hl h).mp hlive) ((hl h').mp hlive') e
  · intro h hlive
    rw [ht, (hb h).object, (hb h).called]
    exact hh.dtor_now h ((hl h).mp hlive)
  · intro h hlive hfree
    rw [ht, (hb h).object]
    rw [hf h] at hfree
    exact hh.free_later h ((hl h).mp hlive) hfree
  · intro h hlive hfree
    rw [ht, (hb h).object, (hb h).free_storage]
    rw [hf h] at hfree
    exact hh.free_now h ((hl h).mp hlive) hfree
  · intro n b hcreated hgone
    rw [ht, ht]
    rw [hn] at hcreated
    apply hh.gone n b hcreated
    intro h hlive
    rw [← (hb h).object]
    exact hgone h ((hl h).mpr hlive)
  · intro cb n hle
    rw [ht]
    rw [hn] at hle
    exact hh.unborn cb n hle
  · intro c hcall
    rw [hc] at hcall
    exact hh.alone c hcall

theorem Histories.lt_created (hh : Histories w stack) (hl : w.store.Live h) :
    (w.store.bucket h).object < w.created.length :=
  (List.getElem?_eq_some_iff.mp (hh.known h hl)).1

theorem Histories.call (hh : Histories w stack) (hlive : w.store.Live h)
    (hc : w'.calls = ⟨callback, (w.store.bucket h).object, 0⟩ :: w.calls)
    (hn : w'.created = w.created) (hl : ∀ x, w'.store.Live x ↔ w.store.Live x)
    (hb : ∀ x, x ≠ h → (w.store.bucket x).Same (w'.store.bucket x))
    (ho : (w'.store.bucket h).object = (w.store.bucket h).object)
    (hs : (w'.store.bucket h).free_storage = (w.store.bucket h).free_storage)
    (hf : ∀ x, x ≠ h → (Freeing stack' x ↔ Freeing stack x))
    (hd : w'.times .dtor (w.store.bucket h).object = (w'.store.bucket h).destructor_called.toNat)
    (hfree : ¬ Freeing stack' h → w'.times .free_storage (w.store.bucket h).object = 0)
    (hfreeing : Freeing stack' h → w'.times .free_storage (w.store.bucket h).object =
      (w.store.bucket h).free_storage.toNat) : Histories w' stack' := by
  have hobj : ∀ x, (w'.store.bucket x).object = (w.store.bucket x).object := by
    intro x
    by_cases e : x = h
    · rw [e]
      exact ho
    · exact (hb x e).object
  have hfs : ∀ x, (w'.store.bucket x).free_storage = (w.store.bucket x).free_storage := by
    intro x
    by_cases e : x = h
    · rw [e]
      exact hs
    · exact (hb x e).free_storage
  have hsame : ∀ cb m, (w.store.bucket h).object ≠ m → w'.times cb m = w.times cb m := by
    intro cb m hne
    rw [times_cons hc, if_neg fun e => hne e.2, Nat.add_zero]
  have hother : ∀ x, w.store.Live x → x ≠ h →
      (w.store.bucket h).object ≠ (w.store.bucket x).object := by
    intro x hx hne e
    exact hne (hh.injective x h hx hlive e.symm)
  constructor
  · intro x hx
    rw [hn, hobj, hfs]
    exact hh.known x ((hl x).mp hx)
  · intro x y hx hy e
    rw [hobj, hobj] at e
    exact hh.injective x y ((hl x).mp hx) ((hl y).mp hy) e
  · intro x hx
    rw [hobj]
    by_cases e : x = h
    · rw [e]
      exact hd
    · rw [hsame _ _ (hother x ((hl x).mp hx) e), (hb x e).called]
      exact hh.dtor_now x ((hl x).mp hx)
  · intro x hx hnot
    rw [hobj]
    by_cases e : x = h
    · rw [e] at hnot ⊢
      exact hfree hnot
    · rw [hsame _ _ (hother x ((hl x).mp hx) e)]
      exact hh.free_later x ((hl x).mp hx) fun e' => hnot ((hf x e).mpr e')
  · intro x hx hnow
    rw [hobj, hfs]
    by_cases e : x = h
    · rw [e] at hnow ⊢
      exact hfreeing hnow
    · rw [hsame _ _ (hother x ((hl x).mp hx) e)]
      exact hh.free_now x ((hl x).mp hx) ((hf x e).mp hnow)
  · intro m b hm hgone
    have hgone' : ∀ x, w.store.Live x → (w.store.bucket x).object ≠ m := by
      intro x hx
      rw [← hobj x]
      exact hgone x ((hl x).mpr hx)
    rw [hn] at hm
    rw [hsame _ _ (hgone' h hlive), hsame _ _ (hgone' h hlive)]
    exact hh.gone m b hm hgone'
  · intro cb m hm
    rw [hn] at hm
    rw [hsame _ _ (Nat.ne_of_lt (Nat.lt_of_lt_of_le (hh.lt_created hlive) hm))]
    exact hh.unborn cb m hm
  · rw [hc]
    exact List.forall_mem_cons.mpr ⟨rfl, hh.alone⟩

end Calls

/-! ## Changes of one bucket -/

section Changes

variable {s : Store} {h : ℕ} {refs refs' : ℕ → ℕ}

theorem Bucket.Same.refl (b : Bucket) : b.Same b :=
  ⟨rfl, rfl, rfl⟩

theorem Store.modify_same {f : Bucket → Bucket} (hf : (s.bucket h).Same (f (s.bucket h))) (x : ℕ) :
    (s.bucket x).Same ((s.modify h f).bucket x) :=
  ⟨Store.modify_field Bucket.object hf.object x,
    Store.modify_field Bucket.free_storage hf.free_storage x,
    Store.modify_field Bucket.destructor_called hf.called x⟩

theorem Store.Counts.congr {s' : Store} (hc : s.Counts refs) (hl : ∀ x, s'.Live x ↔ s.Live x)
    (hb : ∀ x, (s'.bucket x).refcount = (s.bucket x).refcount) (hr : ∀ x, refs' x = refs x) :
    s'.Counts refs' where
  counted x hx := by
    rw [hb, hr]
    exact hc.counted x ((hl x).mp hx)
  positive x hx := by
    rw [hr]
    exact hc.positive x ((hl x).mp hx)
  bounded x := by
    rw [hr]
    exact hc.bounded x
  dead x hx := by
    rw [hr]
    exact hc.dead x fun e => hx ((hl x).mpr e)

theorem Store.Counts.decrement (hc : s.Counts refs) (hh : s.Live h) (h1 : refs' h + 1 = refs h)
    (h2 : 0 < refs' h) (hr : ∀ x, x ≠ h → refs' x = refs x) :
    (s.modify h Bucket.decremented).Counts refs' := by
  have hlive : ∀ x, (s.modify h Bucket.decremented).Live x ↔ s.Live x :=
    fun x => Store.live_modify (Bucket.decremented_valid _)
  constructor
  · intro x hx
    by_cases e : x = h
    · subst e
      have hcount := hc.counted x hh
      have hlt := hc.bounded x
      rw [Store.modify_bucket_self]
      unfold Bucket.decremented
      dsimp only
      rw [hcount]
      unfold uintRange at hlt ⊢
      omega
    · rw [Store.modify_bucket_of_ne e, hr x e]
      exact hc.counted x ((hlive x).mp hx)
  · intro x hx
    by_cases e : x = h
    · subst e
      exact h2
    · rw [hr x e]
      exact hc.positive x ((hlive x).mp hx)
  · intro x
    by_cases e : x = h
    · subst e
      have hlt := hc.bounded x
      omega
    · rw [hr x e]
      exact hc.bounded x
  · intro x hx
    rw [hlive x] at hx
    rw [hr x]
    · exact hc.dead x hx
    · intro e
      exact hx (e ▸ hh)

theorem Store.Counts.add_ref (hc : s.Counts refs) (hh : s.Live h)
    (hlt : (s.bucket h).refcount + 1 < uintRange) (h1 : refs' h = refs h + 1)
    (hr : ∀ x, x ≠ h → refs' x = refs x) : (zend_objects_store_add_ref h s).Counts refs' := by
  have hlive : ∀ x, (zend_objects_store_add_ref h s).Live x ↔ s.Live x :=
    fun x => Store.live_modify rfl
  have hcount := hc.counted h hh
  constructor
  · intro x hx
    by_cases e : x = h
    · subst e
      have hself : ((zend_objects_store_add_ref x s).bucket x).refcount =
          ((s.bucket x).refcount + 1) % uintRange := by
        unfold zend_objects_store_add_ref
        rw [Store.modify_bucket_self]
      rw [hself, Nat.mod_eq_of_lt hlt, hcount, h1]
    · have hother : (zend_objects_store_add_ref h s).bucket x = s.bucket x :=
        Store.modify_bucket_of_ne e
      rw [hother, hr x e]
      exact hc.counted x ((hlive x).mp hx)
  · intro x hx
    by_cases e : x = h
    · subst e
      omega
    · rw [hr x e]
      exact hc.positive x ((hlive x).mp hx)
  · intro x
    by_cases e : x = h
    · subst e
      omega
    · rw [hr x e]
      exact hc.bounded x
  · intro x hx
    rw [hlive x] at hx
    rw [hr x]
    · exact hc.dead x hx
    · intro e
      exact hx (e ▸ hh)

end Changes

end PhpRuntime.Objects
