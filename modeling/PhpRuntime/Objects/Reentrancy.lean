import PhpRuntime.Objects.References

/-!
# Releases that are interrupted by their callbacks

Every step of a release keeps the invariant, as long as `free_storage` leaves the array
where it is.
-/

set_option autoImplicit false

namespace PhpRuntime.Objects

open PhpRuntime.Lib

section Release

variable {w : World} {stack : List Frame} {f f' : Frame} {h obj : ℕ} {failure : Bool}
  {refs : ℕ → ℕ}

theorem Inv.live_of_references (hi : Inv w stack) (hr : 0 < references w.owned stack h) :
    w.store.Live h := by
  by_contra hn
  exact Nat.ne_of_gt hr (hi.counts.dead h hn)

theorem Inv.live_of_owned (hi : Inv w stack) (ho : 0 < w.owned h) : w.store.Live h :=
  hi.live_of_references (Nat.lt_of_lt_of_le ho (Nat.le_add_right _ _))

theorem Histories.access (hh : Histories w stack) : Histories (w.access obj) stack :=
  hh.congr (fun _ => Iff.rfl) (fun _ => Bucket.Same.refl _) rfl rfl (fun _ => Iff.rfl)

theorem Store.Laid.access (hl : w.store.Laid) (hh : w.store.Live h)
    (ha : ∀ a ∈ w.accesses, a.Inside) :
    ∀ a ∈ (w.access (w.store.address h)).accesses, a.Inside := by
  intro a hmem
  cases hmem with
  | head => exact hl.inside hh.2.1
  | tail _ hmem => exact ha a hmem

theorem Inv.access (hi : Inv w stack) (hh : w.store.Live h) :
    Inv (w.access (w.store.address h)) stack where
  laid := hi.laid
  counts := hi.counts
  framed := hi.framed
  histories := hi.histories.access
  inside := hi.laid.access hh hi.inside

/-- The end of a release that leaves other references, with an `obj` of the current array.
`refs` counts the references while the release still holds its own. -/
theorem finish_inv (hl : w.store.Laid) (hc : w.store.Counts refs)
    (hf : Framed w.store w.owned stack) (hh : Histories w stack)
    (ha : ∀ a ∈ w.accesses, a.Inside) (hlive : w.store.Live h)
    (h1 : references w.owned stack h + 1 = refs h) (h2 : 0 < references w.owned stack h)
    (hr : ∀ x, x ≠ h → references w.owned stack x = refs x) :
    Inv (finish (w.store.address h) failure w stack).world stack := by
  have hw : (finish (w.store.address h) failure w stack).world =
      { w.access (w.store.address h) with store := w.store.modify h Bucket.decremented } := by
    unfold finish
    rw [← Store.decrement_address]
    rfl
  have hl' : ∀ x, (w.store.modify h Bucket.decremented).Live x ↔ w.store.Live x :=
    fun x => Store.live_modify (Bucket.decremented_valid _)
  have hb : ∀ x, (w.store.bucket x).Same ((w.store.modify h Bucket.decremented).bucket x) :=
    Store.modify_same ⟨rfl, rfl, rfl⟩
  rw [hw]
  constructor
  · exact hl.modify (Bucket.decremented_valid _) (Bucket.decremented_next _)
  · exact hc.decrement hlive h1 h2 hr
  · apply hf.congr
    · intro g hg
      exact (hl' g.handle).mpr (hf.live g hg)
    · intro g hg
      exact ((hb g.handle).called).trans (hf.called g hg)
    · exact hf.alone
  · exact hh.congr hl' hb rfl rfl fun _ => Iff.rfl
  · exact hl.access hlive ha

theorem Inv.finish (hi : Inv w (f :: stack)) (hn : ¬ f.Freeing)
    (h1 : (w.store.bucket f.handle).refcount ≠ 1) :
    Inv (finish (w.store.address f.handle) failure w stack).world stack := by
  have hlive := hi.framed.live f List.mem_cons_self
  have hcount := hi.counts.counted f.handle hlive
  have hself : references w.owned (f :: stack) f.handle =
      references w.owned stack f.handle + 1 := by
    unfold references
    rw [pending_cons_self]
    rfl
  apply finish_inv hi.laid hi.counts hi.framed.tail _ hi.inside hlive hself.symm
  · omega
  · intro x hx
    unfold references
    rw [pending_cons_of_ne hx]
  · exact hi.histories.congr (fun _ => Iff.rfl) (fun _ => Bucket.Same.refl _) rfl rfl
      fun _ => (freeing_cons_of_not hn).symm

theorem Inv.finish_take (hi : Inv w stack) (ho : 0 < w.owned h)
    (h1 : (w.store.bucket h).refcount ≠ 1) :
    Inv (PhpRuntime.Objects.finish (w.store.address h) failure (w.take h) stack).world stack := by
  have hlive := hi.live_of_owned ho
  have hcount := hi.counts.counted h hlive
  have hself : references (w.take h).owned stack h + 1 = references w.owned stack h := by
    unfold references World.take
    dsimp only
    rw [Function.update_self]
    omega
  apply finish_inv (w := w.take h) hi.laid hi.counts _ _ hi.inside hlive hself
  · omega
  · intro x hx
    unfold references World.take
    dsimp only
    rw [Function.update_of_ne hx]
  · apply hi.framed.congr hi.framed.live hi.framed.called
    intro g hg hfree
    have h0 := hi.framed.alone g hg hfree
    unfold World.take
    dsimp only
    by_cases e : g.handle = h
    · rw [e] at h0
      omega
    · rw [Function.update_of_ne e]
      exact h0
  · exact hi.histories.congr (fun _ => Iff.rfl) (fun _ => Bucket.Same.refl _) rfl rfl
      fun _ => Iff.rfl

theorem Inv.take (hi : Inv w stack) (ho : 0 < w.owned f.handle) (hn : ¬ f.Freeing)
    (h1 : (w.store.bucket f.handle).refcount = 1)
    (hc : (w.store.bucket f.handle).destructor_called = true) :
    Inv (w.take f.handle) (f :: stack) := by
  have hlive := hi.live_of_owned ho
  have hcount := hi.counts.counted f.handle hlive
  have hpend : pending stack f.handle = 0 := by
    unfold references at hcount
    omega
  have hrefs : ∀ x, references (w.take f.handle).owned (f :: stack) x =
      references w.owned stack x := by
    intro x
    unfold references World.take
    dsimp only
    by_cases hx : x = f.handle
    · subst hx
      rw [Function.update_self, pending_cons_self]
      omega
    · rw [Function.update_of_ne hx, pending_cons_of_ne hx]
  constructor
  · exact hi.laid
  · exact hi.counts.congr (fun _ => Iff.rfl) (fun _ => rfl) hrefs
  · constructor
    · apply List.nodup_cons.mpr
      refine ⟨?_, hi.framed.nodup⟩
      intro hmem
      obtain ⟨g, hg, e⟩ := List.mem_map.mp hmem
      exact pending_eq_zero_iff.mp hpend g hg e
    · exact List.forall_mem_cons.mpr ⟨hlive, hi.framed.live⟩
    · exact List.forall_mem_cons.mpr ⟨hc, hi.framed.called⟩
    · intro g hg hfree
      cases hg with
      | head => exact absurd hfree hn
      | tail _ hg =>
        have hne : g.handle ≠ f.handle := pending_eq_zero_iff.mp hpend g hg
        unfold World.take
        dsimp only
        rw [Function.update_of_ne hne]
        exact hi.framed.alone g hg hfree
  · exact hi.histories.congr (fun _ => Iff.rfl) (fun _ => Bucket.Same.refl _) rfl rfl
      fun _ => freeing_cons_of_not hn
  · exact hi.inside

theorem Inv.called {w' : World} (hi : Inv w stack) (hlive : w.store.Live h)
    (hn : (w.store.bucket h).destructor_called = false)
    (hs : w'.store = w.store.setCalled h) (ho : w'.owned = w.owned)
    (hr : w'.created = w.created) (hc : w'.calls = ⟨.dtor, (w.store.bucket h).object, 0⟩ :: w.calls)
    (ha : w'.accesses = w.accesses) : Inv w' stack := by
  have hl : ∀ x, w'.store.Live x ↔ w.store.Live x := by
    intro x
    rw [hs]
    exact Store.live_modify rfl
  have hself : w'.store.bucket h = { w.store.bucket h with destructor_called := true } := by
    rw [hs]
    exact Store.modify_bucket_self
  have hother : ∀ x, x ≠ h → w'.store.bucket x = w.store.bucket x := by
    intro x hx
    rw [hs]
    exact Store.modify_bucket_of_ne hx
  constructor
  · rw [hs]
    exact hi.laid.modify (f := fun b => { b with destructor_called := true }) rfl rfl
  · apply hi.counts.congr hl
    · intro x
      rw [hs]
      exact Store.modify_field Bucket.refcount rfl x
    · intro x
      rw [ho]
  · apply hi.framed.congr
    · intro g hg
      exact (hl g.handle).mpr (hi.framed.live g hg)
    · intro g hg
      by_cases e : g.handle = h
      · rw [e, hself]
      · rw [hother _ e]
        exact hi.framed.called g hg
    · rw [ho]
      exact hi.framed.alone
  · have hfree : w'.times .free_storage (w.store.bucket h).object =
        w.times .free_storage (w.store.bucket h).object := by
      rw [times_cons hc]
      simp
    apply hi.histories.call hlive hc hr hl
    · intro x hx
      rw [hother x hx]
      exact Bucket.Same.refl _
    · rw [hself]
    · rw [hself]
    · exact fun _ _ => Iff.rfl
    · rw [times_cons hc, hi.histories.dtor_now h hlive, hself, hn]
      simp
    · rw [hfree]
      exact hi.histories.free_later h hlive
    · rw [hfree]
      exact hi.histories.free_now h hlive
  · rw [ha]
    exact hi.inside

theorem Inv.last (hi : Inv w (f :: stack)) (h1 : (w.store.bucket f.handle).refcount = 1) :
    w.owned f.handle = 0 ∧ pending stack f.handle = 0 := by
  have hcount := hi.counts.counted f.handle (hi.framed.live f List.mem_cons_self)
  have hpend := hi.framed.head_alone
  unfold references at hcount
  rw [pending_cons_self] at hcount
  exact ⟨by omega, hpend⟩

/-- The release that holds the last reference calls `free_storage`. -/
theorem Inv.callFree (hi : Inv w (f :: stack)) (hn : ¬ f.Freeing)
    (h1 : (w.store.bucket f.handle).refcount = 1)
    (hs : (w.store.bucket f.handle).free_storage = true) (he : f'.handle = f.handle)
    (hf' : f'.Freeing) : Inv (w.call .free_storage f.handle stack) (f' :: stack) := by
  have hlive := hi.framed.live f List.mem_cons_self
  obtain ⟨howned, hpend⟩ := hi.last h1
  have hcalls : (w.call .free_storage f.handle stack).calls =
      ⟨.free_storage, (w.store.bucket f.handle).object, 0⟩ :: w.calls := by
    unfold World.call
    dsimp only
    rw [howned, hpend]
  have hlater : w.times .free_storage (w.store.bucket f.handle).object = 0 := by
    apply hi.histories.free_later f.handle hlive
    rw [freeing_cons_of_not hn]
    intro e
    exact e.pending_pos hpend
  constructor
  · exact hi.laid
  · exact hi.counts.congr (fun _ => Iff.rfl) (fun _ => rfl) (references_rehead he)
  · exact hi.framed.rehead he howned
  · apply hi.histories.call hlive hcalls rfl (fun _ => Iff.rfl)
    · exact fun _ _ => Bucket.Same.refl _
    · rfl
    · rfl
    · intro x hx
      rw [freeing_cons_of_not hn, freeing_cons, he]
      constructor
      · intro e
        exact e.resolve_left fun e => hx e.1.symm
      · exact Or.inr
    · have hd : (w.call .free_storage f.handle stack).times .dtor (w.store.bucket f.handle).object =
          w.times .dtor (w.store.bucket f.handle).object := by
        rw [times_cons hcalls]
        simp
      rw [hd]
      exact hi.histories.dtor_now f.handle hlive
    · intro e
      exact absurd ⟨f', List.mem_cons_self, he, hf'⟩ e
    · intro _
      rw [times_cons hcalls, hlater, hs]
      simp
  · exact hi.inside

/-- An object without `free_storage` goes straight to the free list. -/
theorem Inv.skipFree (hi : Inv w (f :: stack)) (hn : ¬ f.Freeing)
    (h1 : (w.store.bucket f.handle).refcount = 1)
    (hs : (w.store.bucket f.handle).free_storage = false) (he : f'.handle = f.handle) :
    Inv w (f' :: stack) := by
  have hlive := hi.framed.live f List.mem_cons_self
  obtain ⟨howned, hpend⟩ := hi.last h1
  have hlater : w.times .free_storage (w.store.bucket f.handle).object = 0 := by
    apply hi.histories.free_later f.handle hlive
    rw [freeing_cons_of_not hn]
    intro e
    exact e.pending_pos hpend
  have hfreeing : ∀ x, x ≠ f.handle → (Freeing (f' :: stack) x ↔ Freeing (f :: stack) x) := by
    intro x hx
    rw [freeing_cons_of_not hn, freeing_cons, he]
    constructor
    · intro e
      exact e.resolve_left fun e => hx e.1.symm
    · exact Or.inr
  have hh := hi.histories
  refine ⟨hi.laid, ?_, hi.framed.rehead he howned, ?_, hi.inside⟩
  · exact hi.counts.congr (fun _ => Iff.rfl) (fun _ => rfl) (references_rehead he)
  · refine ⟨hh.known, hh.injective, hh.dtor_now, ?_, ?_, hh.gone, hh.unborn, hh.alone⟩
    · intro x hx hnot
      by_cases e : x = f.handle
      · rw [e]
        exact hlater
      · exact hh.free_later x hx fun e' => hnot ((hfreeing x e).mpr e')
    · intro x hx hnow
      by_cases e : x = f.handle
      · rw [e, hlater, hs]
        rfl
      · exact hh.free_now x hx ((hfreeing x e).mp hnow)

/-- The bucket of a release whose `free_storage` is done goes to the free list, with an
`obj` of the current array. -/
theorem Inv.release (hi : Inv w (f :: stack)) (hf : f.Freeing)
    (hobj : obj = w.store.address f.handle) :
    Inv (release f.handle obj failure w stack).world stack := by
  have hlive := hi.framed.live f List.mem_cons_self
  have howned := hi.framed.alone f List.mem_cons_self hf
  have hpend := hi.framed.head_alone
  have hnow := hi.histories.free_now f.handle hlive ⟨f, List.mem_cons_self, rfl, hf⟩
  have hne : ∀ g ∈ stack, g.handle ≠ f.handle := pending_eq_zero_iff.mp hpend
  obtain ⟨hlaid, hlive1, hsame1⟩ := addToFreeList_spec hi.laid hlive
  generalize hw : (PhpRuntime.Objects.release f.handle obj failure w stack).world = w'
  have hs : w'.store = (w.store.addToFreeList f.handle).modify f.handle Bucket.decremented := by
    rw [← hw, hobj, ← Store.decrement_address]
    rfl
  have hl : ∀ x, w'.store.Live x ↔ x ≠ f.handle ∧ w.store.Live x := by
    intro x
    rw [hs, Store.live_modify (Bucket.decremented_valid _)]
    exact hlive1 x
  have hb : ∀ x, x ≠ f.handle → w'.store.bucket x = w.store.bucket x := by
    intro x hx
    rw [hs, Store.modify_bucket_of_ne hx]
    exact hsame1 x hx
  have ho : w'.owned = w.owned := by
    rw [← hw]
    rfl
  have hr : w'.created = w.created := by
    rw [← hw]
    rfl
  have ht : ∀ cb n, w'.times cb n = w.times cb n := by
    intro cb n
    rw [← hw]
    rfl
  have hrefs : ∀ x, x ≠ f.handle →
      references w'.owned stack x = references w.owned (f :: stack) x := by
    intro x hx
    unfold references
    rw [ho, pending_cons_of_ne hx]
  have hzero : references w'.owned stack f.handle = 0 := by
    unfold references
    rw [ho, howned, hpend]
  constructor
  · rw [hs]
    exact hlaid.modify (Bucket.decremented_valid _) (Bucket.decremented_next _)
  · constructor
    · intro x hx
      obtain ⟨hx1, hx2⟩ := (hl x).mp hx
      rw [hb x hx1, hrefs x hx1]
      exact hi.counts.counted x hx2
    · intro x hx
      obtain ⟨hx1, hx2⟩ := (hl x).mp hx
      rw [hrefs x hx1]
      exact hi.counts.positive x hx2
    · intro x
      by_cases e : x = f.handle
      · rw [e, hzero]
        exact Nat.lt_of_succ_lt one_lt_uintRange
      · rw [hrefs x e]
        exact hi.counts.bounded x
    · intro x hx
      by_cases e : x = f.handle
      · rw [e]
        exact hzero
      · rw [hrefs x e]
        exact hi.counts.dead x fun e' => hx ((hl x).mpr ⟨e, e'⟩)
  · apply hi.framed.tail.congr
    · intro g hg
      exact (hl g.handle).mpr ⟨hne g hg, hi.framed.tail.live g hg⟩
    · intro g hg
      rw [hb g.handle (hne g hg)]
      exact hi.framed.tail.called g hg
    · rw [ho]
      exact hi.framed.tail.alone
  · have hfreeing : ∀ x, x ≠ f.handle → (Freeing stack x ↔ Freeing (f :: stack) x) := by
      intro x hx
      rw [freeing_cons]
      constructor
      · exact Or.inr
      · intro e
        exact e.resolve_left fun e => hx e.1.symm
    constructor
    · intro x hx
      obtain ⟨hx1, hx2⟩ := (hl x).mp hx
      rw [hb x hx1, hr]
      exact hi.histories.known x hx2
    · intro x y hx hy e
      obtain ⟨hx1, hx2⟩ := (hl x).mp hx
      obtain ⟨hy1, hy2⟩ := (hl y).mp hy
      rw [hb x hx1, hb y hy1] at e
      exact hi.histories.injective x y hx2 hy2 e
    · intro x hx
      obtain ⟨hx1, hx2⟩ := (hl x).mp hx
      rw [ht, hb x hx1]
      exact hi.histories.dtor_now x hx2
    · intro x hx hnot
      obtain ⟨hx1, hx2⟩ := (hl x).mp hx
      rw [ht, hb x hx1]
      exact hi.histories.free_later x hx2 fun e => hnot ((hfreeing x hx1).mpr e)
    · intro x hx hfr
      obtain ⟨hx1, hx2⟩ := (hl x).mp hx
      rw [ht, hb x hx1]
      exact hi.histories.free_now x hx2 ((hfreeing x hx1).mp hfr)
    · intro n b hn hgone
      rw [ht, ht]
      rw [hr] at hn
      by_cases e : (w.store.bucket f.handle).object = n
      · -- the object that goes now, its two callbacks have been called
        have hk := hi.histories.known f.handle hlive
        rw [e, hn, Option.some.injEq] at hk
        rw [← e, hk, hi.histories.dtor_now f.handle hlive, hi.framed.called f List.mem_cons_self]
        exact ⟨rfl, hnow⟩
      · apply hi.histories.gone n b hn
        intro x hx
        by_cases e' : x = f.handle
        · rw [e']
          exact e
        · rw [← hb x e']
          exact hgone x ((hl x).mpr ⟨e', hx⟩)
    · intro cb n hn
      rw [ht]
      rw [hr] at hn
      exact hi.histories.unborn cb n hn
    · have hc : w'.calls = w.calls := by
        rw [← hw]
        rfl
      rw [hc]
      exact hi.histories.alone
  · have ha : w'.accesses = (w.access (w.store.address f.handle)).accesses := by
      rw [← hw, hobj]
      rfl
    rw [ha]
    exact hi.laid.access hlive hi.inside

/-! ## References come and go -/

/-- A reference is added to an object in use whose `free_storage` does not run. -/
theorem Inv.addRef (hi : Inv w stack) (hlive : w.store.Live h) (hn : ¬ Freeing stack h)
    (hlt : (w.store.bucket h).refcount + 1 < uintRange) :
    Inv (addRef h w) stack := by
  have hl : ∀ x, (zend_objects_store_add_ref h w.store).Live x ↔ w.store.Live x :=
    fun x => Store.live_modify rfl
  have hb : ∀ x, (w.store.bucket x).Same ((zend_objects_store_add_ref h w.store).bucket x) :=
    Store.modify_same ⟨rfl, rfl, rfl⟩
  constructor
  · exact hi.laid.modify (f := fun b => { b with refcount := (b.refcount + 1) % uintRange }) rfl rfl
  · apply hi.counts.add_ref hlive hlt
    · unfold references PhpRuntime.Objects.addRef
      dsimp only
      rw [Function.update_self, Nat.add_right_comm]
    · intro x hx
      unfold references PhpRuntime.Objects.addRef
      dsimp only
      rw [Function.update_of_ne hx]
  · apply hi.framed.congr
    · intro g hg
      exact (hl g.handle).mpr (hi.framed.live g hg)
    · intro g hg
      exact (hb g.handle).called.trans (hi.framed.called g hg)
    · intro g hg hf
      have hne : g.handle ≠ h := fun e => hn ⟨g, hg, e, hf⟩
      unfold PhpRuntime.Objects.addRef
      dsimp only
      rw [Function.update_of_ne hne]
      exact hi.framed.alone g hg hf
  · exact hi.histories.congr hl hb rfl rfl fun _ => Iff.rfl
  · exact hi.inside

theorem Inv.put {free_storage : Bool} {moved : ℕ} (hi : Inv w stack) (hm : 0 < moved)
    (hz : w.store.free_list_head = -1 → w.store.top = w.store.size →
      w.store.size * 2 < uintRange) :
    Inv (put free_storage moved w) stack := by
  have hp := zend_objects_store_put_spec w.created.length free_storage moved hi.laid hm hz
  obtain ⟨hlaid, hfresh, hbucket, hlive, hbelow⟩ := hp
  generalize hw : PhpRuntime.Objects.put free_storage moved w = w'
  have hs : w'.store = zend_objects_store_put w.created.length free_storage moved w.store := by
    rw [← hw]
    rfl
  have ho : w'.owned =
      Function.update w.owned w.store.nextHandle (w.owned w.store.nextHandle + 1) := by
    rw [← hw]
    rfl
  have hr : w'.created = w.created ++ [free_storage] := by
    rw [← hw]
    rfl
  have hc : w'.calls = w.calls := by
    rw [← hw]
    rfl
  have ha : w'.accesses = ⟨w'.store.address w.store.nextHandle, w'.store.object_buckets,
      w'.store.size⟩ :: w.accesses := by
    rw [← hw]
    rfl
  rw [← hs] at hlaid hbucket hlive hbelow
  generalize w.store.nextHandle = h at *
  have hself : w'.store.bucket h = (w.store.bucket h).put w.created.length free_storage := by
    rw [hbucket, Function.update_self]
  have hother : ∀ x, x ≠ h → w'.store.bucket x = w.store.bucket x := by
    intro x hx
    rw [hbucket, Function.update_of_ne hx]
  have hdead := hi.counts.dead h hfresh
  have howned : w.owned h = 0 := Nat.eq_zero_of_add_eq_zero_right hdead
  have hpend : pending stack h = 0 := Nat.eq_zero_of_add_eq_zero_left hdead
  have hne : ∀ g ∈ stack, g.handle ≠ h := pending_eq_zero_iff.mp hpend
  have hrefs : ∀ x, x ≠ h → references w'.owned stack x = references w.owned stack x := by
    intro x hx
    unfold references
    rw [ho, Function.update_of_ne hx]
  have hone : references w'.owned stack h = 1 := by
    unfold references
    rw [ho, Function.update_self, howned, hpend]
  have ht : ∀ cb n, w'.times cb n = w.times cb n := by
    intro cb n
    unfold World.times
    rw [hc]
  have hnew : ∀ cb, w'.times cb w.created.length = 0 := by
    intro cb
    rw [ht]
    exact hi.histories.unborn cb _ (Nat.le_refl _)
  have hold : ∀ x, w'.store.Live x → x ≠ h → w.store.Live x :=
    fun x hx e => ((hlive x).mp hx).resolve_left e
  constructor
  · exact hlaid
  · constructor
    · intro x hx
      by_cases e : x = h
      · rw [e, hself, hone]
        rfl
      · rw [hother x e, hrefs x e]
        exact hi.counts.counted x (hold x hx e)
    · intro x hx
      by_cases e : x = h
      · rw [e, hone]
        exact Nat.one_pos
      · rw [hrefs x e]
        exact hi.counts.positive x (hold x hx e)
    · intro x
      by_cases e : x = h
      · rw [e, hone]
        exact one_lt_uintRange
      · rw [hrefs x e]
        exact hi.counts.bounded x
    · intro x hx
      rw [hlive x, not_or] at hx
      rw [hrefs x hx.1]
      exact hi.counts.dead x hx.2
  · apply hi.framed.congr
    · intro g hg
      exact (hlive g.handle).mpr (Or.inr (hi.framed.live g hg))
    · intro g hg
      rw [hother _ (hne g hg)]
      exact hi.framed.called g hg
    · intro g hg hf
      rw [ho, Function.update_of_ne (hne g hg)]
      exact hi.framed.alone g hg hf
  · have hlt : ∀ x, w'.store.Live x → x ≠ h →
        (w'.store.bucket x).object < w.created.length := by
      intro x hx e
      rw [hother x e]
      exact hi.histories.lt_created (hold x hx e)
    have hobj : (w'.store.bucket h).object = w.created.length := by
      rw [hself]
      rfl
    constructor
    · intro x hx
      rw [hr]
      by_cases e : x = h
      · rw [e, hself]
        exact List.getElem?_concat_length
      · rw [List.getElem?_append_left (hlt x hx e), hother x e]
        exact hi.histories.known x (hold x hx e)
    · intro x y hx hy e
      by_cases ex : x = h <;> by_cases ey : y = h
      · rw [ex, ey]
      · have hlty := hlt y hy ey
        rw [← e, ex, hobj] at hlty
        exact absurd hlty (Nat.lt_irrefl _)
      · have hltx := hlt x hx ex
        rw [e, ey, hobj] at hltx
        exact absurd hltx (Nat.lt_irrefl _)
      · rw [hother x ex, hother y ey] at e
        exact hi.histories.injective x y (hold x hx ex) (hold y hy ey) e
    · intro x hx
      by_cases e : x = h
      · rw [e, hobj, hnew, hself]
        rfl
      · rw [ht, hother x e]
        exact hi.histories.dtor_now x (hold x hx e)
    · intro x hx hnot
      by_cases e : x = h
      · rw [e, hobj, hnew]
      · rw [ht, hother x e]
        exact hi.histories.free_later x (hold x hx e) hnot
    · intro x hx hnow
      by_cases e : x = h
      · rw [e] at hnow
        exact absurd hpend hnow.pending_pos
      · rw [ht, hother x e]
        exact hi.histories.free_now x (hold x hx e) hnow
    · intro n b hn hgone
      rw [ht, ht]
      have hne' : n ≠ w.created.length := by
        intro e
        exact hgone h ((hlive h).mpr (Or.inl rfl)) (hobj.trans e.symm)
      have hlt' : n < w.created.length := by
        have hle := (List.getElem?_eq_some_iff.mp hn).1
        rw [hr, List.length_append, List.length_singleton] at hle
        omega
      rw [hr, List.getElem?_append_left hlt'] at hn
      apply hi.histories.gone n b hn
      intro x hx
      have hxh : x ≠ h := fun e => hfresh (e ▸ hx)
      rw [← hother x hxh]
      exact hgone x ((hlive x).mpr (Or.inr hx))
    · intro cb n hn
      rw [hr, List.length_append, List.length_singleton] at hn
      rw [ht]
      exact hi.histories.unborn cb n (Nat.le_of_succ_le hn)
    · rw [hc]
      exact hi.histories.alone
  · rw [ha]
    exact List.forall_mem_cons.mpr ⟨hlaid.inside hbelow, hi.inside⟩

end Release

end PhpRuntime.Objects
