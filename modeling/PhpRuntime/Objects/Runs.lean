import PhpRuntime.Objects.Reentrancy

/-!
# Runs of the object store

A run is any sequence of puts, references added and references released, where each
release stays interrupted while its callback takes steps of its own.
-/

set_option autoImplicit false

namespace PhpRuntime.Objects

open PhpRuntime.Lib

/-! ## The steps of a release -/

section Steps

variable {w : World} {stack : List Frame} {f : Frame} {h : ℕ}

theorem afterDtor_inv (failure : Bool) (hi : Inv w (f :: stack)) (hn : ¬ f.Freeing) :
    Inv (afterDtor f.handle failure w stack).world (afterDtor f.handle failure w stack).stack := by
  have hlive := hi.framed.live f List.mem_cons_self
  have ha := hi.access hlive
  unfold afterDtor
  dsimp only
  by_cases h1 : (w.store.bucket f.handle).refcount = 1
  · rw [if_pos (show ((w.access _).store.bucket f.handle).refcount = 1 from h1)]
    cases hs : (w.store.bucket f.handle).free_storage with
    | true =>
      rw [if_pos (show ((w.access _).store.bucket f.handle).free_storage = true from hs)]
      exact ha.callFree hn h1 hs rfl (nofun)
    | false =>
      have hs' : ¬ ((w.access (w.store.address f.handle)).store.bucket f.handle).free_storage =
          true := by
        rw [Bool.not_eq_true]
        exact hs
      rw [if_neg hs']
      have hskip : Inv (w.access (w.store.address f.handle))
          (⟨f.handle, .free_storage 0, failure⟩ :: stack) := ha.skipFree hn h1 hs rfl
      exact hskip.release (f := ⟨f.handle, .free_storage 0, failure⟩) (nofun) rfl
  · rw [if_neg (show ¬ ((w.access _).store.bucket f.handle).refcount = 1 from h1)]
    exact ha.finish hn h1

theorem del_ref_calls_dtor (hi : Inv w stack) (ho : 0 < w.owned h)
    (h1 : (w.store.bucket h).refcount = 1) (hc : (w.store.bucket h).destructor_called = false) :
    Inv (((w.take h).setCalled h).call .dtor h stack) (⟨h, .dtor, false⟩ :: stack) := by
  have hlive := hi.live_of_owned ho
  have hcount := hi.counts.counted h hlive
  unfold references at hcount
  have hself : (w.store.setCalled h).bucket h =
      { w.store.bucket h with destructor_called := true } := Store.modify_bucket_self
  have hothers : (((w.take h).setCalled h).call .dtor h stack).calls =
      ⟨.dtor, (w.store.bucket h).object, 0⟩ :: w.calls := by
    have hown : (w.take h).owned h + pending stack h = 0 := by
      unfold World.take
      dsimp only
      rw [Function.update_self]
      omega
    have hobj : ((w.store.setCalled h).bucket h).object = (w.store.bucket h).object := by
      rw [hself]
    unfold World.call
    rw [← hown, ← hobj]
    rfl
  have hcalled : Inv { ((w.take h).setCalled h).call .dtor h stack with owned := w.owned } stack :=
    hi.called hlive hc rfl rfl rfl hothers rfl
  apply hcalled.take (f := ⟨h, .dtor, false⟩) ho (not_not.mpr rfl)
  · have hcount' : ((w.store.setCalled h).bucket h).refcount = 1 := by
      rw [hself]
      exact h1
    exact hcount'
  · have hcalled' : ((w.store.setCalled h).bucket h).destructor_called = true := by
      rw [hself]
    exact hcalled'

theorem del_ref_eq (hb : w.store.object_buckets ≠ 0) (hv : (w.store.bucket h).valid = true) :
    zend_objects_store_del_ref_by_handle_ex h w stack =
      let w' := (w.access (w.store.address h)).take h
      if (w.store.bucket h).refcount = 1 then
        if (w.store.bucket h).destructor_called then afterDtor h false w' stack
        else
          { world := (w'.setCalled h).call .dtor h stack
            stack := ⟨h, .dtor, false⟩ :: stack
            bailout := false }
      else finish (w.store.address h) false w' stack := by
  unfold zend_objects_store_del_ref_by_handle_ex
  rw [if_neg hb]
  exact if_pos hv

theorem del_ref_inv (hi : Inv w stack) (ho : 0 < w.owned h) :
    Inv (zend_objects_store_del_ref_by_handle_ex h w stack).world
      (zend_objects_store_del_ref_by_handle_ex h w stack).stack := by
  have hlive := hi.live_of_owned ho
  have ha := hi.access hlive
  rw [del_ref_eq (Nat.ne_of_gt hi.laid.array) hlive.2.2]
  dsimp only
  by_cases h1 : (w.store.bucket h).refcount = 1
  · rw [if_pos h1]
    cases hc : (w.store.bucket h).destructor_called with
    | true =>
      rw [if_pos rfl]
      have ht : Inv ((w.access (w.store.address h)).take h) (⟨h, .dtor, false⟩ :: stack) := by
        apply Inv.take (f := ⟨h, .dtor, false⟩) ha
        · exact ho
        · exact not_not.mpr rfl
        · exact h1
        · exact hc
      exact afterDtor_inv (f := ⟨h, .dtor, false⟩) false ht (not_not.mpr rfl)
    | false =>
      rw [if_neg Bool.false_ne_true]
      exact del_ref_calls_dtor ha ho h1 hc
  · rw [if_neg h1]
    exact ha.finish_take ho h1

/-- The `obj` that the release uses after its callback is one of the current array. -/
def Frame.Current (s : Store) (f : Frame) : Prop :=
  f.phase = .dtor ∨ f.phase = .free_storage (s.address f.handle)

instance (s : Store) (f : Frame) : Decidable (f.Current s) :=
  inferInstanceAs (Decidable (_ ∨ _))

theorem resume_inv (failed : Bool) (hi : Inv w (f :: stack)) (hc : f.Current w.store) :
    Inv (resume failed w (f :: stack)).world (resume failed w (f :: stack)).stack := by
  cases hc with
  | inl hp =>
    rw [resume_dtor hp]
    exact afterDtor_inv _ hi (not_not.mpr hp)
  | inr hp =>
    rw [resume_free_storage hp]
    apply hi.release _ rfl
    unfold Frame.Freeing
    rw [hp]
    exact nofun

end Steps

/-! ## Runs -/

/-- What a caller or a callback may do: `erealloc` never returns NULL, a reference is added
to an object in use and not to one whose last reference is gone, only a reference one owns
is released, and nothing runs on past a bailout. -/
def Legal (s : State) : Action → Prop
  | .put _ moved => s.bailout = false ∧ 0 < moved
  | .add_ref handle => s.bailout = false ∧ s.world.store.Live handle ∧ ¬ Freeing s.stack handle
  | .del_ref handle => s.bailout = false ∧ 0 < s.world.owned handle
  | .ret failed => s.stack ≠ [] ∧ (s.bailout = true → failed = true)

/-- The size of the array and the reference counts stay in a `zend_uint`, and when a
`free_storage` returns the array is where it was when it was called. -/
def Kept (s : State) : Action → Prop
  | .put _ _ => s.world.store.free_list_head = -1 → s.world.store.top = s.world.store.size →
      s.world.store.size * 2 < uintRange
  | .add_ref handle => (s.world.store.bucket handle).refcount + 1 < uintRange
  | .del_ref _ => True
  | .ret _ => ∀ f ∈ s.stack.head?, f.Current s.world.store

theorem step_inv {s : State} {a : Action} (hi : Inv s.world s.stack) (hl : Legal s a)
    (hk : Kept s a) : Inv (step s a).world (step s a).stack := by
  cases a with
  | put free_storage moved => exact hi.put hl.2 hk
  | add_ref handle => exact hi.addRef hl.2.1 hl.2.2 hk
  | del_ref handle => exact del_ref_inv hi hl.2
  | ret failed =>
    obtain ⟨w, stack, bailout⟩ := s
    cases stack with
    | nil => exact absurd rfl hl.1
    | cons f stack => exact resume_inv failed hi (hk f rfl)

instance (s : State) : (a : Action) → Decidable (Legal s a)
  | .put _ _ => inferInstanceAs (Decidable (_ ∧ _))
  | .add_ref handle =>
    inferInstanceAs (Decidable (_ ∧ s.world.store.Live handle ∧
      ¬ ∃ f ∈ s.stack, f.handle = handle ∧ f.Freeing))
  | .del_ref _ => inferInstanceAs (Decidable (_ ∧ _))
  | .ret _ => inferInstanceAs (Decidable (_ ∧ (_ → _)))

instance (s : State) : (a : Action) → Decidable (Kept s a)
  | .put _ _ => inferInstanceAs (Decidable (_ → _ → _))
  | .add_ref _ => inferInstanceAs (Decidable (_ < _))
  | .del_ref _ => inferInstanceAs (Decidable True)
  | .ret _ => inferInstanceAs (Decidable (∀ f ∈ s.stack.head?, f.Current s.world.store))

/-- A run whose steps are all allowed, each of them with the condition `ok`. -/
def Allowed (ok : State → Action → Prop) (s : State) : List Action → Prop
  | [] => True
  | a :: rest => Legal s a ∧ ok s a ∧ Allowed ok (step s a) rest

instance decidableAllowed (ok : State → Action → Prop) [∀ s a, Decidable (ok s a)] :
    (s : State) → (actions : List Action) → Decidable (Allowed ok s actions)
  | _, [] => inferInstanceAs (Decidable True)
  | s, a :: rest =>
    have := decidableAllowed ok (step s a) rest
    inferInstanceAs (Decidable (_ ∧ _ ∧ _))

theorem run_append (s : State) (done rest : List Action) :
    run s (done ++ rest) = run (run s done) rest :=
  List.foldl_append

theorem allowed_append {ok : State → Action → Prop} {s : State} {done rest : List Action} :
    Allowed ok s (done ++ rest) ↔ Allowed ok s done ∧ Allowed ok (run s done) rest := by
  induction done generalizing s with
  | nil => exact ⟨fun h => ⟨trivial, h⟩, fun h => h.2⟩
  | cons a done ih =>
    show (Legal s a ∧ ok s a ∧ Allowed ok (step s a) (done ++ rest)) ↔
      (Legal s a ∧ ok s a ∧ Allowed ok (step s a) done) ∧ Allowed ok (run (step s a) done) rest
    rw [ih]
    simp only [and_assoc]

theorem run_inv {s : State} {actions : List Action} (hi : Inv s.world s.stack)
    (ha : Allowed Kept s actions) : Inv (run s actions).world (run s actions).stack := by
  induction actions generalizing s with
  | nil => exact hi
  | cons a rest ih => exact ih (step_inv hi ha.1 ha.2.1) ha.2.2

/-- The store after `zend_objects_store_init`, before anything was put. -/
def start (array : ℕ) (memory : ℕ → Bucket) (init_size : ℕ) : State where
  world :=
    { store := zend_objects_store_init array memory init_size
      owned := fun _ => 0
      created := []
      calls := []
      accesses := [] }
  stack := []
  bailout := false

theorem start_inv {array init_size : ℕ} {memory : ℕ → Bucket} (ha : 0 < array)
    (h1 : 1 ≤ init_size) (h2 : init_size < uintRange) :
    Inv (start array memory init_size).world [] := by
  have hdead : ∀ h, ¬ (start array memory init_size).world.store.Live h := by
    rintro h ⟨hh1, hh2, -⟩
    exact Nat.not_lt.mpr hh1 hh2
  have hlive : ∀ {P : ℕ → Prop} h, (start array memory init_size).world.store.Live h → P h :=
    fun h hl => absurd hl (hdead h)
  constructor
  · refine ⟨ha, Nat.le_refl 1, h1, h2, FreeList.empty ?_⟩
    rintro h ⟨hh1, hh2, -⟩
    exact Nat.not_lt.mpr hh1 hh2
  · exact ⟨hlive, hlive, fun _ => Nat.lt_of_succ_lt one_lt_uintRange, fun _ _ => rfl⟩
  · constructor
    · exact List.nodup_nil
    · simp
    · simp
    · simp
  · constructor
    · exact hlive
    · exact fun h _ hl => absurd hl (hdead h)
    · exact hlive
    · exact fun h hl => absurd hl (hdead h)
    · exact fun h hl => absurd hl (hdead h)
    · intro n b hn
      cases hn
    · exact fun _ _ _ => rfl
    · intro c hc
      cases hc
  · intro a ha
    cases ha

/-! ## What the invariant says -/

/-- The object still has a reference: one that a caller owns, or the one that the release
holds whose `dtor` runs. -/
def Held (s : State) (object : ℕ) : Prop :=
  ∃ h, s.world.store.Live h ∧ (s.world.store.bucket h).object = object ∧
    (0 < s.world.owned h ∨ ∃ f ∈ s.stack, f.handle = h ∧ ¬ f.Freeing)

/-- The free list visits the handles below `top` that are not in use, each once, and the
next put returns a handle that is not in use. The `dtor` of an object is called at most
once. Its `free_storage` has been called once if no reference is left, and not before. No
callback was called while there were other references. All accesses through `obj` were
inside the array of their time. -/
structure Sound (s : State) : Prop where
  free_list : FreeList link (-1) (fun h => (s.world.store.bucket h).next)
    s.world.store.free_list_head s.world.store.Vacant
  fresh : ¬ s.world.store.Live s.world.store.nextHandle
  dtor_once : ∀ n, s.world.times .dtor n ≤ 1
  held : ∀ n, Held s n → s.world.times .free_storage n = 0
  gone : ∀ n b, s.world.created[n]? = some b → ¬ Held s n →
    s.world.times .dtor n = 1 ∧ s.world.times .free_storage n = b.toNat
  alone : ∀ c ∈ s.world.calls, c.others = 0
  inside : ∀ a ∈ s.world.accesses, a.Inside

section Meaning

variable {s : State} {n : ℕ}

theorem Store.Laid.fresh {s : Store} (hs : s.Laid) : ¬ s.Live s.nextHandle := by
  unfold Store.nextHandle
  by_cases hh : s.free_list_head = -1
  · rw [if_neg (not_not.mpr hh)]
    intro hl
    exact Nat.lt_irrefl _ hl.2.1
  · obtain ⟨h, he, hv⟩ := hs.free_list.exists_head hh
    rw [if_pos hh, he, unlink_link (Nat.lt_of_succ_lt (hs.handle_lt hv.2.1))]
    exact Store.not_live_of_vacant hv

theorem Inv.dtor_once (hi : Inv s.world s.stack) (n : ℕ) : s.world.times .dtor n ≤ 1 := by
  cases hn : s.world.created[n]? with
  | none =>
    rw [hi.histories.unborn .dtor n (List.getElem?_eq_none_iff.mp hn)]
    exact Nat.zero_le 1
  | some b =>
    by_cases hlive : ∃ h, s.world.store.Live h ∧ (s.world.store.bucket h).object = n
    · obtain ⟨h, hl, e⟩ := hlive
      rw [← e, hi.histories.dtor_now h hl]
      exact Bool.toNat_le _
    · have hg := hi.histories.gone n b hn fun h hl e => hlive ⟨h, hl, e⟩
      exact Nat.le_of_eq hg.1

theorem Inv.held (hi : Inv s.world s.stack) (hh : Held s n) :
    s.world.times .free_storage n = 0 := by
  obtain ⟨h, hl, e, hr⟩ := hh
  rw [← e]
  apply hi.histories.free_later h hl
  rintro ⟨g, hg, he, hf⟩
  cases hr with
  | inl ho =>
    have h0 := hi.framed.alone g hg hf
    rw [he] at h0
    exact Nat.ne_of_gt ho h0
  | inr hr =>
    obtain ⟨f, hf', he', hn⟩ := hr
    have hgf : g = f :=
      List.inj_on_of_nodup_map hi.framed.nodup hg hf' (he.trans he'.symm)
    exact hn (hgf ▸ hf)

theorem Inv.gone {b : Bool} (hi : Inv s.world s.stack) (hn : s.world.created[n]? = some b)
    (hh : ¬ Held s n) :
    s.world.times .dtor n = 1 ∧ s.world.times .free_storage n = b.toNat := by
  by_cases hlive : ∃ h, s.world.store.Live h ∧ (s.world.store.bucket h).object = n
  · -- in use without a reference: its `free_storage` is running
    obtain ⟨h, hl, e⟩ := hlive
    have hk := hi.histories.known h hl
    rw [e, hn, Option.some.injEq] at hk
    have ho : s.world.owned h = 0 := by
      by_contra ho
      exact hh ⟨h, hl, e, Or.inl (Nat.pos_of_ne_zero ho)⟩
    have hp : ¬ pending s.stack h = 0 := by
      intro hp
      have hpos := hi.counts.positive h hl
      unfold references at hpos
      rw [ho, hp] at hpos
      exact Nat.lt_irrefl 0 hpos
    rw [pending_eq_zero_iff] at hp
    push Not at hp
    obtain ⟨f, hf, he⟩ := hp
    have hfree : f.Freeing := by
      by_contra hnot
      exact hh ⟨h, hl, e, Or.inr ⟨f, hf, he, hnot⟩⟩
    have hcalled := hi.framed.called f hf
    rw [he] at hcalled
    rw [← e, hi.histories.dtor_now h hl, hcalled, hk]
    exact ⟨rfl, hi.histories.free_now h hl ⟨f, hf, he, hfree⟩⟩
  · exact hi.histories.gone n b hn fun h hl e => hlive ⟨h, hl, e⟩

theorem Inv.sound (hi : Inv s.world s.stack) : Sound s where
  free_list := hi.laid.free_list
  fresh := hi.laid.fresh
  dtor_once := hi.dtor_once
  held _ := hi.held
  gone _ _ := hi.gone
  alone := hi.histories.alone
  inside := hi.inside

end Meaning

/-- The accesses of the first `n` puts. -/
def fillAccesses : ℕ → List Access
  | 0 => []
  | n + 1 => ⟨65536 + (n + 1) * bucketSize, 65536, 1024⟩ :: fillAccesses n

/-- What the handles of `n` objects have, and all others. -/
def handles {α : Type} (n : ℕ) (f : ℕ → α) (x : α) (h : ℕ) : α :=
  if 1 ≤ h ∧ h ≤ n then f h else x

theorem update_handles {α : Type} (n : ℕ) (f : ℕ → α) (x : α) :
    Function.update (handles n f x) (n + 1) (f (n + 1)) = handles (n + 1) f x := by
  funext h
  unfold handles
  by_cases hh : h = n + 1
  · rw [hh, Function.update_self, if_pos ⟨by omega, Nat.le_refl _⟩]
  · rw [Function.update_of_ne hh]
    refine if_congr ?_ rfl rfl
    omega

/-- Nothing runs, `n` objects were put into 1024 buckets and none was released. -/
def filled (n : ℕ) : State where
  world :=
    { store :=
        { object_buckets := 65536
          bucket := handles n (fun h => ⟨false, true, h - 1, true, 1, 0⟩) ⟨false, false, 0, false, 0, 0⟩
          top := n + 1
          size := 1024
          free_list_head := -1 }
      owned := handles n (fun _ => 1) 0
      created := List.replicate n true
      calls := []
      accesses := fillAccesses n }
  stack := []
  bailout := false

theorem start_eq_filled :
    start 65536 (fun _ => ⟨false, false, 0, false, 0, 0⟩) 1024 = filled 0 := by
  have hzero {α : Type} (f : ℕ → α) (x : α) : handles 0 f x = fun _ => x := by
    funext h
    exact if_neg fun hh => by omega
  rw [filled, hzero, hzero, start, zend_objects_store_init, Function.update_eq_self]
  rfl

theorem step_filled {n : ℕ} (hn : n + 1 < 1024) :
    step (filled n) (.put true 65536) = filled (n + 1) := by
  have hfull : ¬ n + 1 = 1024 := by omega
  have htop : (n + 1 + 1) % uintRange = n + 1 + 1 := Nat.mod_eq_of_lt (by unfold uintRange; omega)
  have hfree {α : Type} (f : ℕ → α) (x : α) : handles n f x (n + 1) = x :=
    if_neg fun hh => by omega
  simp only [step, put, World.access, Store.nextHandle, zend_objects_store_put, Store.grow,
    Store.modify, Store.address, Bucket.put, filled, fillAccesses, List.length_replicate,
    List.replicate_succ', hfull, htop, hfree, ne_eq, not_true_eq_false, if_false]
  rw [← update_handles, ← update_handles]
  rfl

theorem run_puts (n m : ℕ) (hn : n + m < 1024) :
    run (filled n) (List.replicate m (.put true 65536)) = filled (n + m) ∧
      Allowed (fun _ _ => True) (filled n) (List.replicate m (.put true 65536)) := by
  induction m generalizing n with
  | zero => exact ⟨rfl, trivial⟩
  | succ m ih =>
    obtain ⟨hrun, hallowed⟩ := ih (n + 1) (by omega)
    rw [← step_filled (by omega)] at hrun hallowed
    refine ⟨?_, ⟨rfl, by decide⟩, trivial, hallowed⟩
    rw [List.replicate_succ, show n + (m + 1) = n + 1 + m by omega]
    exact hrun

/-- The first object is released while the array is full. Its `dtor` does nothing, and its
`free_storage` creates an object. -/
def staleRelease (moved : ℕ) : List Action :=
  [.del_ref 1, .ret false, .put true moved, .ret false]

end PhpRuntime.Objects
