import PhpRuntime.Gc.Walks
import PhpRuntime.Lib.LinkedSegment

/-!
# Gathering the garbage

`zval_collect_white` and `zobj_collect_white` follow the third walk. What they add to it is
the list to free, which is threaded through the words that held the addresses of the buffer:
only a white zval without an address is put there, and nothing on the list is white again.
-/

set_option autoImplicit false

namespace PhpRuntime.Gc

open PhpRuntime.Lib PhpRuntime.Lib.TrialDeletion
open scoped UInt32.CommRing

variable {H : Heap} {M : Set Node} {s s' : Cells} {pz : ZvalPtr} {h : Handle} {l : List ZvalPtr} {fuel : ℕ}

/-- The list to free, linked through `u.next`. -/
def Cells.FreeList (s : Cells) (l : List ZvalPtr) : Prop :=
  Chain .zval .freeListEnd (fun pz => (s.zval pz).word.address) s.zvalToFree l

/-- What holds while the white nodes are gathered. -/
structure Collecting (H : Heap) (M : Set Node) (l : List ZvalPtr) (s : Cells) : Prop where
  freeList : s.FreeList l
  zval_white : ∀ pz, .zval pz ∈ M → (s.zval pz).word.color = .white → H.isSymbolTable pz = false ∧
    ((s.zval pz).word.address = .null ∨ (s.zval pz).word.address.isSlot = true)
  obj_white : ∀ h, .obj h ∈ M → (s.obj h).word.color = .white →
    (s.obj h).word.address = .null ∨ (s.obj h).word.address.isSlot = true

namespace Collecting

theorem zvalToFree (hr : Collecting H M l s) : s.zvalToFree.isSlot = false := by
  have hc := hr.freeList
  cases l with
  | nil => rw [show s.zvalToFree = .freeListEnd from hc]; rfl
  | cons p t => rw [hc.1]; rfl

theorem not_mem (hr : Collecting H M l s)
    (ha : (s.zval pz).word.address = .null ∨ (s.zval pz).word.address.isSlot = true) :
    pz ∉ l := fun hm => by
  cases Chain.next_of_mem hr.freeList hm with
  | inl he =>
    rw [he] at ha
    simp [Address.isSlot] at ha
  | inr hz =>
    obtain ⟨q, _, hq⟩ := hz
    rw [hq] at ha
    simp [Address.isSlot] at ha

theorem of_words (hr : Collecting H M l s) (hz : ∀ pz, (s'.zval pz).word = (s.zval pz).word)
    (ho : ∀ h, (s'.obj h).word = (s.obj h).word) (hl : s'.zvalToFree = s.zvalToFree) :
    Collecting H M l s' where
  freeList := by
    show Chain _ _ _ s'.zvalToFree l
    rw [hl]
    exact Chain.congr hr.freeList fun p _ => by rw [hz]
  zval_white p hpM hp := by
    rw [hz] at hp ⊢
    exact hr.zval_white p hpM hp
  obj_white h hhM hh := by
    rw [ho] at hh ⊢
    exact hr.obj_white h hhM hh

theorem addRef (hr : Collecting H M l s) (d : UInt32) (pz : ZvalPtr) :
    Collecting H M l (H.addRef d pz s) := by
  unfold Heap.addRef
  split
  · exact hr
  · refine hr.of_words (fun p => ?_) (fun _ => rfl) rfl
    simp only [Cells.zvalAddRef, Function.update_apply]
    split
    · rename_i hp; rw [hp]
    · rfl

theorem zvalSetColor (hr : Collecting H M l s) (pz : ZvalPtr) :
    Collecting H M l (s.zvalSetColor pz .black) where
  freeList := by
    apply Chain.congr hr.freeList
    intro p _
    simp only [Cells.zvalSetColor, Function.update_apply]
    split
    · rename_i hp; rw [hp]
    · rfl
  zval_white p hpM hp := by
    simp only [Cells.zvalSetColor, Function.update_apply] at hp ⊢
    split at hp
    · simp at hp
    · rename_i hne
      rw [if_neg hne]
      exact hr.zval_white p hpM hp
  obj_white h hhM hh := hr.obj_white h hhM hh

theorem objSetColor (hr : Collecting H M l s) (h : Handle) :
    Collecting H M l (s.objSetColor h .purple) where
  freeList := hr.freeList
  zval_white p hpM hp := hr.zval_white p hpM hp
  obj_white k hkM hk := by
    simp only [Cells.objSetColor, Function.update_apply] at hk ⊢
    split at hk
    · simp at hk
    · rename_i hne
      rw [if_neg hne]
      exact hr.obj_white k hkM hk

theorem putOnList (hr : Collecting H M l s) (hpz : pz ∉ l) :
    Collecting H M (pz :: l) (s.putOnList pz) where
  freeList := by
    refine ⟨rfl, ?_⟩
    have hn : ((s.putOnList pz).zval pz).word.address = s.zvalToFree := by
      simp [Cells.putOnList]
    simp only [hn]
    apply Chain.congr hr.freeList
    intro p hp
    have hne : p ≠ pz := fun he => hpz (he ▸ hp)
    simp [Cells.putOnList, hne]
  zval_white p hpM hp := by
    simp only [Cells.putOnList, Function.update_apply] at hp ⊢
    split at hp
    · simp at hp
    · rename_i hne
      rw [if_neg hne]
      exact hr.zval_white p hpM hp
  obj_white h hhM hh := hr.obj_white h hhM hh

end Collecting

/-- The cells as they are seen from the graph while the white nodes are gathered. -/
def ViewedCollecting (H : Heap) (M : Set Node) (s : Cells) (t : State Node UInt32) : Prop :=
  ∃ l, t = s.view l ∧ Collecting H M l s

/-- The loop body of the functions that gather the white nodes. -/
def collectChild (H : Heap) (fuel : ℕ) (pz : ZvalPtr) (s : Cells) : Option Cells :=
  zvalCollectWhite H fuel pz (H.addRef 1 pz s)

/-- `zval_collect_white` is a visit. -/
def CollectVisit (H : Heap) (M : Set Node) (fuel : ℕ) : Prop :=
  ∀ pz s s' t, .zval pz ∈ M → zvalCollectWhite H fuel pz s = some s' → ViewedCollecting H M s t →
    ∃ t', (H.graph.collect UInt32).Visit (.zval pz) t t' ∧ ViewedCollecting H M s' t'

theorem collectChild_follows (ih : CollectVisit H M fuel) :
    Follows M (H.graph.collect UInt32) (ViewedCollecting H M) (collectChild H fuel) := by
  rintro pz s s' t hpz hf ⟨l, rfl, hr⟩
  apply ih pz _ s' _ hpz hf
  refine ⟨l, ?_, hr.addRef 1 pz⟩
  rw [view_addRef]
  simp [Graph.collect]

theorem zobj_collect_visits (ih : CollectVisit H M fuel) (hr : Collecting H M l s)
    {zs : List ZvalPtr} (hzs : ∀ pz ∈ zs, .zval pz ∈ M)
    (hf : walkTable (collectChild H fuel) zs (s.objSetColor h .purple) = some s') :
    ∃ l', Collecting H M l' s' ∧ (H.graph.collect UInt32).Visits (zs.map .zval)
      ((s.view l).paint (.obj h) .purple) (s'.view l') := by
  obtain ⟨t', hv, l', rfl, hr'⟩ := walkTable_visits (collectChild_follows ih) hzs hf
    ⟨l, rfl, hr.objSetColor h⟩
  rw [view_objSetColor] at hv
  exact ⟨l', hr', hv⟩

/-! ## One visit -/

theorem Collecting.todo_zval (hr : Collecting H M l s) (hpz : .zval pz ∈ M) :
    (H.graph.collect UInt32).todo (s.view l) (.zval pz) ↔ (s.zval pz).word = .white := by
  constructor
  · rintro ⟨hc, hb⟩
    cases (hr.zval_white pz hpz hc).2 with
    | inl ha => exact Word.ext ha hc
    | inr ha => exact absurd (hb.symm.trans ha) (by simp)
  · intro hw
    show (s.zval pz).word.color = .white ∧ (s.zval pz).word.address.isSlot = false
    rw [hw]
    exact ⟨rfl, rfl⟩

theorem Collecting.todo_obj (hr : Collecting H M l s) (hh : .obj h ∈ M) :
    (H.graph.collect UInt32).todo (s.view l) (.obj h) ↔ (s.obj h).word = .white := by
  constructor
  · rintro ⟨hc, hb⟩
    cases hr.obj_white h hh hc with
    | inl ha => exact Word.ext ha hc
    | inr ha => exact absurd (hb.symm.trans ha) (by simp)
  · intro hw
    show (s.obj h).word.color = .white ∧ (s.obj h).word.address.isSlot = false
    rw [hw]
    exact ⟨rfl, rfl⟩

theorem Collecting.view_put (hr : Collecting H M l s) (hw : (s.zval pz).word = .white) :
    Collecting H M (pz :: l) ((s.zvalSetColor pz .black).putOnList pz) ∧
      ((s.zvalSetColor pz .black).putOnList pz).view (pz :: l) =
        (H.graph.collect UInt32).enter (.zval pz) (s.view l) := by
  have hpz : pz ∉ l := hr.not_mem (Or.inl (by rw [hw]; rfl))
  have hr₁ := hr.zvalSetColor pz
  have hword : ((s.zvalSetColor pz .black).zval pz).word = ⟨.null, .black⟩ := by
    simp [Cells.zvalSetColor, hw, Word.white]
  refine ⟨hr₁.putOnList hpz, ?_⟩
  rw [view_putOnList (by rw [hword]; rfl) (by rw [hword]) hr₁.zvalToFree, view_zvalSetColor]
  rfl

theorem zval_collect_table (ih : CollectVisit H M fuel) (hr : Collecting H M l s)
    (hword : (s.zval pz).word = ⟨.null, .black⟩) {zs : List ZvalPtr}
    (hzs : ∀ pz ∈ zs, .zval pz ∈ M) (hf : walkTable (collectChild H fuel) zs (s.objSetColor h .purple) = some s') :
    ∃ l', Collecting H M (pz :: l') (s'.putOnList pz) ∧
      (H.graph.collect UInt32).Visits (zs.map .zval) ((s.view l).paint (.obj h) .purple)
        (s'.view l') ∧
      (s'.putOnList pz).view (pz :: l') = (s'.view l').list (.zval pz) := by
  have hpz : pz ∉ l := hr.not_mem (Or.inl (by rw [hword]))
  obtain ⟨l', hr', hv⟩ := zobj_collect_visits ih hr hzs hf
  -- the loop leaves the black zval as it is
  have hstay := ((collect_frame (.zval pz)).visits hv fun _ _ => trivial).stays (by
    simp [paint_color, hword])
  have hbuf := ((collect_waits (.zval pz)).visits hv fun _ _ => trivial).1
  have hpz' : pz ∉ l' := by
    have hcount := hstay.2.1
    rw [view_freed_count, paint_freed, view_freed_count, List.count_eq_zero.mpr hpz] at hcount
    exact List.count_eq_zero.mp hcount
  refine ⟨l', hr'.putOnList hpz', hv, ?_⟩
  apply view_putOnList _ _ hr'.zvalToFree
  · have hb := congrFun hbuf (.zval pz)
    simpa [hword, Address.isSlot] using hb
  · simpa [paint_color, hword] using hstay.1

theorem zval_collect_object (hM : H.Closed M) (ih : CollectVisit H M fuel) (hh : .obj h ∈ M)
    (hr : Collecting H M l s)
    (hword : (s.zval pz).word = ⟨.null, .black⟩)
    (hf : (if (H.bucket h).valid then
      match (H.bucket h).getGc with
      | some ⟨table, none⟩ =>
        walkSlots (collectChild H fuel) table ((s.objSetColor h .purple).putOnList pz)
      | some ⟨table, some props⟩ =>
        (walkSlots (collectChild H fuel) table (s.objSetColor h .purple)).bind fun s =>
          walkTable (collectChild H fuel) (H.table props) (s.putOnList pz)
      | none => some ((s.objSetColor h .purple).putOnList pz)
      else some ((s.objSetColor h .purple).putOnList pz)) = some s') :
    ∃ l', Collecting H M l' s' ∧ (H.graph.collect UInt32).Visits (H.graph.succ (.obj h))
      (((s.view l).list (.zval pz)).paint (.obj h) .purple) (s'.view l') := by
  have hpz : pz ∉ l := hr.not_mem (Or.inl (by rw [hword]))
  have hput : (s.putOnList pz).view (pz :: l) = (s.view l).list (.zval pz) :=
    view_putOnList (by rw [hword]; rfl) (by rw [hword]) hr.zvalToFree
  have hsucc : H.graph.succ (.obj h) = (H.children h).map .zval := rfl
  have hchild := hM.children hh
  rw [hsucc, ← hput]
  cases hv : (H.bucket h).valid with
  | false =>
    rw [hv, if_neg (by simp)] at hf
    have hch : H.children h = [] := by simp [Heap.children, hv]
    rw [hch] at hchild ⊢
    exact zobj_collect_visits ih (hr.putOnList hpz) hchild hf
  | true =>
    rw [hv, if_pos rfl] at hf
    cases hg : (H.bucket h).getGc with
    | none =>
      simp only [hg] at hf
      have hch : H.children h = [] := by simp [Heap.children, hv, hg]
      rw [hch] at hchild ⊢
      exact zobj_collect_visits ih (hr.putOnList hpz) hchild hf
    | some g =>
      obtain ⟨table, props⟩ := g
      cases props with
      | none =>
        simp only [hg] at hf
        have hch : H.children h = table.filterMap id := by simp [Heap.children, hv, hg]
        rw [walkSlots_eq] at hf
        rw [hch] at hchild ⊢
        exact zobj_collect_visits ih (hr.putOnList hpz) hchild hf
      | some props =>
        simp only [hg] at hf
        have hch : H.children h = table.filterMap id ++ H.table props := by
          simp [Heap.children, hv, hg]
        rw [walkSlots_eq, Option.bind_eq_some_iff] at hf
        obtain ⟨s₃, h3, hf⟩ := hf
        rw [hch] at hchild
        obtain ⟨l₃, hr₃, hv₃, hput₃⟩ := zval_collect_table ih hr hword
          (fun q hq => hchild q (List.mem_append_left _ hq)) h3
        obtain ⟨t', hv', l', rfl, hr'⟩ := walkTable_visits (collectChild_follows ih)
          (fun q hq => hchild q (List.mem_append_right _ hq)) hf ⟨pz :: l₃, rfl, hr₃⟩
        refine ⟨l', hr', ?_⟩
        rw [hch, List.map_append, Walk.visits_append_iff]
        refine ⟨_, ?_, hv'⟩
        rw [hput₃, hput]
        exact collect_visits_list (.zval pz) hv₃

theorem zval_pass_object (hr : Collecting H M l s) (hh : .obj h ∈ M) (hw : ¬ (s.obj h).word = .white) :
    (H.graph.collect UInt32).Visits [.obj h] (s.view l) (s.view l) := by
  apply Walk.Visits.pass _ (.nil _)
  exact fun hc => hw ((hr.todo_obj hh).mp hc)

theorem zvalCollectWhite_visit (hM : H.Closed M) (fuel : ℕ) : CollectVisit H M fuel := by
  induction fuel with
  | zero => simp [CollectVisit, zvalCollectWhite]
  | succ fuel ih =>
    rintro pz s s' t hpz hf ⟨l, rfl, hr⟩
    simp only [zvalCollectWhite] at hf
    by_cases hw : (s.zval pz).word = .white
    · rw [if_pos hw] at hf
      obtain ⟨hr₁, hview⟩ := hr.view_put hw
      have hp : H.isSymbolTable pz = false := (hr.zval_white pz hpz (by rw [hw]; rfl)).1
      suffices h : ∃ l', Collecting H M l' s' ∧ (H.graph.collect UInt32).Visits
          (H.graph.succ (.zval pz))
          (((s.zvalSetColor pz .black).putOnList pz).view (pz :: l)) (s'.view l') by
        obtain ⟨l', hr', hv⟩ := h
        refine ⟨_, .enter ((hr.todo_zval hpz).mpr hw) (fun h => h) ?_, l', rfl, hr'⟩
        rw [← hview]
        exact hv
      have hword : ((s.zvalSetColor pz .black).zval pz).word = ⟨.null, .black⟩ := by
        simp [Cells.zvalSetColor, hw, Word.white]
      have hr₀ := hr.zvalSetColor pz
      generalize s.zvalSetColor pz .black = s₁ at hf hr₀ hr₁ hword ⊢
      cases hv : H.value pz with
      | object h =>
        simp only [hv] at hf
        by_cases hb : H.objectBuckets = true
        · rw [if_pos hb] at hf
          rw [succ_object hv hb]
          have hh := hM.object hpz hv hb
          by_cases ho : (s₁.obj h).word = .white
          · rw [if_pos ho] at hf
            obtain ⟨l', hr', hvis⟩ := zval_collect_object hM ih hh hr₀ hword hf
            refine ⟨l', hr', Walk.Visits.enter ?_ (fun h => h) ?_ (.nil _)⟩
            · exact (hr₁.todo_obj hh).mpr ho
            · rw [view_putOnList (by rw [hword]; rfl) (by rw [hword]) hr₀.zvalToFree]
              exact hvis
          · rw [if_neg ho, Option.some_inj] at hf
            subst hf
            exact ⟨pz :: l, hr₁, zval_pass_object hr₁ hh ho⟩
        · rw [if_neg hb, Option.some_inj] at hf
          subst hf
          rw [succ_object_none hv hb]
          exact ⟨pz :: l, hr₁, .nil _⟩
      | array ht =>
        simp only [hv] at hf
        have hs : ht ≠ H.symbolTable := fun hs => by
          rw [(H.isSymbolTable_iff pz).mpr (hs ▸ hv)] at hp
          simp at hp
        rw [succ_array hv hs]
        obtain ⟨t', hvis, l', rfl, hr'⟩ := walkTable_visits (collectChild_follows ih)
          (hM.table hpz hv hs) hf ⟨pz :: l, rfl, hr₁⟩
        exact ⟨l', hr', hvis⟩
      | scalar =>
        simp only [hv, Option.some_inj] at hf
        subst hf
        rw [succ_scalar hv]
        exact ⟨pz :: l, hr₁, .nil _⟩
    · rw [if_neg hw, Option.some_inj] at hf
      subst hf
      exact ⟨s.view l, .pass fun hc => hw ((hr.todo_zval hpz).mp hc), l, rfl, hr⟩

theorem zobjCollectWhite_visit (hM : H.Closed M) (hh : .obj h ∈ M) (hb : H.objectBuckets = true)
    (hf : zobjCollectWhite H fuel h s = some s') (hr : Collecting H M l s) :
    ∃ l', Collecting H M l' s' ∧
      (H.graph.collect UInt32).Visit (.obj h) (s.view l) (s'.view l') := by
  rw [zobjCollectWhite, if_pos hb] at hf
  split at hf
  · rename_i hw
    rw [walkObject_eq] at hf
    obtain ⟨l', hr', hv⟩ := zobj_collect_visits (zvalCollectWhite_visit hM fuel) hr (hM.children hh) hf
    exact ⟨l', hr', .enter ((hr.todo_obj hh).mpr hw) (fun h => h) hv⟩
  · rename_i hw
    rw [Option.some_inj] at hf
    subst hf
    exact ⟨l, hr, .pass fun hc => hw ((hr.todo_obj hh).mp hc)⟩

end PhpRuntime.Gc
