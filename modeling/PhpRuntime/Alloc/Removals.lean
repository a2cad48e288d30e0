import PhpRuntime.Alloc.Additions

/-!
# Removing a free block

A member of a list is unlinked. The node of a tree gives its place to the member in front of it, or
to a leaf, or leaves an empty link.
-/

set_option autoImplicit false

namespace PhpRuntime.Alloc

open BinaryTree PhpRuntime.Lib.DigitalTree

variable {h : FreeLists} {v v' : View} {G G' : Lists} {T : ℕ → BinaryTree ℕ} {b c x k : ℕ}
  {p : Ptr}

/-- `b` has no home any more. The others keep theirs, or get another node for `b`. -/
structure Removed (G G' : Lists) (b : ℕ) : Prop where
  home : G'.home b = .null
  other : ∀ c, c ≠ b → G'.home c = G.home c ∨
    G.home c = .block b ∧ ∃ x, G'.home c = .block x

theorem Removed.free_iff (h : Removed G G' b) (hc : c ≠ b) :
    G'.home c = .null ↔ G.home c = .null := by
  rcases h.other c hc with heq | ⟨hcb, x, hcx⟩
  · rw [heq]
  · rw [hcb, hcx]
    exact iff_of_false nofun nofun

/-! ### Members of lists -/

/-- The links around `b` are closed. -/
def View.unlink (v : View) (b : ℕ) : View :=
  (v.setNext (v.prev (.block b)) (v.next (.block b))).setPrev (v.next (.block b))
    (v.prev (.block b))

theorem Rings.unlink (hR : Rings v G) (hb : G.home b = p) (hp : p ≠ .null) (hpb : p ≠ .block b) :
    Rings (v.unlink b) (G.take b p) := by
  apply hR.remove hb hp hpb
  · exact Function.update_self _ _ _
  · exact Function.update_self _ _ _
  · exact fun y hy => Function.update_of_ne hy _ _
  · exact fun y hy => Function.update_of_ne hy _ _

theorem take_home (c : ℕ) : (G.take b p).home c = if c = b then .null else G.home c :=
  Function.update_apply _ _ _ _

theorem Removed.take : Removed G (G.take b p) b := by
  refine ⟨?_, fun c hc => Or.inl ?_⟩
  · rw [take_home, if_pos rfl]
  · rw [take_home, if_neg hc]

/-- **A member of a list is unlinked.** -/
theorem Indexed.unlink (hI : Indexed v G T) (hb : G.home b = p) (hp : p ≠ .null)
    (hpb : p ≠ .block b) (w : BitVec 64) {n : ℤ}
    (hn : n = ((G.take b p).list .restBucket).countP fun c => ¬ SmallSize (v.size c)) :
    Indexed { v.unlink b with freeBitmap := w, restCount := n } (G.take b p) T := by
  have hbn : G.home b ≠ .block b := by
    rw [hb]
    exact hpb
  refine ⟨(hI.rings.unlink hb hp hpb).of_eq rfl rfl, fun k hk => (hI.stored k hk).of_eq rfl rfl,
    hI.digital, fun c => ?_, hI.bitmap, fun c d hc => ?_, fun c d hc hcd => ?_, fun c d hc => ?_,
    fun c i hc => ?_, fun c hc hlarge => ?_, hn⟩
  · rw [take_home, ← hI.nodes]
    split_ifs with hcb
    · subst hcb
      exact iff_of_false nofun hbn
    · rfl
  · rw [take_home] at hc
    split_ifs at hc
    exact hI.ringSize c d hc
  · rw [take_home] at hc
    split_ifs at hc
    exact hI.ringParent c d hc hcd
  · rw [take_home] at hc
    split_ifs at hc
    exact hI.large c d hc
  · rw [take_home] at hc
    split_ifs at hc
    exact hI.small c i hc
  · rw [take_home] at hc
    split_ifs at hc
    exact hI.rest c hc hlarge

theorem take_list : (G.take b p).list p = (G.list p).erase b := Function.update_self p _ G.list

theorem take_restBucket (hp : p ≠ .restBucket) :
    (G.take b p).list .restBucket = G.list .restBucket := Function.update_of_ne hp.symm _ _

theorem Rings.neighbours (hR : Rings v G) (hb : G.home b = p) (hp : p ≠ .null)
    (hpb : p ≠ .block b) :
    v.prev (.block b) ≠ .null ∧ v.next (.block b) ≠ .null ∧ v.prev (.block b) ≠ .block b := by
  have hhead := hR.isHead_of_home hb hp
  have hin : b ∈ G.list p := (hR.mem p b).mpr ⟨hb, hp, hpb⟩
  have hown {y : Ptr} (hy : y ∈ G.circle p) : y ≠ .null := by
    rintro rfl
    exact hp (hR.owner_eq hhead hy).symm
  refine ⟨hown (hR.prev_mem_of_mem hhead hin), hown (hR.next_mem_of_mem hhead hin), ?_⟩
  obtain ⟨s, t, heq, hring⟩ := hR.rotate_mem hhead hin
  intro hself
  have hprev := hring.prev_eq
  rw [hself] at hprev
  have hmem : Ptr.block b ∈ t.map .block ++ p :: s.map .block := by
    rcases List.eq_nil_or_concat (t.map Ptr.block ++ p :: s.map .block) with hnil | ⟨l, y, hl⟩
    · exact absurd hnil (List.append_ne_nil_of_right_ne_nil _ (List.cons_ne_nil _ _))
    · rw [hl, List.concat_eq_append, List.getLastD_concat] at hprev
      rw [hl, List.concat_eq_append, hprev]
      exact List.mem_append_right _ List.mem_cons_self
  have hnodup := hR.nodup p
  rw [heq] at hnodup
  rcases List.mem_append.mp hmem with ht | hs
  · obtain ⟨c, hc, hcb⟩ := List.mem_map.mp ht
    rw [Ptr.block.inj hcb] at hc
    exact (List.nodup_cons.mp (List.nodup_append.mp hnodup).2.1).1 hc
  · rcases List.mem_cons.mp hs with hpe | hs
    · exact hpb hpe.symm
    · obtain ⟨c, hc, hcb⟩ := List.mem_map.mp hs
      rw [Ptr.block.inj hcb] at hc
      exact (List.nodup_append.mp hnodup).2.2 b hc b List.mem_cons_self rfl

theorem removeLinked_view (hprev : h.view.prev (.block b) ≠ .null)
    (hnext : h.view.next (.block b) ≠ .null) :
    ∃ h₁ : FreeLists, h₁.view = h.view.unlink b ∧
      h.removeLinked b =
        if SmallSize (h.view.size b) then
          some (if h.view.prev (.block b) = h.view.next (.block b) ∧
              h₁.freeBuckets (bucketIndex (h.view.size b) * 2) =
                h₁.freeBuckets (bucketIndex (h.view.size b) * 2 + 1) then
            { h₁ with freeBitmap :=
                h₁.freeBitmap &&& ~~~(1#64 <<< bucketIndex (h.view.size b)) } else h₁)
        else if h.view.parent b = .restBlock then some { h₁ with restCount := h₁.restCount - 1 }
        else if h.view.parent b ≠ .null then
          match h.view.prev (.block b) with
          | .block x => h₁.substBlock b x
          | _ => none
        else some h₁ := by
  obtain ⟨h₀, e₀, v₀⟩ :=
    FreeLists.setNextFreeBlock_view (h := h) hprev (h.view.next (.block b))
  obtain ⟨h₁, e₁, v₁⟩ :=
    FreeLists.setPrevFreeBlock_view (h := h₀) hnext (h.view.prev (.block b))
  have hview : h₁.view = h.view.unlink b := by
    rw [v₁, v₀]
    rfl
  refine ⟨h₁, hview, ?_⟩
  have hsize : (h₁.mem b).size = h.view.size b := by
    rw [← FreeLists.view_size, hview]
    rfl
  have hparent : (h₁.mem b).parent = h.view.parent b := by
    rw [← FreeLists.view_parent, hview]
    rfl
  have e₀' : h.setNextFreeBlock (h.mem b).prevFreeBlock (h.mem b).nextFreeBlock = some h₀ := e₀
  have e₁' : h₀.setPrevFreeBlock (h.mem b).nextFreeBlock (h.mem b).prevFreeBlock = some h₁ := e₁
  rw [FreeLists.removeLinked, e₀', Option.bind_eq_bind, Option.bind_some, e₁', Option.bind_some,
    hsize, hparent]
  rfl

/-- **Removal of a member.** -/
theorem Indexed.removeMember (hI : Indexed h.view G T) (hb : G.home b = p) (hp : p ≠ .null)
    (hpb : p ≠ .block b) :
    ∃ h', h.removeFromFreeList b = some h' ∧ Indexed h'.view (G.take b p) T ∧
      h'.view.size = h.view.size := by
  obtain ⟨hprev, hnext, hself⟩ := hI.rings.neighbours hb hp hpb
  obtain ⟨h₁, hv₁, hremove⟩ := removeLinked_view hprev hnext
  have hsize₁ : h₁.view.size = h.view.size := by
    rw [hv₁]
    rfl
  have hcount₁ : h₁.view.restCount = h.view.restCount := by
    rw [hv₁]
    rfl
  -- the state after the stores to the links
  have hunlink (w : BitVec 64) {n : ℤ}
      (hn : n = ((G.take b p).list .restBucket).countP fun c => ¬ SmallSize (h.view.size c)) :
      Indexed { h₁.view with freeBitmap := w, restCount := n } (G.take b p) T := by
    rw [hv₁]
    exact hI.unlink hb hp hpb w hn
  have hother (hrest : p ≠ .restBucket ∨ SmallSize (h.view.size b)) :
      h.view.restCount =
        ((G.take b p).list .restBucket).countP fun c => ¬ SmallSize (h.view.size c) := by
    rw [hI.restCount]
    rcases eq_or_ne p .restBucket with rfl | hne
    · have hin : b ∈ G.list .restBucket := (hI.rings.mem _ b).mpr ⟨hb, hp, hpb⟩
      have hsmall := hrest.resolve_left (not_not.mpr rfl)
      have hperm := List.perm_cons_erase hin
      rw [take_list, hperm.countP_eq, List.countP_cons_of_neg]
      rw [decide_eq_true_eq]
      exact not_not.mpr hsmall
    · rw [take_restBucket hne]
  rw [FreeLists.removeFromFreeList]
  have hself' : (h.mem b).prevFreeBlock ≠ .block b := hself
  rw [if_neg hself', hremove]
  by_cases hsmall : SmallSize (h.view.size b)
  · rw [if_pos hsmall]
    refine ⟨_, rfl, ?_, ?_⟩
    · split_ifs
      · have hdone := hunlink (h₁.freeBitmap &&& ~~~(1#64 <<< bucketIndex (h.view.size b)))
          (hother (Or.inr hsmall))
        rw [← hcount₁] at hdone
        exact hdone
      · have hdone := hunlink h₁.freeBitmap (hother (Or.inr hsmall))
        rw [← hcount₁] at hdone
        exact hdone
    · split_ifs
      · exact hsize₁
      · exact hsize₁
  · rw [if_neg hsmall]
    cases p with
    | null => exact absurd rfl hp
    | smallBucket i => exact absurd (hI.small b i hb).1 hsmall
    | block c =>
      have hparent : h.view.parent b = .null :=
        hI.ringParent b c hb fun heq => hpb (congrArg Ptr.block heq).symm
      have hdone := hunlink h₁.freeBitmap (hother (Or.inl nofun))
      rw [← hcount₁] at hdone
      rw [hparent, if_neg nofun, if_neg (not_not.mpr rfl)]
      exact ⟨h₁, rfl, hdone, hsize₁⟩
    | restBucket =>
      have hin : b ∈ G.list .restBucket := (hI.rings.mem _ b).mpr ⟨hb, hp, hpb⟩
      have hcount : h.view.restCount - 1 =
          ((G.take b .restBucket).list .restBucket).countP fun c =>
            ¬ SmallSize (h.view.size c) := by
        rw [hI.restCount, take_list, (List.perm_cons_erase hin).countP_eq, List.countP_cons_of_pos]
        · omega
        · rw [decide_eq_true_eq]
          exact hsmall
      have hdone := hunlink h₁.freeBitmap hcount
      rw [← hcount₁] at hdone
      rw [hI.rest b hb hsmall, if_pos rfl]
      exact ⟨_, rfl, hdone, hsize₁⟩

/-! ### Nodes -/

theorem Indexed.focus (hI : Indexed v G T) (hk : k < 64) (hb : b ∈ members (T k)) :
    ∃ l r, Focus v (.bucket k) (T k) b l r ∧ View.IsLink (v.parent b) ∧
      (∀ c ∈ members (node b l r), ∀ i, v.parent b ≠ .child c i) ∧
      (node b l r).height ≤ 65 := by
  obtain ⟨l, r, hfocus⟩ := (hI.stored k hk).focus hb (hI.nodup hk)
  refine ⟨l, r, hfocus, ?_, fun c hc i heq => ?_, ?_⟩
  · rcases hfocus.slot with hp | ⟨c, -, -, i, hp⟩
    · rw [hp]
      trivial
    · rw [hp]
      trivial
  · rcases hfocus.slot with hp | ⟨d, -, hd, j, hp⟩
    · rw [hp] at heq
      cases heq
    · rw [hp, Slot.child.injEq] at heq
      exact hd (heq.1 ▸ hc)
  · have hheight := (hI.digital k hk).height_le
    have hle := hfocus.height_le
    omega

variable {l r : BinaryTree ℕ}

theorem Indexed.stored_change (hI : Indexed v G T) (hk : k < 64)
    (hfocus : Focus v (.bucket k) (T k) b l r) {f : BinaryTree ℕ → BinaryTree ℕ} {bs : List ℕ}
    (hbs : ∀ c ∈ bs, c ∈ members (node b l r) ∨ G.home c ≠ .block c)
    (hread : ∀ q, q ≠ v.parent b → (∀ c ∈ bs, ∀ i, q ≠ .child c i) → v'.read q = v.read q)
    (hparent : ∀ c, c ∉ bs → v'.parent c = v.parent c)
    (hf : Stored v' (v.parent b) (f (node b l r))) {j : ℕ} (hj : j < 64) :
    Stored v' (.bucket j) (withTree T k (modify b f (T k)) j) := by
  have hout {i : ℕ} (hi : i < 64) {c : ℕ} (hc : c ∈ members (T i))
      (hnot : c ∉ members (node b l r)) : c ∉ bs := fun hin =>
    (hbs c hin).elim hnot fun hno => hno (hI.home_of_mem hi hc)
  have hchild {c : ℕ} (hc : c ∉ bs) (i : Bool) : ∀ d ∈ bs, ∀ i', Slot.child c i ≠ .child d i' := by
    intro d hd i' heq
    rw [Slot.child.injEq] at heq
    exact hc (heq.1 ▸ hd)
  by_cases hjk : j = k
  · subst hjk
    rw [withTree_self]
    refine hfocus.change f v' (fun c hc hnot => hparent c (hout hj hc hnot))
      (fun c hc hnot i hne => hread _ hne (hchild (hout hj hc hnot) i))
      (fun hne => hread _ hne fun _ _ _ => nofun) hf
  · rw [withTree_of_ne _ hjk]
    have hnot : ∀ c ∈ members (T j), c ∉ bs := fun c hc => hout hj hc fun hin =>
      hjk (hI.eq_of_mem hj hk hc (hfocus.subset c hin))
    refine (hI.stored j hj).congr (hread _ ?_ fun _ _ _ => nofun)
      (fun c hc => hparent c (hnot c hc)) fun c hc i => hread _ ?_ (hchild (hnot c hc) i)
    · rcases hfocus.slot with hp | ⟨c, -, -, i, hp⟩
      · rw [hp]
        exact fun heq => hjk (Slot.bucket.inj heq)
      · rw [hp]
        exact nofun
    · rcases hfocus.slot with hp | ⟨d, hd, -, i', hp⟩
      · rw [hp]
        exact nofun
      · rw [hp]
        intro heq
        rw [Slot.child.injEq] at heq
        exact hjk (hI.eq_of_mem hj hk hc (heq.1 ▸ hd))

end PhpRuntime.Alloc
