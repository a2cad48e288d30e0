import PhpRuntime.Alloc.Removals

/-!
# Removing the node of a tree

A node gives its place to the member in front of it in its ring. Without one it gives it to a leaf,
or leaves an empty link.
-/

set_option autoImplicit false

namespace PhpRuntime.Alloc

open BinaryTree PhpRuntime.Lib.DigitalTree

variable {h : FreeLists} {v v' : View} {G G' : Lists} {T : ℕ → BinaryTree ℕ} {b c x k : ℕ}
  {p : Ptr} {l r : BinaryTree ℕ} {f : BinaryTree ℕ → BinaryTree ℕ} {new : List ℕ}

theorem Indexed.mem_modify (hI : Indexed v G T) (hk : k < 64) (hb : b ∈ members (T k))
    (hnodup : new.Nodup) (hnew : ∀ c ∈ new, G.home c = .block b ∧ c ≠ b)
    (hperm : ∀ l r, (b :: members (f (node b l r))).Perm (new ++ members (node b l r))) :
    c ∈ members (modify b f (T k)) ↔ c ≠ b ∧ (c ∈ new ∨ c ∈ members (T k)) := by
  have hall : ([b] ++ members (modify b f (T k))).Perm (new ++ members (T k)) :=
    members_modify hperm (hI.nodup hk) hb
  rw [List.singleton_append] at hall
  have hdisj : (new ++ members (T k)).Nodup := by
    rw [List.nodup_append]
    refine ⟨hnodup, hI.nodup hk, ?_⟩
    rintro c hc _ hct rfl
    obtain ⟨hcb, hne⟩ := hnew c hc
    exact hne (Ptr.block.inj ((hI.home_of_mem hk hct).symm.trans hcb))
  have hout := (List.nodup_cons.mp (hall.nodup_iff.mpr hdisj)).1
  have hmem : c ∈ b :: members (modify b f (T k)) ↔ c ∈ new ++ members (T k) := hall.mem_iff
  rw [List.mem_cons, List.mem_append] at hmem
  constructor
  · intro hc
    exact ⟨fun heq => hout (heq ▸ hc), hmem.mp (Or.inr hc)⟩
  · rintro ⟨hcb, hc⟩
    exact (hmem.mpr hc).resolve_left hcb

/-- **A node goes**, and the members of its ring come to the new node. -/
theorem Indexed.dropNode (hI : Indexed v G T) (hk : k < 64) (hb : b ∈ members (T k))
    (hfocus : Focus v (.bucket k) (T k) b l r) (hnodup : new.Nodup)
    (hnew : ∀ c ∈ new, G.home c = .block b ∧ c ≠ b)
    (hperm : ∀ l r, (b :: members (f (node b l r))).Perm (new ++ members (node b l r)))
    (hdigital : ∀ j q l r, IsDigital v.size j q (node b l r) →
      IsDigital v.size j q (f (node b l r)))
    (hrings : Rings v' G') (hgone : G'.home b = .null) (hcome : ∀ c ∈ new, G'.home c = .block c)
    (hstay : ∀ c, c ≠ b → G.home c ≠ .block b → G'.home c = G.home c)
    (hmove : ∀ c, c ≠ b → G.home c = .block b → ∃ x ∈ new, G'.home c = .block x)
    (hrest : G'.list .restBucket = G.list .restBucket) (hsize : v'.size = v.size)
    (hcount : v'.restCount = v.restCount)
    (hread : ∀ q, q ≠ v.parent b → (∀ c ∈ new ++ members (node b l r), ∀ i, q ≠ .child c i) →
      v'.read q = v.read q)
    (hparent : ∀ c, c ∉ new ++ members (node b l r) → v'.parent c = v.parent c)
    (hf : Stored v' (v.parent b) (f (node b l r)))
    (hbits : ∀ j < 64, v'.largeFreeBitmap.getLsbD j = true ↔
      withTree T k (modify b f (T k)) j ≠ nil) :
    Indexed v' G' (withTree T k (modify b f (T k))) := by
  have hmem (c : ℕ) := hI.mem_modify (c := c) hk hb hnodup hnew hperm
  have hnewSize : ∀ c ∈ new, v.size c = v.size b := fun c hc => hI.ringSize c b (hnew c hc).1
  -- a block that is not one of the nodes keeps its parent
  have hmember {c d : ℕ} (hc : G'.home c = .block d) (hcd : c ≠ d) : v'.parent c = .null := by
    have hcb : c ≠ b := by
      rintro rfl
      rw [hgone] at hc
      cases hc
    have hcn : c ∉ new := fun hin => hcd (Ptr.block.inj ((hcome c hin).symm.trans hc))
    have hout : c ∉ new ++ members (node b l r) := by
      intro hin
      have hnode := hI.home_of_mem hk
        (hfocus.subset c ((List.mem_append.mp hin).resolve_left hcn))
      have hne : G.home c ≠ .block b := by
        rw [hnode]
        exact fun heq => hcb (Ptr.block.inj heq)
      rw [hstay c hcb hne, hnode] at hc
      exact hcd (Ptr.block.inj hc)
    rw [hparent c hout]
    by_cases hhome : G.home c = .block b
    · exact hI.ringParent c b hhome hcb
    · rw [hstay c hcb hhome] at hc
      exact hI.ringParent c d hc hcd
  have hold {c : ℕ} {p : Ptr} (hc : G'.home c = p) (hp : p ≠ .null) (hpb : ∀ x, p ≠ .block x) :
      G.home c = p := by
    have hcb : c ≠ b := by
      rintro rfl
      exact hp (hc.symm.trans hgone)
    by_cases hhome : G.home c = .block b
    · obtain ⟨x, -, hx⟩ := hmove c hcb hhome
      exact absurd (hc.symm.trans hx) (hpb x)
    · exact (hstay c hcb hhome).symm.trans hc
  refine ⟨hrings, fun j hj => ?_, fun j hj => ?_, fun c => ?_, hbits, fun c d hc => ?_,
    fun c d hc hcd => hmember hc hcd, fun c d hc => ?_, fun c i hc => ?_, fun c hc hlarge => ?_, ?_⟩
  · refine hI.stored_change hk hfocus (fun c hc => ?_) hread hparent hf hj
    rcases List.mem_append.mp hc with hin | hin
    · obtain ⟨hcb, hne⟩ := hnew c hin
      rw [hcb]
      exact Or.inr fun heq => hne (Ptr.block.inj heq).symm
    · exact Or.inl hin
  · rw [hsize]
    by_cases hjk : j = k
    · subst hjk
      rw [withTree_self]
      refine (hI.digital j hj).modify hdigital fun l r c hc => ?_
      have hin := (hperm l r).mem_iff.mp (List.mem_cons_of_mem _ hc)
      rcases List.mem_append.mp hin with hin | hin
      · exact ⟨b, List.mem_cons_self, (hnewSize c hin).symm⟩
      · exact ⟨c, hin, rfl⟩
    · rw [withTree_of_ne _ hjk]
      exact hI.digital j hj
  · constructor
    · intro hc
      have hcb : c ≠ b := by
        rintro rfl
        rw [hgone] at hc
        cases hc
      by_cases hhome : G.home c = .block b
      · obtain ⟨x, hx, hcx⟩ := hmove c hcb hhome
        refine ⟨k, hk, ?_⟩
        rw [withTree_self, hmem]
        exact ⟨hcb, Or.inl (Ptr.block.inj (hc.symm.trans hcx) ▸ hx)⟩
      · rw [hstay c hcb hhome] at hc
        obtain ⟨j, hj, hin⟩ := (hI.nodes c).mp hc
        refine ⟨j, hj, ?_⟩
        by_cases hjk : j = k
        · subst hjk
          rw [withTree_self, hmem]
          exact ⟨hcb, Or.inr hin⟩
        · rwa [withTree_of_ne _ hjk]
    · rintro ⟨j, hj, hin⟩
      have hnode (hin : ∃ j < 64, c ∈ members (T j)) (hcb : c ≠ b) : G'.home c = .block c := by
        have hc := (hI.nodes c).mpr hin
        rw [hstay c hcb, hc]
        rw [hc]
        exact fun heq => hcb (Ptr.block.inj heq)
      by_cases hjk : j = k
      · subst hjk
        rw [withTree_self, hmem] at hin
        exact hin.2.elim (hcome c) fun hin' => hnode ⟨j, hj, hin'⟩ hin.1
      · rw [withTree_of_ne _ hjk] at hin
        refine hnode ⟨j, hj, hin⟩ ?_
        rintro rfl
        exact hjk (hI.eq_of_mem hj hk hin hb)
  · rw [hsize]
    have hcb : c ≠ b := by
      rintro rfl
      rw [hgone] at hc
      cases hc
    by_cases hhome : G.home c = .block b
    · obtain ⟨x, hx, hcx⟩ := hmove c hcb hhome
      rw [Ptr.block.inj (hc.symm.trans hcx), hnewSize x hx]
      exact hI.ringSize c b hhome
    · rw [hstay c hcb hhome] at hc
      exact hI.ringSize c d hc
  · rw [hsize]
    have hcb : c ≠ b := by
      rintro rfl
      rw [hgone] at hc
      cases hc
    by_cases hhome : G.home c = .block b
    · exact hI.large c b hhome
    · rw [hstay c hcb hhome] at hc
      exact hI.large c d hc
  · rw [hsize]
    exact hI.small c i (hold hc nofun fun _ => nofun)
  · rw [hsize] at hlarge
    have hhome := hold hc nofun fun _ => nofun
    rw [hparent c, hI.rest c hhome hlarge]
    intro hin
    rcases List.mem_append.mp hin with hin | hin
    · rw [(hnew c hin).1] at hhome
      cases hhome
    · rw [hI.home_of_mem hk (hfocus.subset c hin)] at hhome
      cases hhome
  · rw [hcount, hrest, hsize]
    exact hI.restCount

/-- **Removal of a node that is alone in its ring.** -/
theorem Indexed.removeLone (hI : Indexed h.view G T) (hk : k < 64) (hb : b ∈ members (T k))
    (hnil : G.list (.block b) = []) :
    ∃ h', h.removeFromFreeList b = some h' ∧
      Indexed h'.view (G.setHome b .null) (withTree T k (modify b removeRoot (T k))) ∧
      h'.view.size = h.view.size := by
  have hhome := hI.home_of_mem hk hb
  have hhead : G.IsHead (.block b) := hhome
  have hself : (h.mem b).prevFreeBlock = .block b := by
    have hring := hI.rings.ring _ hhead
    rw [hnil] at hring
    exact (Lib.Ring.nil_iff.mp hring).2
  obtain ⟨l, r, hfocus, hlink, hslot, hheight⟩ := hI.focus hk hb
  obtain ⟨h', hremove, hstored, hframe, hbits⟩ :=
    hfocus.stored.removeNode hlink hslot hheight hfocus.nodup
  have hindex : largeBucketIndex (h.view.size b) = k := hI.log2_eq hk hb
  rw [hindex] at hbits
  have hother (c : ℕ) (hc : c ≠ b) : (G.setHome b .null).home c = G.home c := by
    rw [setHome_home, if_neg hc]
  -- nobody else was in the ring
  have halone {c : ℕ} (hc : c ≠ b) : G.home c ≠ .block b := by
    intro hcb
    have hin := (hI.rings.mem (.block b) c).mpr
      ⟨hcb, nofun, fun heq => hc (Ptr.block.inj heq).symm⟩
    rw [hnil] at hin
    cases hin
  -- the tree is empty when its last node has gone
  have hempty : l = nil ∧ r = nil ∧ h.view.parent b = .bucket k ↔
      modify b removeRoot (T k) = nil := by
    constructor
    · rintro ⟨rfl, rfl, hp⟩
      rw [hfocus.root hp, modify_root]
      rfl
    · intro hgone
      have hperm : ([b] ++ members (modify b removeRoot (T k))).Perm ([] ++ members (T k)) :=
        members_modify (members_removeRoot b) (hI.nodup hk) hb
      rw [hgone, members_nil, List.append_nil, List.nil_append] at hperm
      have hT : T k = node b nil nil := by
        have hst := hfocus.subset
        generalize T k = t at hperm hb
        cases t with
        | nil => cases hb
        | node a tl tr =>
          have heq := List.perm_singleton.mp hperm.symm
          rw [members_node, List.cons.injEq, List.append_eq_nil_iff, members_eq_nil,
            members_eq_nil] at heq
          rw [heq.1, heq.2.1, heq.2.2]
      have hst := hI.stored k hk
      rw [hT] at hst
      have hroot := hfocus.root hst.parent_root
      rw [hT, node.injEq] at hroot
      exact ⟨hroot.2.1.symm, hroot.2.2.symm, hst.parent_root⟩
  refine ⟨h', ?_, ?_, hframe.size⟩
  · rw [FreeLists.removeFromFreeList, if_pos hself, hremove]
  · refine hI.dropNode hk hb hfocus List.nodup_nil (fun c hc => by cases hc)
      (members_removeRoot b) (fun j q l r hd => hd.removeRoot)
      (hI.rings.dropHead hhome hnil hframe.next hframe.prev) ?_ (fun c hc => by cases hc)
      (fun c hc _ => hother c hc) (fun c hc hcb => absurd hcb (halone hc)) rfl hframe.size
      hframe.restCount hframe.read hframe.parent hstored fun j hj => ?_
    · rw [setHome_home, if_pos rfl]
    · have hbits' : h'.view.largeFreeBitmap = _ := hbits
      rw [hbits']
      simp only [hempty]
      by_cases hjk : j = k
      · subst hjk
        rw [withTree_self]
        split_ifs with hgone
        · rw [getLsbD_clear _ hj, hgone]
          simp
        · refine iff_of_true ((hI.bitmap j hj).mpr fun heq => ?_) hgone
          rw [heq] at hb
          cases hb
      · rw [withTree_of_ne _ hjk, ← hI.bitmap j hj]
        split_ifs
        · rw [getLsbD_clear _ hj, decide_eq_true hjk, Bool.and_true]
          rfl
        · rfl

/-- **Removal of a node that has others in its ring.** -/
theorem Indexed.removeRinged (hI : Indexed h.view G T) (hk : k < 64) (hb : b ∈ members (T k))
    (hne : G.list (.block b) ≠ []) :
    ∃ h' x, h.removeFromFreeList b = some h' ∧
      Indexed h'.view (G.behead b x) (withTree T k (modify b (setRoot x) (T k))) ∧
      h'.view.size = h.view.size := by
  have hhome := hI.home_of_mem hk hb
  have hhead : G.IsHead (.block b) := hhome
  have hown {y : Ptr} (hy : y ∈ G.circle (.block b)) : y ≠ .null := by
    rintro rfl
    cases hI.rings.owner_eq hhead hy
  -- the member in front of the node
  obtain ⟨x, hx, hprev⟩ : ∃ x ∈ G.list (.block b), h.view.prev (.block b) = .block x := by
    have hlast := (hI.rings.ring _ hhead).prev_eq
    rcases List.eq_nil_or_concat (G.list (.block b)) with hnil | ⟨s, x, heq⟩
    · exact absurd hnil hne
    · refine ⟨x, ?_, ?_⟩
      · rw [heq, List.concat_eq_append]
        exact List.mem_append_right _ List.mem_cons_self
      · rw [hlast, heq, List.concat_eq_append, List.map_append, List.map_singleton,
          List.getLastD_concat]
  obtain ⟨hxb, -, hbx⟩ := (hI.rings.mem _ x).mp hx
  have hxb_ne : x ≠ b := fun heq => hbx (congrArg Ptr.block heq).symm
  have hprev_ne : h.view.prev (.block b) ≠ .block b := by
    rw [hprev]
    exact fun heq => hxb_ne (Ptr.block.inj heq)
  have hprev_null : h.view.prev (.block b) ≠ .null := hown (hI.rings.prev_mem hhead)
  have hnext_null : h.view.next (.block b) ≠ .null := hown (hI.rings.next_mem hhead)
  obtain ⟨h₁, hv₁, hremove⟩ := removeLinked_view hprev_null hnext_null
  obtain ⟨l, r, hfocus, hlink, hslot, hheight⟩ := hI.focus hk hb
  have hlarge := hI.large b b hhome
  have hread₁ : h₁.view.read = h.view.read := by
    rw [hv₁]
    rfl
  have hparent₁ : h₁.view.parent = h.view.parent := by
    rw [hv₁]
    rfl
  have hst₁ : Stored h₁.view (h₁.view.parent b) (node b l r) := by
    rw [hparent₁]
    exact hfocus.stored.of_eq hread₁ hparent₁
  have hchild : ∀ i, View.IsChild (h₁.view.read (.child b i)) := by
    intro i
    cases i with
    | false => exact hst₁.left.read_eq
    | true => exact hst₁.right.read_eq
  obtain ⟨h₂, hs, hv₂⟩ := FreeLists.substBlock_view (by rwa [hparent₁]) hchild x
  have hslot₁ : ∀ c ∈ members (node b l r), ∀ i, h₁.view.parent b ≠ .child c i := by
    rw [hparent₁]
    exact hslot
  have hxt : x ∉ members (T k) := by
    refine hI.notMem ?_ hk
    rw [hxb]
    exact fun heq => hxb_ne (Ptr.block.inj heq).symm
  have hxnot : x ∉ members (node b l r) := fun hin => hxt (hfocus.subset x hin)
  -- the link of the node is not one of the member
  have hxlink : ∀ i, h₁.view.parent b ≠ .child x i := by
    rw [hparent₁]
    intro i heq
    rcases hfocus.slot with hp | ⟨d, hd, -, j, hp⟩
    · rw [hp] at heq
      cases heq
    · rw [hp, Slot.child.injEq] at heq
      exact hxt (heq.1 ▸ hd)
  have hst₂ := hst₁.subst hslot₁ hxlink hxnot hfocus.nodup
  rw [← hv₂, hparent₁] at hst₂
  have hb₁ := hslot₁ b List.mem_cons_self
  have hsame {β : Type} (f : View → β) (h2 : f (h₁.view.subst b x) = f h₁.view)
      (h1 : f (h.view.unlink b) = f h.view) : f h₂.view = f h.view := by
    rw [hv₂, h2, hv₁, h1]
  have hsize : h₂.view.size = h.view.size := hsame View.size rfl rfl
  have hbits : h₂.view.largeFreeBitmap = h.view.largeFreeBitmap :=
    hsame View.largeFreeBitmap rfl rfl
  have hnext₂ : h₂.view.next = Function.update h.view.next (.block x) (h.view.next (.block b)) := by
    rw [hv₂, show (h₁.view.subst b x).next = h₁.view.next from rfl, hv₁, ← hprev]
    rfl
  have hprev₂ : h₂.view.prev = Function.update h.view.prev (h.view.next (.block b)) (.block x) := by
    rw [hv₂, show (h₁.view.subst b x).prev = h₁.view.prev from rfl, hv₁, ← hprev]
    rfl
  have hrings : Rings h₂.view (G.behead b x) := by
    apply hI.rings.behead hhome hx hprev
    · rw [hnext₂, Function.update_self]
    · rw [hprev₂, Function.update_self]
    · intro y hy
      rw [hnext₂, Function.update_of_ne hy]
    · intro y hy
      rw [hprev₂, Function.update_of_ne hy]
  have hgone : (G.behead b x).home b = .null := if_pos rfl
  have hmove (c : ℕ) (hc : c ≠ b) (hcb : G.home c = .block b) :
      (G.behead b x).home c = .block x := by
    rw [behead_home, if_neg hc, if_pos hcb]
  have hrest : (G.behead b x).list .restBucket = G.list .restBucket := by
    rw [behead_list, if_neg nofun, if_neg nofun]
  refine ⟨h₂, x, ?_, ?_, hsize⟩
  · have hprev_ne' : (h.mem b).prevFreeBlock ≠ .block b := hprev_ne
    rw [FreeLists.removeFromFreeList, if_neg hprev_ne', hremove, if_neg hlarge]
    have hrestBlock : h.view.parent b ≠ .restBlock := by
      intro heq
      rw [heq] at hlink
      exact hlink
    have hnull : h.view.parent b ≠ .null := by
      intro heq
      rw [heq] at hlink
      exact hlink
    rw [if_neg hrestBlock, if_pos hnull, hprev]
    exact hs
  · refine hI.dropNode hk hb hfocus (List.nodup_singleton x) ?_ ?_ ?_ hrings hgone
      ?_ ?_ (fun c hc hcb => ⟨x, List.mem_cons_self, hmove c hc hcb⟩) hrest hsize
      (hsame View.restCount rfl rfl) ?_ ?_ hst₂ fun j hj => ?_
    · intro c hc
      rw [List.mem_singleton.mp hc]
      exact ⟨hxb, hxb_ne⟩
    · exact fun l r => List.Perm.swap x b _
    · intro j q l r hd
      have hxsize := hI.ringSize x b hxb
      refine hd.change_root ?_ fun c hc => ?_
      · rw [hxsize]
        exact hd.div_eq List.mem_cons_self
      · rw [hxsize]
        exact hd.ne_root hc
    · intro c hc
      rw [List.mem_singleton.mp hc]
      exact hmove x hxb_ne hxb
    · intro c hc hcb
      rw [behead_home, if_neg hc, if_neg hcb]
    · intro q hq hqc
      rw [hv₂, subst_read_other hb₁ (by rwa [hparent₁]) fun i => hqc x List.mem_cons_self i, hread₁]
    · intro c hc
      rw [hv₂, hst₁.subst_parent_other hb₁ (fun heq => hc (by rw [heq]; exact List.mem_cons_self))
        fun hin => hc (List.mem_cons_of_mem _ hin), hparent₁]
    · rw [hbits, hI.bitmap j hj]
      by_cases hjk : j = k
      · subst hjk
        rw [withTree_self]
        refine iff_of_true (fun heq => ?_) fun heq => ?_
        · rw [heq] at hb
          cases hb
        · have hin := (hI.mem_modify (f := setRoot x) (c := x) hj hb
            (List.nodup_singleton x) (fun c hc => List.mem_singleton.mp hc ▸ ⟨hxb, hxb_ne⟩)
            fun l r => List.Perm.swap x b _).mpr ⟨hxb_ne, Or.inl List.mem_cons_self⟩
          rw [heq] at hin
          cases hin
      · rw [withTree_of_ne _ hjk]

/-- **Removing a free block.** -/
theorem Indexed.removeFromFreeList (hI : Indexed h.view G T) (hb : G.home b ≠ .null) :
    ∃ h' G' T', h.removeFromFreeList b = some h' ∧ Indexed h'.view G' T' ∧ Removed G G' b ∧
      h'.view.size = h.view.size := by
  by_cases hnode : G.home b = .block b
  · obtain ⟨k, hk, hin⟩ := (hI.nodes b).mp hnode
    by_cases hnil : G.list (.block b) = []
    · obtain ⟨h', hremove, hI', hsize⟩ := hI.removeLone hk hin hnil
      refine ⟨h', _, _, hremove, hI', ⟨?_, fun c hc => Or.inl ?_⟩, hsize⟩
      · rw [setHome_home, if_pos rfl]
      · rw [setHome_home, if_neg hc]
    · obtain ⟨h', x, hremove, hI', hsize⟩ := hI.removeRinged hk hin hnil
      refine ⟨h', _, _, hremove, hI', ⟨if_pos rfl, fun c hc => ?_⟩, hsize⟩
      by_cases hcb : G.home c = .block b
      · refine Or.inr ⟨hcb, x, ?_⟩
        rw [behead_home, if_neg hc, if_pos hcb]
      · refine Or.inl ?_
        rw [behead_home, if_neg hc, if_neg hcb]
  · obtain ⟨h', hremove, hI', hsize⟩ := hI.removeMember rfl hb hnode
    exact ⟨h', _, _, hremove, hI', Removed.take, hsize⟩

end PhpRuntime.Alloc
