import PhpRuntime.Alloc.Trees

/-!
# Edits of the trees

What the groups of stores do to a tree: a new node, another block in the place of a node, a leaf
in the place of a node, and no node.
-/

set_option autoImplicit false

namespace PhpRuntime.Alloc

open BinaryTree PhpRuntime.Lib.DigitalTree

variable {v v' : View} {s : Slot} {t l r : BinaryTree ℕ} {b c x : ℕ}

/-! ### A block in the place of a node -/

theorem subst_read (hb : ∀ i, v.parent b ≠ .child b i) :
    (v.subst b x).read = Function.update (Function.update
      (Function.update v.read (v.parent b) (.block x)) (.child x false) (v.read (.child b false)))
      (.child x true) (v.read (.child b true)) := by
  have hne : Slot.child b true ≠ .child x false := by simp
  have hfalse : Function.update v.read (v.parent b) (.block x) (.child b false) =
      v.read (.child b false) := Function.update_of_ne (hb false).symm _ _
  have htrue : Function.update (Function.update v.read (v.parent b) (.block x)) (.child x false)
      (v.read (.child b false)) (.child b true) = v.read (.child b true) := by
    rw [Function.update_of_ne hne, Function.update_of_ne (hb true).symm]
  change Function.update (Function.update (Function.update v.read (v.parent b) (.block x))
    (.child x false) (Function.update v.read (v.parent b) (.block x) (.child b false)))
    (.child x true) (Function.update (Function.update v.read (v.parent b) (.block x))
    (.child x false) (Function.update v.read (v.parent b) (.block x) (.child b false))
      (.child b true)) = _
  rw [hfalse, htrue]

theorem subst_parent (hb : ∀ i, v.parent b ≠ .child b i) (c : ℕ) :
    (v.subst b x).parent c =
      if v.read (.child b true) = .block c then .child x true
      else if v.read (.child b false) = .block c then .child x false
      else if c = x then v.parent b else v.parent c := by
  have hne : Slot.child b true ≠ .child x false := by simp
  have hfalse : Function.update v.read (v.parent b) (.block x) (.child b false) =
      v.read (.child b false) := Function.update_of_ne (hb false).symm _ _
  have htrue : Function.update (Function.update v.read (v.parent b) (.block x)) (.child x false)
      (v.read (.child b false)) (.child b true) = v.read (.child b true) := by
    rw [Function.update_of_ne hne, Function.update_of_ne (hb true).symm]
  change (if Function.update (Function.update v.read (v.parent b) (.block x)) (.child x false)
      (Function.update v.read (v.parent b) (.block x) (.child b false)) (.child b true) = .block c
    then Slot.child x true
    else if Function.update v.read (v.parent b) (.block x) (.child b false) = .block c
      then Slot.child x false else Function.update v.parent x (v.parent b) c) = _
  rw [hfalse, htrue, Function.update_apply]

theorem subst_read_link (hb : ∀ i, v.parent b ≠ .child b i) (hx : ∀ i, v.parent b ≠ .child x i) : (v.subst b x).read (v.parent b) = .block x := by
  rw [subst_read hb, Function.update_of_ne (hx true), Function.update_of_ne (hx false),
    Function.update_self]

theorem subst_read_child (hb : ∀ i, v.parent b ≠ .child b i) (i : Bool) : (v.subst b x).read (.child x i) = v.read (.child b i) := by
  rw [subst_read hb]
  cases i with
  | false => rw [Function.update_of_ne (by simp), Function.update_self]
  | true => rw [Function.update_self]

theorem subst_read_other (hb : ∀ i, v.parent b ≠ .child b i) (hs : s ≠ v.parent b) (hsx : ∀ i, s ≠ .child x i) :
    (v.subst b x).read s = v.read s := by
  rw [subst_read hb, Function.update_of_ne (hsx true), Function.update_of_ne (hsx false),
    Function.update_of_ne hs]

theorem Stored.adopted {i : Bool} (h : Stored v (.child b i) t)
    (hb : ∀ i, v.parent b ≠ .child b i) (hxt : x ∉ members t)
    (hother : ∀ c ∈ members t, v.read (.child b !i) ≠ .block c)
    (hslot : ∀ c ∈ members t, ∀ k, v.parent b ≠ .child c k) (hnodup : (members t).Nodup) :
    Stored (v.subst b x) (.child x i) t := by
  have hread := subst_read_child (x := x) hb i
  cases t with
  | nil => exact hread.trans h.read_nil
  | node a l r =>
    have ha := h.read_node
    have hne (c : ℕ) (hc : c ∈ members (node a l r)) : c ≠ x := fun heq => hxt (heq ▸ hc)
    refine h.move (hread.trans ha) ?_ (fun c hc => ?_) fun c hc k => ?_
    · have hno := hother a List.mem_cons_self
      rw [subst_parent hb]
      cases i with
      | false =>
        rw [Bool.not_false] at hno
        rw [if_neg hno, if_pos ha]
      | true => rw [if_pos ha]
    · have hca : c ≠ a := fun heq => (List.nodup_cons.mp hnodup).1 (heq ▸ hc)
      have hroot : v.read (.child b i) ≠ .block c := by
        rw [ha]
        exact fun heq => hca (Ptr.block.injEq _ _ ▸ heq).symm
      have hno := hother c (List.mem_cons_of_mem _ hc)
      rw [subst_parent hb]
      cases i with
      | false =>
        rw [Bool.not_false] at hno
        rw [if_neg hno, if_neg hroot, if_neg (hne c (List.mem_cons_of_mem _ hc))]
      | true =>
        rw [Bool.not_true] at hno
        rw [if_neg hroot, if_neg hno, if_neg (hne c (List.mem_cons_of_mem _ hc))]
    · refine subst_read_other hb (hslot c hc k).symm fun i heq => hne c hc ?_
      exact (Slot.child.injEq _ _ _ _ ▸ heq).1

/-- **Substitution.** The block `x` takes the place of the root. -/
theorem Stored.subst (h : Stored v (v.parent b) (node b l r))
    (hslot : ∀ c ∈ members (node b l r), ∀ k, v.parent b ≠ .child c k)
    (hx : ∀ k, v.parent b ≠ .child x k) (hxt : x ∉ members (node b l r))
    (hnodup : (members (node b l r)).Nodup) :
    Stored (v.subst b x) (v.parent b) (node x l r) := by
  have hb := hslot b List.mem_cons_self
  rw [members_node, List.nodup_cons, List.nodup_append] at hnodup
  rw [members_node, List.mem_cons, List.mem_append, not_or, not_or] at hxt
  obtain ⟨hnotin, hl, hr, hdisj⟩ := hnodup
  have hparent : (v.subst b x).parent x = v.parent b := by
    rw [subst_parent hb, if_neg fun hc => hxt.2.2 (h.right.root_mem hc),
      if_neg fun hc => hxt.2.1 (h.left.root_mem hc), if_pos rfl]
  refine ⟨subst_read_link hb hx, hparent, ?_, ?_⟩
  · exact h.left.adopted hb hxt.2.1 (fun c hc hread => hdisj c hc c (h.right.root_mem hread) rfl)
      (fun c hc => hslot c (List.mem_cons_of_mem _ (List.mem_append_left _ hc))) hl
  · exact h.right.adopted hb hxt.2.2 (fun c hc hread => hdisj c (h.left.root_mem hread) c hc rfl)
      (fun c hc => hslot c (List.mem_cons_of_mem _ (List.mem_append_right _ hc))) hr

theorem Stored.subst_parent_other (h : Stored v (v.parent b) (node b l r))
    (hb : ∀ i, v.parent b ≠ .child b i) (hcx : c ≠ x) (hc : c ∉ members (node b l r)) :
    (v.subst b x).parent c = v.parent c := by
  rw [subst_parent hb, if_neg fun hread => hc ?_, if_neg fun hread => hc ?_, if_neg hcx]
  · exact List.mem_cons_of_mem _ (List.mem_append_left _ (h.left.root_mem hread))
  · exact List.mem_cons_of_mem _ (List.mem_append_right _ (h.right.root_mem hread))

/-! ### A leaf in the place of a node -/

theorem Stored.leaf_parent (h : Stored v s t) (ht : t ≠ nil) (d : ℕ) :
    v.parent (leaf d t) = s ∨ ∃ c ∈ members t, ∃ i, v.parent (leaf d t) = .child c i :=
  (h.read_parent (leaf_mem d ht)).2

theorem Stored.drop_leaf (h : Stored v s t) (ht : t ≠ nil) (d : ℕ) (hnodup : (members t).Nodup)
    (hs : ∀ c ∈ members t, ∀ i, s ≠ .child c i) :
    Stored (v.write (v.parent (leaf d t)) .null) s (dropLeaf t) := by
  induction t generalizing s d with
  | nil => exact absurd rfl ht
  | node a tl tr ihl ihr =>
    rw [members_node, List.nodup_cons, List.mem_append, not_or, List.nodup_append] at hnodup
    obtain ⟨⟨hal, har⟩, hl, hr, hdisj⟩ := hnodup
    obtain ⟨hsa, hpa, hsl, hsr⟩ := h
    have hsa_ne (i : Bool) : s ≠ .child a i := hs a List.mem_cons_self i
    have hne_child {u : BinaryTree ℕ} (hau : a ∉ members u) (i : Bool) :
        ∀ c ∈ members u, ∀ k, Slot.child a i ≠ .child c k := by
      intro c hc k heq
      exact hau ((Slot.child.injEq _ _ _ _ ▸ heq).1 ▸ hc)
    -- what is not the link of the leaf keeps its value
    have hread {p q : Slot} (hpq : q ≠ p) : (v.write p .null).read q = v.read q :=
      Function.update_of_ne hpq _ _
    cases tr with
    | nil =>
      cases tl with
      | nil =>
        change (v.write (v.parent a) .null).read s = .null
        rw [hpa]
        exact Function.update_self _ _ _
      | node b l r =>
        have hleaf := hsl.leaf_parent (node_ne_nil b l r) a
        have hlink_a : Slot.child a true ≠ v.parent (leaf a (node b l r)) := by
          intro heq
          rcases hleaf with hp | ⟨c, hc, k, hp⟩
          · rw [hp, Slot.child.injEq] at heq
            cases heq.2
          · rw [hp] at heq
            exact hne_child hal true c hc k heq
        have hlink_s : s ≠ v.parent (leaf a (node b l r)) := by
          intro heq
          rcases hleaf with hp | ⟨c, hc, k, hp⟩
          · exact hsa_ne false (heq.trans hp)
          · exact hs c (List.mem_cons_of_mem _ (List.mem_append_left _ hc)) k (heq.trans hp)
        refine ⟨(hread hlink_s).trans hsa, hpa, ihl hsl (node_ne_nil b l r) a hl
          (hne_child hal false), ?_⟩
        exact (hread hlink_a).trans hsr
    | node b l r =>
      have hleaf := hsr.leaf_parent (node_ne_nil b l r) a
      have hlink_a : Slot.child a false ≠ v.parent (leaf a (node b l r)) := by
        intro heq
        rcases hleaf with hp | ⟨c, hc, k, hp⟩
        · rw [hp, Slot.child.injEq] at heq
          cases heq.2
        · rw [hp] at heq
          exact hne_child har false c hc k heq
      have hlink_l : ∀ c ∈ members tl, ∀ k, Slot.child c k ≠ v.parent (leaf a (node b l r)) := by
        intro c hc k heq
        rcases hleaf with hp | ⟨d, hd, i, hp⟩
        · rw [hp, Slot.child.injEq] at heq
          exact hal (heq.1 ▸ hc)
        · rw [hp, Slot.child.injEq] at heq
          exact hdisj c hc d hd heq.1
      have hlink_s : s ≠ v.parent (leaf a (node b l r)) := by
        intro heq
        rcases hleaf with hp | ⟨c, hc, k, hp⟩
        · exact hsa_ne true (heq.trans hp)
        · exact hs c (List.mem_cons_of_mem _ (List.mem_append_right _ hc)) k (heq.trans hp)
      refine ⟨(hread hlink_s).trans hsa, hpa, ?_, ihr hsr (node_ne_nil b l r) a hr
        (hne_child har true)⟩
      exact hsl.congr (hread hlink_a) (fun c hc => rfl) fun c hc k => hread (hlink_l c hc k)

theorem Stored.lastChild {h : FreeLists} (hst : Stored h.view s (node b l r)) :
    h.lastChild b = .child b (decide (r ≠ nil)) := by
  have hiff := hst.right.nil_iff
  rw [FreeLists.lastChild]
  congr 1
  exact decide_eq_decide.mpr (not_congr hiff)

theorem Stored.findLeaf {h : FreeLists} (hst : Stored h.view s (node b l r)) {n : ℕ}
    (hn : (node b l r).height ≤ n) (d : ℕ) :
    h.findLeaf n s b =
      some (h.view.parent (leaf d (node b l r)), leaf d (node b l r)) := by
  induction n generalizing s b l r d with
  | zero => exact absurd hn (Nat.not_succ_le_zero _)
  | succ n ih =>
    rw [BinaryTree.height] at hn
    rw [FreeLists.findLeaf, hst.lastChild]
    cases r with
    | nil =>
      rw [decide_eq_false (not_not.mpr rfl)]
      cases l with
      | nil =>
        have hread : h.read (.child b false) = .null := hst.left
        rw [hread]
        exact congrArg (fun p => some (p, b)) hst.parent_root.symm
      | node c l r =>
        have hread : h.read (.child b false) = .block c := hst.left.read_node
        rw [hread]
        exact ih hst.left (by omega) b
    | node c l' r' =>
      rw [decide_eq_true (node_ne_nil c l' r')]
      have hread : h.read (.child b true) = .block c := hst.right.read_node
      rw [hread]
      exact ih hst.right (by omega) b

/-- What stays when the part of a tree at `s` with the nodes `bs` is changed. -/
structure Frame (v v' : View) (s : Slot) (bs : List ℕ) : Prop where
  read : ∀ q, q ≠ s → (∀ c ∈ bs, ∀ i, q ≠ .child c i) → v'.read q = v.read q
  parent : ∀ c, c ∉ bs → v'.parent c = v.parent c
  size : v'.size = v.size
  next : v'.next = v.next
  prev : v'.prev = v.prev
  freeBitmap : v'.freeBitmap = v.freeBitmap
  restCount : v'.restCount = v.restCount

theorem Stored.of_eq (h : Stored v s t) (hread : v'.read = v.read) (hparent : v'.parent = v.parent) :
    Stored v' s t :=
  h.congr (congrFun hread s) (fun b _ => congrFun hparent b) fun _ _ _ => congrFun hread _

theorem Stored.substLeaf {h : FreeLists} (hst : Stored h.view (h.view.parent b) (node b l r))
    (hlink : View.IsLink (h.view.parent b))
    (hslot : ∀ c ∈ members (node b l r), ∀ i, h.view.parent b ≠ .child c i)
    (hnodup : (members (node b l r)).Nodup) {l' r' : BinaryTree ℕ} {d : ℕ}
    (hdrop : dropLeaf (node b l r) = node b l' r') :
    ∃ h₁ h', h.write (h.view.parent (leaf d (node b l r))) .null = some h₁ ∧
      h₁.substBlock b (leaf d (node b l r)) = some h' ∧
      Stored h'.view (h.view.parent b) (node (leaf d (node b l r)) l' r') ∧
      Frame h.view h'.view (h.view.parent b) (members (node b l r)) ∧
      h'.largeFreeBitmap = h.largeFreeBitmap := by
  have hne := node_ne_nil b l r
  have hperm := leaf_perm d hne
  rw [hdrop] at hperm
  have hnodup' := hperm.nodup_iff.mpr hnodup
  have hsub : ∀ c ∈ members (node b l' r'), c ∈ members (node b l r) := fun c hc =>
    hperm.mem_iff.mp (List.mem_cons_of_mem _ hc)
  have hleaf := leaf_mem d hne
  -- the link of the leaf
  have hlink' : View.IsLink (h.view.parent (leaf d (node b l r))) := by
    rcases hst.leaf_parent hne d with hp | ⟨c, -, i, hp⟩
    · rwa [hp]
    · rw [hp]
      trivial
  obtain ⟨h₁, hw, hv₁⟩ := FreeLists.write_view hlink' .null
  have hst₁ := hst.drop_leaf hne d hnodup hslot
  rw [← hv₁, hdrop] at hst₁
  have hparent₁ : h₁.view.parent = h.view.parent := by
    rw [hv₁]
    rfl
  have hb := hslot b List.mem_cons_self
  rw [← hparent₁] at hst₁ hb
  have hslot' : ∀ c ∈ members (node b l r), ∀ i, h₁.view.parent b ≠ .child c i := by
    rw [hparent₁]
    exact hslot
  have hchild : ∀ i, View.IsChild (h₁.view.read (.child b i)) := by
    intro i
    cases i with
    | false => exact hst₁.left.read_eq
    | true => exact hst₁.right.read_eq
  obtain ⟨h₂, hs, hv₂⟩ := FreeLists.substBlock_view (by rw [hparent₁]; exact hlink) hchild
    (leaf d (node b l r))
  have hx := hslot' _ hleaf
  have hst₂ := hst₁.subst (fun c hc => hslot' c (hsub c hc)) hx (List.nodup_cons.mp hnodup').1
    (List.nodup_cons.mp hnodup').2
  rw [← hv₂, hparent₁] at hst₂
  refine ⟨h₁, h₂, hw, hs, hst₂, ?_, ?_⟩
  · constructor
    · intro q hq hqc
      rw [hv₂, subst_read_other hb (by rwa [hparent₁]) fun i => hqc _ hleaf i, hv₁]
      refine Function.update_of_ne (fun heq => ?_) _ _
      rcases hst.leaf_parent hne d with hp | ⟨c, hc, i, hp⟩
      · exact hq (heq.trans hp)
      · exact hqc c hc i (heq.trans hp)
    · intro c hc
      have hcx : c ≠ leaf d (node b l r) := fun heq => hc (heq ▸ hleaf)
      rw [hv₂, hst₁.subst_parent_other hb hcx fun hin => hc (hsub c hin), hparent₁]
    · rw [hv₂, show (h₁.view.subst b _).size = h₁.view.size from rfl, hv₁]
      rfl
    · rw [hv₂, show (h₁.view.subst b _).next = h₁.view.next from rfl, hv₁]
      rfl
    · rw [hv₂, show (h₁.view.subst b _).prev = h₁.view.prev from rfl, hv₁]
      rfl
    · rw [hv₂, show (h₁.view.subst b _).freeBitmap = h₁.view.freeBitmap from rfl, hv₁]
      rfl
    · rw [hv₂, show (h₁.view.subst b _).restCount = h₁.view.restCount from rfl, hv₁]
      rfl
  · have hbits : h₂.view.largeFreeBitmap = h₁.view.largeFreeBitmap := by
      rw [hv₂]
      rfl
    have hbits₁ : h₁.view.largeFreeBitmap = h.view.largeFreeBitmap := by
      rw [hv₁]
      rfl
    exact hbits.trans hbits₁

/-- **Removal of a node**, with what becomes of the part of the tree at its link. -/
theorem Stored.removeNode {h : FreeLists} (hst : Stored h.view (h.view.parent b) (node b l r))
    (hlink : View.IsLink (h.view.parent b))
    (hslot : ∀ c ∈ members (node b l r), ∀ i, h.view.parent b ≠ .child c i)
    (hheight : (node b l r).height ≤ 65) (hnodup : (members (node b l r)).Nodup) :
    ∃ h', h.removeNode b = some h' ∧
      Stored h'.view (h.view.parent b) (removeRoot (node b l r)) ∧
      Frame h.view h'.view (h.view.parent b) (members (node b l r)) ∧
      h'.largeFreeBitmap =
        if l = nil ∧ r = nil ∧ h.view.parent b = .bucket (largeBucketIndex (h.view.size b)) then
          h.largeFreeBitmap &&& ~~~(1#64 <<< largeBucketIndex (h.view.size b))
        else h.largeFreeBitmap := by
  rw [BinaryTree.height] at hheight
  have hlast := hst.lastChild
  -- the leaf below the node takes its place
  have hleaf {i : Bool} {c : ℕ} {l' r' l'' r'' : BinaryTree ℕ}
      (hi : h.lastChild b = .child b i) (hsub : Stored h.view (.child b i) (node c l' r'))
      (hn : (node c l' r').height ≤ 65)
      (heq : leaf b (node b l r) = leaf b (node c l' r'))
      (hdrop : dropLeaf (node b l r) = node b l'' r'')
      (hroot : removeRoot (node b l r) = node (leaf b (node c l' r')) l'' r'')
      (hlr : ¬(l = nil ∧ r = nil)) :
      ∃ h', h.removeNode b = some h' ∧
        Stored h'.view (h.view.parent b) (removeRoot (node b l r)) ∧
        Frame h.view h'.view (h.view.parent b) (members (node b l r)) ∧
        h'.largeFreeBitmap =
          if l = nil ∧ r = nil ∧ h.view.parent b = .bucket (largeBucketIndex (h.view.size b)) then
            h.largeFreeBitmap &&& ~~~(1#64 <<< largeBucketIndex (h.view.size b))
          else h.largeFreeBitmap := by
    obtain ⟨h₁, h', hw, hs, hst', hframe, hbits⟩ := hst.substLeaf (d := b) hlink hslot hnodup hdrop
    rw [heq] at hw hs hst'
    have hread : h.read (h.lastChild b) = .block c := by
      rw [hi]
      exact hsub.read_node
    have hfind := hsub.findLeaf hn b
    refine ⟨h', ?_, by rwa [hroot], hframe, ?_⟩
    · rw [FreeLists.removeNode, hread]
      dsimp only
      rw [hi, hfind, Option.bind_eq_bind, Option.bind_some]
      dsimp only
      rw [hw]
      exact hs
    · rw [hbits, if_neg fun hno => hlr ⟨hno.1, hno.2.1⟩]
  cases r with
  | nil =>
    rw [decide_eq_false (not_not.mpr rfl)] at hlast
    cases l with
    | nil =>
      have hread : h.read (h.lastChild b) = .null := by
        rw [hlast]
        exact hst.left
      obtain ⟨h', hw, hv'⟩ := FreeLists.write_view hlink .null
      have hremove : h.removeNode b =
          some (if h.view.parent b = .bucket (largeBucketIndex (h.view.size b)) then
            { h' with largeFreeBitmap :=
                h'.largeFreeBitmap &&& ~~~(1#64 <<< largeBucketIndex (h.view.size b)) }
          else h') := by
        rw [FreeLists.removeNode, hread]
        dsimp only
        rw [show h.write (h.mem b).parent .null = some h' from hw]
        rfl
      have hbits : h'.largeFreeBitmap = h.largeFreeBitmap := congrArg View.largeFreeBitmap hv'
      have hstored : Stored h'.view (h.view.parent b) nil := by
        rw [hv']
        exact Function.update_self _ _ _
      have hframe : Frame h.view h'.view (h.view.parent b) [b] := by
        rw [hv']
        exact ⟨fun q hq _ => Function.update_of_ne hq _ _, fun _ _ => rfl, rfl, rfl, rfl, rfl, rfl⟩
      by_cases hp : h.view.parent b = .bucket (largeBucketIndex (h.view.size b))
      · rw [if_pos hp] at hremove
        refine ⟨_, hremove, hstored, ?_, ?_⟩
        · exact ⟨hframe.read, hframe.parent, hframe.size, hframe.next, hframe.prev,
            hframe.freeBitmap, hframe.restCount⟩
        · rw [if_pos ⟨rfl, rfl, hp⟩, ← hbits]
      · rw [if_neg hp] at hremove
        refine ⟨_, hremove, hstored, hframe, ?_⟩
        rw [if_neg fun hno => hp hno.2.2, hbits]
    | node c l r =>
      exact hleaf hlast hst.left (by omega) rfl rfl rfl fun hno => node_ne_nil _ _ _ hno.1
  | node c l' r' =>
    rw [decide_eq_true (node_ne_nil c l' r')] at hlast
    exact hleaf hlast hst.right (by omega) rfl rfl rfl fun hno => node_ne_nil _ _ _ hno.2

end PhpRuntime.Alloc
