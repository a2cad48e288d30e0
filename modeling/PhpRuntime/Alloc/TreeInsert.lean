import PhpRuntime.Alloc.TreeEdits

/-!
# Additions to a tree

The bits of the size lead to the block of the tree that has it, or to an empty link.
-/

set_option autoImplicit false

namespace PhpRuntime.Alloc

open BinaryTree PhpRuntime.Lib.DigitalTree

variable {v v' : View} {s : Slot} {t : BinaryTree ℕ} {b c x j q n : ℕ}

/-! ### The bits of the size -/

/-- The mask of the loops at the level `j`. -/
def maskAt (size j : ℕ) : BitVec 64 := BitVec.ofNat 64 size <<< (numBuckets - j)

theorem maskAt_msb (size : ℕ) (hj : j < numBuckets) :
    (maskAt size (j + 1)).msb = size.testBit j := by
  rw [numBuckets] at hj
  have hlow : 64 - 1 - (64 - (j + 1)) = j := by omega
  have hin : 64 - (j + 1) < 64 := by omega
  rw [maskAt, numBuckets, BitVec.msb_shiftLeft, BitVec.getMsbD_eq_getLsbD, hlow,
    BitVec.getLsbD_ofNat, decide_eq_true hin, decide_eq_true hj, Bool.true_and, Bool.true_and]

theorem maskAt_shift (size : ℕ) (hj : j < numBuckets) :
    maskAt size (j + 1) <<< 1 = maskAt size j := by
  have hsum : numBuckets - (j + 1) + 1 = numBuckets - j := by omega
  rw [maskAt, maskAt, ← BitVec.shiftLeft_add, hsum]

/-! ### A new node -/

theorem Stored.of_linkNode (hs : ∀ i, s ≠ .child x i) (hx : ∀ i, v.read (.child x i) = .null) :
    Stored (v.linkNode x s) s (node x nil nil) := by
  refine ⟨Function.update_self _ _ _, Function.update_self _ _ _, ?_, ?_⟩
  · exact (Function.update_of_ne (hs false).symm _ _).trans (hx false)
  · exact (Function.update_of_ne (hs true).symm _ _).trans (hx true)

theorem Stored.linkNode_other (h : Stored v s t) {p : Slot} (hp : s ≠ p) (hx : x ∉ members t)
    (hmem : ∀ b ∈ members t, ∀ i, Slot.child b i ≠ p) : Stored (v.linkNode x p) s t := by
  refine h.congr (Function.update_of_ne hp _ _) (fun b hb => ?_) fun b hb i => ?_
  · have hbx : b ≠ x := fun heq => hx (heq ▸ hb)
    exact Function.update_of_ne hbx _ _
  · exact Function.update_of_ne (hmem b hb i) _ _

/-! ### The loop -/

/-- A new size becomes a node at an empty link of the tree. -/
def AddsNode (v v' : View) (s : Slot) (t : BinaryTree ℕ) (x j : ℕ) : Prop :=
  (∀ b ∈ members t, v.size b ≠ v.size x) ∧ Stored v' s (insert v.size x j t) ∧
    ∃ b ∈ members t, ∃ i, v.read (.child b i) = .null ∧ v' = v.linkNode x (.child b i)

/-- A size that is in the tree makes the ring longer, behind the node. -/
def Joins (v v' : View) (t : BinaryTree ℕ) (x : ℕ) : Prop :=
  ∃ b ∈ members t, v.size b = v.size x ∧ v' =
    ((((v.setPrev (v.next (.block b)) (.block x)).setNext (.block b) (.block x)).setNext (.block x)
      (v.next (.block b))).setPrev (.block x) (.block b)).setParent x .null

theorem addToTree_ring {h : FreeLists} {m : BitVec 64} (hread : h.read s = .block b)
    (hsize : h.view.size b = h.view.size x) (hnext : h.view.next (.block b) ≠ .null) :
    ∃ h', FreeLists.addToTree x (h.view.size x) (n + 1) m s h = some h' ∧ h'.view =
      ((((h.view.setPrev (h.view.next (.block b)) (.block x)).setNext (.block b)
        (.block x)).setNext (.block x) (h.view.next (.block b))).setPrev (.block x)
        (.block b)).setParent x .null := by
  obtain ⟨h₁, e₁, v₁⟩ := FreeLists.setPrevFreeBlock_view (h := h) hnext (.block x)
  obtain ⟨h₂, e₂, v₂⟩ :=
    FreeLists.setNextFreeBlock_view (h := h₁) (p := .block b) nofun (.block x)
  obtain ⟨h₃, e₃, v₃⟩ :=
    FreeLists.setNextFreeBlock_view (h := h₂) (p := .block x) nofun (h.view.next (.block b))
  obtain ⟨h₄, e₄, v₄⟩ :=
    FreeLists.setPrevFreeBlock_view (h := h₃) (p := .block x) nofun (.block b)
  refine ⟨h₄.setParent x .null, ?_, ?_⟩
  · rw [FreeLists.addToTree, hread]
    dsimp only
    have hsize' : ¬ (h.mem b).size ≠ h.view.size x := not_not.mpr hsize
    rw [if_neg hsize']
    have e₁' : h.setPrevFreeBlock (h.mem b).nextFreeBlock (.block x) = some h₁ := e₁
    have e₃' : h₂.setNextFreeBlock (.block x) (h.mem b).nextFreeBlock = some h₃ := e₃
    rw [e₁', Option.bind_eq_bind, Option.bind_some, e₂, Option.bind_some, e₃', Option.bind_some,
      e₄]
    rfl
  · rw [FreeLists.setParent_view, v₄, v₃, v₂, v₁]

theorem Stored.linkNode_below {a : ℕ} {i : Bool} {u w : BinaryTree ℕ} {p : Slot}
    (hread : v.read s = .block a) (hparent : v.parent a = s) (hw : Stored v (.child a !i) w)
    (hau : a ∉ members u) (haw : a ∉ members w) (hdisj : ∀ c ∈ members u, c ∉ members w)
    (hxa : x ≠ a) (hxw : x ∉ members w) (hs : s ≠ p)
    (hp : p = .child a i ∨ ∃ b ∈ members u, ∃ k, p = .child b k) :
    (v.linkNode x p).read s = .block a ∧ (v.linkNode x p).parent a = s ∧
      Stored (v.linkNode x p) (.child a !i) w := by
  refine ⟨(Function.update_of_ne hs _ _).trans hread,
    (Function.update_of_ne hxa.symm _ _).trans hparent, hw.linkNode_other ?_ hxw ?_⟩
  · rcases hp with rfl | ⟨b, hb, k, rfl⟩
    · rw [Ne, Slot.child.injEq]
      cases i
      · exact fun heq => Bool.noConfusion heq.2
      · exact fun heq => Bool.noConfusion heq.2
    · rw [Ne, Slot.child.injEq]
      exact fun heq => hau (heq.1 ▸ hb)
  · intro c hc k heq
    rcases hp with rfl | ⟨b, hb, k', rfl⟩
    · rw [Slot.child.injEq] at heq
      exact haw (heq.1 ▸ hc)
    · rw [Slot.child.injEq] at heq
      exact hdisj b hb (heq.1 ▸ hc)

theorem addToTree_down {h : FreeLists} {a : ℕ} {i : Bool} {u : BinaryTree ℕ}
    (hread : h.read s = .block a) (hsize : h.view.size a ≠ h.view.size x)
    (hj : j + 1 ≤ numBuckets) (hbit : (h.view.size x).testBit j = i)
    (hu : Stored h.view (.child a i) u) (hxa : x ≠ a)
    (hxc : ∀ i, h.view.read (.child x i) = .null)
    (hrec : u ≠ nil → ∃ h',
      FreeLists.addToTree x (h.view.size x) n (maskAt (h.view.size x) j) (.child a i) h = some h' ∧
        (AddsNode h.view h'.view (.child a i) u x j ∨ Joins h.view h'.view u x)) :
    ∃ h', FreeLists.addToTree x (h.view.size x) (n + 1) (maskAt (h.view.size x) (j + 1)) s h =
        some h' ∧
      ((∀ b ∈ members u, h.view.size b ≠ h.view.size x) ∧
        Stored h'.view (.child a i) (insert h.view.size x j u) ∧
        (∃ p, h.view.read p = .null ∧ (p = .child a i ∨ ∃ b ∈ members u, ∃ k, p = .child b k) ∧
          h'.view = h.view.linkNode x p) ∨
        Joins h.view h'.view u x) := by
  have hstep : FreeLists.addToTree x (h.view.size x) (n + 1) (maskAt (h.view.size x) (j + 1)) s h =
      if h.read (.child a i) = .null then h.linkNode x (.child a i)
      else FreeLists.addToTree x (h.view.size x) n (maskAt (h.view.size x) j) (.child a i) h := by
    rw [FreeLists.addToTree, hread]
    dsimp only
    have hsize' : (h.mem a).size ≠ h.view.size x := hsize
    rw [if_pos hsize', maskAt_msb _ hj, hbit, maskAt_shift _ hj]
  rw [hstep]
  by_cases hnil : u = nil
  · subst hnil
    obtain ⟨h', heq, hv'⟩ := FreeLists.linkNode_view (h := h) (s := .child a i) trivial x
    have hslot : ∀ k, Slot.child a i ≠ .child x k := by
      intro k heq
      rw [Slot.child.injEq] at heq
      exact hxa heq.1.symm
    refine ⟨h', ?_, Or.inl ⟨fun b hb => absurd hb List.not_mem_nil, ?_, _,
      hu.read_nil, Or.inl rfl, hv'⟩⟩
    · have hread' : h.read (.child a i) = .null := hu.read_nil
      rw [if_pos hread']
      exact heq
    · rw [hv', insert_nil]
      exact Stored.of_linkNode hslot hxc
  · obtain ⟨h', heq, hcases⟩ := hrec hnil
    have hread' : h.read (.child a i) ≠ .null := mt hu.nil_iff.mp hnil
    refine ⟨h', ?_, hcases.imp_left fun hadd => ?_⟩
    · rw [if_neg hread']
      exact heq
    · obtain ⟨hnew, hst', b, hb, k, hnull, hv'⟩ := hadd
      exact ⟨hnew, hst', _, hnull, Or.inr ⟨b, hb, k, rfl⟩, hv'⟩

/-- **The loop.** -/
theorem Stored.addToTree {h : FreeLists} (hst : Stored h.view s t) (ht : t ≠ nil)
    (hd : IsDigital h.view.size j q t) (hx : h.view.size x / 2 ^ j = q) (hj : j ≤ numBuckets)
    (hxt : x ∉ members t) (hxc : ∀ i, h.view.read (.child x i) = .null)
    (hnext : ∀ b ∈ members t, h.view.next (.block b) ≠ .null) (hn : j < n)
    (hs : ∀ b ∈ members t, ∀ i, s ≠ .child b i) :
    ∃ h', FreeLists.addToTree x (h.view.size x) n (maskAt (h.view.size x) j) s h = some h' ∧
      (AddsNode h.view h'.view s t x j ∨ Joins h.view h'.view t x) := by
  induction t generalizing s j q n with
  | nil => exact absurd rfl ht
  | node a l r ihl ihr =>
    cases n with
    | zero => exact absurd hn (Nat.not_lt_zero j)
    | succ n =>
      by_cases hsize : h.view.size a = h.view.size x
      · obtain ⟨h', heq, hv'⟩ := addToTree_ring (n := n) (m := maskAt (h.view.size x) j)
          hst.read_node hsize (hnext a List.mem_cons_self)
        exact ⟨h', heq, Or.inr ⟨a, List.mem_cons_self, hsize, hv'⟩⟩
      cases j with
      | zero =>
        rw [pow_zero, Nat.div_one] at hx
        exact absurd (hd.1.trans hx.symm) hsize
      | succ j =>
        have hdiv := div_of_testBit hx
        have hnodup := hd.nodup
        rw [members_node, List.nodup_cons, List.mem_append, not_or, List.nodup_append] at hnodup
        obtain ⟨⟨hal, har⟩, -, -, hdisj⟩ := hnodup
        rw [members_node, List.mem_cons, List.mem_append, not_or, not_or] at hxt
        obtain ⟨hxa, hxl, hxr⟩ := hxt
        obtain ⟨-, hne, hdl, hdr⟩ := hd
        have hmem_l (b : ℕ) (hb : b ∈ members l) : b ∈ members (node a l r) :=
          List.mem_cons_of_mem _ (List.mem_append_left _ hb)
        have hmem_r (b : ℕ) (hb : b ∈ members r) : b ∈ members (node a l r) :=
          List.mem_cons_of_mem _ (List.mem_append_right _ hb)
        have hslot {u : BinaryTree ℕ} (hau : a ∉ members u) (i : Bool) :
            ∀ b ∈ members u, ∀ k, Slot.child a i ≠ .child b k := by
          intro b hb k heq
          rw [Slot.child.injEq] at heq
          exact hau (heq.1 ▸ hb)
        -- the links below one child are not the link of the tree
        have hlink {i : Bool} {u : BinaryTree ℕ} (hu : ∀ b ∈ members u, b ∈ members (node a l r))
            {p : Slot} (hp : p = .child a i ∨ ∃ b ∈ members u, ∃ k, p = .child b k) :
            s ≠ p ∧ ∃ b ∈ members (node a l r), ∃ k, p = .child b k := by
          rcases hp with rfl | ⟨b, hb, k, rfl⟩
          · exact ⟨hs a List.mem_cons_self i, a, List.mem_cons_self, i, rfl⟩
          · exact ⟨hs b (hu b hb) k, b, hu b hb, k, rfl⟩
        cases hbit : (h.view.size x).testBit j with
        | true =>
          rw [hbit] at hdiv
          have hrec := fun hr : r ≠ nil => ihr (n := n) hst.right hr hdr hdiv (by omega) hxr
            (fun b hb => hnext b (hmem_r b hb)) (by omega) (hslot har true)
          obtain ⟨h', heq, ⟨hnew, hst', p, hnull, hp, hv'⟩ | ⟨b, hb, hjoin⟩⟩ :=
            addToTree_down hst.read_node hsize hj hbit hst.right hxa hxc hrec
          · obtain ⟨hsp, b, hb, k, rfl⟩ := hlink hmem_r hp
            obtain ⟨hread, hparent, hother⟩ := Stored.linkNode_below (x := x) (i := true) hst.read_node
              hst.parent_root hst.left har hal (fun c hc hc' => hdisj c hc' c hc rfl) hxa hxl hsp hp
            rw [← hv'] at hread hparent hother
            refine ⟨h', heq, Or.inl ⟨fun c hc => ?_, ?_, b, hb, k, hnull, hv'⟩⟩
            · rcases List.mem_cons.mp hc with rfl | hlr
              · exact hsize
              · rcases List.mem_append.mp hlr with hcl | hcr
                · have hq := hdl.div_eq hcl
                  exact fun heq => by rw [heq, hdiv] at hq; exact absurd hq (Nat.succ_ne_self _)
                · exact hnew c hcr
            · rw [Lib.DigitalTree.insert, if_neg hsize, if_pos hbit]
              exact ⟨hread, hparent, hother, hst'⟩
          · exact ⟨h', heq, Or.inr ⟨b, hmem_r b hb, hjoin⟩⟩
        | false =>
          rw [hbit] at hdiv
          have hrec := fun hl : l ≠ nil => ihl (n := n) hst.left hl hdl hdiv (by omega) hxl
            (fun b hb => hnext b (hmem_l b hb)) (by omega) (hslot hal false)
          obtain ⟨h', heq, ⟨hnew, hst', p, hnull, hp, hv'⟩ | ⟨b, hb, hjoin⟩⟩ :=
            addToTree_down hst.read_node hsize hj hbit hst.left hxa hxc hrec
          · obtain ⟨hsp, b, hb, k, rfl⟩ := hlink hmem_l hp
            obtain ⟨hread, hparent, hother⟩ := Stored.linkNode_below (x := x) (i := false) hst.read_node
              hst.parent_root hst.right hal har (fun c hc hc' => hdisj c hc c hc' rfl) hxa hxr hsp hp
            rw [← hv'] at hread hparent hother
            refine ⟨h', heq, Or.inl ⟨fun c hc => ?_, ?_, b, hb, k, hnull, hv'⟩⟩
            · rcases List.mem_cons.mp hc with rfl | hlr
              · exact hsize
              · rcases List.mem_append.mp hlr with hcl | hcr
                · exact hnew c hcl
                · have hq := hdr.div_eq hcr
                  exact fun heq => by rw [heq, hdiv] at hq; exact absurd hq.symm (Nat.succ_ne_self _)
            · rw [Lib.DigitalTree.insert, if_neg hsize, if_neg (by rw [hbit]; exact Bool.false_ne_true)]
              exact ⟨hread, hparent, hst', hother⟩
          · exact ⟨h', heq, Or.inr ⟨b, hmem_l b hb, hjoin⟩⟩

end PhpRuntime.Alloc
