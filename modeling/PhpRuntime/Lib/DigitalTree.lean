import Mathlib.Algebra.Order.Group.Nat
import Mathlib.Data.List.Nodup
import Mathlib.Data.List.Perm.Basic
import Mathlib.Data.Nat.Bits
import Mathlib.Data.Nat.Log
import Mathlib.Data.Tree.Basic

/-!
# Digital search trees

Every node of the tree has a key of its own. The keys below the left child of a node have the bit
of its level clear, those below the right child have it set, and the node itself may have either.
So a key is looked for along its bits, and a node is removed by putting any leaf below it in its
place.
-/

set_option autoImplicit false

namespace PhpRuntime.Lib.DigitalTree

open BinaryTree

variable {α : Type*} {key : α → ℕ} {a b x : α} {l r t : BinaryTree α} {j q : ℕ}

/-! ### The nodes of a tree -/

def members : BinaryTree α → List α
  | nil => []
  | node a l r => a :: (members l ++ members r)

@[simp] theorem members_nil : members (nil : BinaryTree α) = [] := rfl

@[simp] theorem members_node : members (node a l r) = a :: (members l ++ members r) := rfl

theorem members_eq_nil : members t = [] ↔ t = nil := by
  cases t with
  | nil => exact iff_of_true rfl rfl
  | node a l r => exact iff_of_false (List.cons_ne_nil _ _) nofun

/-- The tree stores the keys by their bits below `j`, and `q` are the bits above. -/
def IsDigital (key : α → ℕ) : ℕ → ℕ → BinaryTree α → Prop
  | _, _, nil => True
  | 0, q, node a l r => key a = q ∧ l = nil ∧ r = nil
  | j + 1, q, node a l r =>
      key a / 2 ^ (j + 1) = q ∧ (∀ b ∈ members l ++ members r, key b ≠ key a) ∧
        IsDigital key j (2 * q) l ∧ IsDigital key j (2 * q + 1) r

theorem div_half (n j : ℕ) : n / 2 ^ (j + 1) = n / 2 ^ j / 2 := by
  rw [pow_succ, Nat.div_div_eq_div_mul]

theorem div_of_testBit {n : ℕ} (h : n / 2 ^ (j + 1) = q) :
    n / 2 ^ j = 2 * q + (n.testBit j).toNat := by
  rw [div_half] at h
  have hbit : (n.testBit j).toNat = n / 2 ^ j % 2 := by
    rw [Nat.testBit_eq_decide_div_mod_eq]
    rcases Nat.mod_two_eq_zero_or_one (n / 2 ^ j) with h0 | h1
    · rw [h0]
      rfl
    · rw [h1]
      rfl
  omega

namespace IsDigital

@[simp] theorem nil : IsDigital key j q (nil : BinaryTree α) := by
  rw [IsDigital]
  trivial

theorem div_eq (h : IsDigital key j q t) (ha : a ∈ members t) : key a / 2 ^ j = q := by
  induction t generalizing j q with
  | nil => cases ha
  | node c l r ihl ihr =>
    cases j with
    | zero =>
      obtain ⟨hc, rfl, rfl⟩ := h
      rw [List.mem_singleton.mp ha, pow_zero, Nat.div_one, hc]
    | succ j =>
      obtain ⟨hc, -, hl, hr⟩ := h
      rcases List.mem_cons.mp ha with rfl | hlr
      · exact hc
      · rw [div_half]
        rcases List.mem_append.mp hlr with hin | hin
        · have hdiv := ihl hl hin
          omega
        · have hdiv := ihr hr hin
          omega

theorem ne_root (h : IsDigital key j q (node a l r)) (hb : b ∈ members l ++ members r) :
    key b ≠ key a := by
  cases j with
  | zero =>
    obtain ⟨-, rfl, rfl⟩ := h
    cases hb
  | succ j => exact h.2.1 b hb

/-- **Different nodes have different keys.** -/
theorem nodup_map (h : IsDigital key j q t) : ((members t).map key).Nodup := by
  induction t generalizing j q with
  | nil => exact List.nodup_nil
  | node c l r ihl ihr =>
    cases j with
    | zero =>
      obtain ⟨-, rfl, rfl⟩ := h
      exact List.nodup_singleton _
    | succ j =>
      obtain ⟨-, hne, hl, hr⟩ := h
      rw [members_node, List.map_cons, List.map_append, List.nodup_cons, List.nodup_append]
      refine ⟨?_, ihl hl, ihr hr, ?_⟩
      · rw [← List.map_append, List.mem_map]
        rintro ⟨b, hb, heq⟩
        exact hne b hb heq
      · intro m hm n hn heq
        obtain ⟨b, hb, rfl⟩ := List.mem_map.mp hm
        obtain ⟨c, hc, rfl⟩ := List.mem_map.mp hn
        have hleft := hl.div_eq hb
        have hright := hr.div_eq hc
        rw [heq] at hleft
        omega

theorem nodup (h : IsDigital key j q t) : (members t).Nodup := h.nodup_map.of_map

theorem congr {key' : α → ℕ} (h : IsDigital key j q t) (hkey : ∀ b ∈ members t, key' b = key b) :
    IsDigital key' j q t := by
  induction t generalizing j q with
  | nil => exact nil
  | node c l r ihl ihr =>
    have hc : key' c = key c := hkey c List.mem_cons_self
    have hin {b : α} (hb : b ∈ members l ++ members r) : key' b = key b :=
      hkey b (List.mem_cons_of_mem _ hb)
    cases j with
    | zero => exact ⟨hc.trans h.1, h.2⟩
    | succ j =>
      obtain ⟨hdiv, hne, hl, hr⟩ := h
      refine ⟨by rw [hc, hdiv], fun b hb => ?_,
        ihl hl fun b hb => hin (List.mem_append_left _ hb),
        ihr hr fun b hb => hin (List.mem_append_right _ hb)⟩
      rw [hc, hin hb]
      exact hne b hb

end IsDigital

theorem IsDigital.height_le (h : IsDigital key j q t) : t.height ≤ j + 1 := by
  induction t generalizing j q with
  | nil => exact Nat.zero_le _
  | node a l r ihl ihr =>
    cases j with
    | zero =>
      obtain ⟨-, rfl, rfl⟩ := h
      exact le_rfl
    | succ j =>
      have hl := ihl h.2.2.1
      have hr := ihr h.2.2.2
      rw [BinaryTree.height]
      omega

/-! ### Paths -/

/-- `a` is the node at the end of a path, which turns right where it has `true`. -/
inductive PathTo (a : α) : List Bool → BinaryTree α → Prop where
  | here (l r : BinaryTree α) : PathTo a [] (node a l r)
  | left {p : List Bool} {l : BinaryTree α} (c : α) (r : BinaryTree α) (h : PathTo a p l) :
      PathTo a (false :: p) (node c l r)
  | right {p : List Bool} {r : BinaryTree α} (c : α) (l : BinaryTree α) (h : PathTo a p r) :
      PathTo a (true :: p) (node c l r)

theorem PathTo.mem {p : List Bool} (h : PathTo a p t) : a ∈ members t := by
  induction h with
  | here l r => exact List.mem_cons_self
  | left c r h ih => exact List.mem_cons_of_mem _ (List.mem_append_left _ ih)
  | right c l h ih => exact List.mem_cons_of_mem _ (List.mem_append_right _ ih)

/-- **The path to a node is made of the bits of its key.** -/
theorem PathTo.testBit {p : List Bool} (hp : PathTo a p t) (h : IsDigital key j q t) :
    p.length ≤ j ∧ ∀ i (hi : i < p.length), (key a).testBit (j - 1 - i) = p[i] := by
  induction hp generalizing j q with
  | here l r => exact ⟨Nat.zero_le _, fun i hi => absurd hi (Nat.not_lt_zero i)⟩
  | @left p l c r hp ih =>
    cases j with
    | zero =>
      obtain ⟨-, rfl, -⟩ := h
      cases hp
    | succ j =>
      obtain ⟨-, -, hl, -⟩ := h
      obtain ⟨hlen, hbits⟩ := ih hl
      refine ⟨Nat.succ_le_succ hlen, fun i hi => ?_⟩
      cases i with
      | zero =>
        have hdiv := hl.div_eq hp.mem
        rw [Nat.testBit_eq_decide_div_mod_eq, Nat.add_sub_cancel, Nat.sub_zero, hdiv]
        exact decide_eq_false (by omega)
      | succ i =>
        rw [List.getElem_cons_succ, ← hbits i (Nat.lt_of_succ_lt_succ hi)]
        congr 1
        omega
  | @right p r c l hp ih =>
    cases j with
    | zero =>
      obtain ⟨-, -, rfl⟩ := h
      cases hp
    | succ j =>
      obtain ⟨-, -, -, hr⟩ := h
      obtain ⟨hlen, hbits⟩ := ih hr
      refine ⟨Nat.succ_le_succ hlen, fun i hi => ?_⟩
      cases i with
      | zero =>
        have hdiv := hr.div_eq hp.mem
        rw [Nat.testBit_eq_decide_div_mod_eq, Nat.add_sub_cancel, Nat.sub_zero, hdiv]
        exact decide_eq_true (by omega)
      | succ i =>
        rw [List.getElem_cons_succ, ← hbits i (Nat.lt_of_succ_lt_succ hi)]
        congr 1
        omega

/-! ### Insertion -/

/-- `x` is put where the bits of its key lead to. A tree that has the key stays as it is. -/
def insert (key : α → ℕ) (x : α) : ℕ → BinaryTree α → BinaryTree α
  | _, nil => node x nil nil
  | 0, node a l r => node a l r
  | j + 1, node a l r =>
    if key a = key x then node a l r
    else if (key x).testBit j then node a l (insert key x j r)
    else node a (insert key x j l) r

@[simp] theorem insert_nil : insert key x j nil = node x nil nil := by
  rw [insert]

theorem members_insert (h : IsDigital key j q t) (hx : key x / 2 ^ j = q)
    (hnew : ∀ b ∈ members t, key b ≠ key x) : (members (insert key x j t)).Perm (x :: members t) := by
  induction t generalizing j q with
  | nil => rw [insert_nil]; rfl
  | node a l r ihl ihr =>
    have ha : key a ≠ key x := hnew a List.mem_cons_self
    have hin {b : α} (hb : b ∈ members l ++ members r) : key b ≠ key x :=
      hnew b (List.mem_cons_of_mem _ hb)
    cases j with
    | zero => exact absurd (h.1.trans (by rw [← hx, pow_zero, Nat.div_one])) ha
    | succ j =>
      have hdiv := div_of_testBit hx
      rw [insert, if_neg ha]
      by_cases hbit : (key x).testBit j = true
      · rw [hbit] at hdiv
        have hperm := ihr h.2.2.2 hdiv fun b hb => hin (List.mem_append_right _ hb)
        rw [if_pos hbit]
        exact ((hperm.append_left (members l)).trans List.perm_middle |>.cons a).trans
          (List.Perm.swap x a _)
      · rw [Bool.not_eq_true] at hbit
        rw [hbit] at hdiv
        have hperm := ihl h.2.2.1 hdiv fun b hb => hin (List.mem_append_left _ hb)
        rw [if_neg (by rw [hbit]; exact Bool.false_ne_true)]
        exact ((hperm.append_right (members r)).cons a).trans (List.Perm.swap x a _)

theorem IsDigital.insert (h : IsDigital key j q t) (hx : key x / 2 ^ j = q)
    (hnew : ∀ b ∈ members t, key b ≠ key x) : IsDigital key j q (insert key x j t) := by
  induction t generalizing j q with
  | nil =>
    rw [insert_nil]
    cases j with
    | zero => exact ⟨by rwa [pow_zero, Nat.div_one] at hx, rfl, rfl⟩
    | succ j => exact ⟨hx, fun b hb => absurd hb List.not_mem_nil, IsDigital.nil, IsDigital.nil⟩
  | node a l r ihl ihr =>
    have ha : key a ≠ key x := hnew a List.mem_cons_self
    have hin {b : α} (hb : b ∈ members l ++ members r) : key b ≠ key x :=
      hnew b (List.mem_cons_of_mem _ hb)
    cases j with
    | zero => exact absurd (h.1.trans (by rw [← hx, pow_zero, Nat.div_one])) ha
    | succ j =>
      have hdiv := div_of_testBit hx
      obtain ⟨hroot, hne, hl, hr⟩ := h
      rw [DigitalTree.insert, if_neg ha]
      by_cases hbit : (key x).testBit j = true
      · rw [hbit] at hdiv
        have hnew' : ∀ b ∈ members r, key b ≠ key x := fun b hb =>
          hin (List.mem_append_right _ hb)
        rw [if_pos hbit]
        refine ⟨hroot, fun b hb => ?_, hl, ihr hr hdiv hnew'⟩
        rcases List.mem_append.mp hb with hbl | hbr
        · exact hne b (List.mem_append_left _ hbl)
        · rcases List.mem_cons.mp ((members_insert hr hdiv hnew').mem_iff.mp hbr) with rfl | hbr
          · exact ha.symm
          · exact hne b (List.mem_append_right _ hbr)
      · rw [Bool.not_eq_true] at hbit
        rw [hbit] at hdiv
        have hnew' : ∀ b ∈ members l, key b ≠ key x := fun b hb =>
          hin (List.mem_append_left _ hb)
        rw [if_neg (by rw [hbit]; exact Bool.false_ne_true)]
        refine ⟨hroot, fun b hb => ?_, ihl hl hdiv hnew', hr⟩
        rcases List.mem_append.mp hb with hbl | hbr
        · rcases List.mem_cons.mp ((members_insert hl hdiv hnew').mem_iff.mp hbl) with rfl | hbl
          · exact ha.symm
          · exact hne b (List.mem_append_left _ hbl)
        · exact hne b (List.mem_append_right _ hbr)

/-! ### Removal of a root -/

/-- The leaf that is found from the root by turning right where this is possible, or `d`. -/
def leaf : α → BinaryTree α → α
  | d, nil => d
  | _, node a l r =>
    match r with
    | nil => leaf a l
    | node _ _ _ => leaf a r

def dropLeaf : BinaryTree α → BinaryTree α
  | nil => nil
  | node a l r =>
    match r with
    | nil =>
      match l with
      | nil => nil
      | node _ _ _ => node a (dropLeaf l) nil
    | node _ _ _ => node a l (dropLeaf r)

def removeRoot : BinaryTree α → BinaryTree α
  | nil => nil
  | node a l r =>
    match r with
    | nil =>
      match l with
      | nil => nil
      | node _ _ _ => node (leaf a l) (dropLeaf l) nil
    | node _ _ _ => node (leaf a r) l (dropLeaf r)

theorem node_ne_nil (a : α) (l r : BinaryTree α) : node a l r ≠ nil := nofun

theorem leaf_perm (d : α) (h : t ≠ nil) : (leaf d t :: members (dropLeaf t)).Perm (members t) := by
  induction t generalizing d with
  | nil => exact absurd rfl h
  | node a l r ihl ihr =>
    cases r with
    | nil =>
      cases l with
      | nil => exact List.Perm.refl _
      | node b l r =>
        have hperm := ihl a (node_ne_nil b l r)
        exact (List.Perm.swap _ _ _).trans ((hperm.append_right (members nil)).cons a)
    | node b l' r' =>
      have hperm := (ihr a (node_ne_nil b l' r')).append_left (members l)
      exact (List.Perm.swap _ _ _).trans ((List.perm_middle.symm.trans hperm).cons a)

theorem leaf_mem (d : α) (h : t ≠ nil) : leaf d t ∈ members t :=
  (leaf_perm d h).mem_iff.mp List.mem_cons_self

theorem mem_of_mem_dropLeaf (h : b ∈ members (dropLeaf t)) : b ∈ members t := by
  cases t with
  | nil => exact h
  | node a l r =>
    exact (leaf_perm a (node_ne_nil a l r)).mem_iff.mp (List.mem_cons_of_mem _ h)

theorem IsDigital.dropLeaf (h : IsDigital key j q t) : IsDigital key j q (dropLeaf t) := by
  induction t generalizing j q with
  | nil => exact h
  | node a l r ihl ihr =>
    cases j with
    | zero =>
      obtain ⟨-, rfl, rfl⟩ := h
      exact IsDigital.nil
    | succ j =>
      obtain ⟨hroot, hne, hl, hr⟩ := h
      cases r with
      | nil =>
        cases l with
        | nil => exact IsDigital.nil
        | node b l r =>
          refine ⟨hroot, fun c hc => hne c ?_, ihl hl, hr⟩
          exact (List.mem_append.mp hc).elim
            (fun hcl => List.mem_append_left _ (mem_of_mem_dropLeaf hcl))
            (List.mem_append_right _)
      | node b l' r' =>
        refine ⟨hroot, fun c hc => hne c ?_, hl, ihr hr⟩
        exact (List.mem_append.mp hc).elim (List.mem_append_left _)
          fun hcr => List.mem_append_right _ (mem_of_mem_dropLeaf hcr)

theorem IsDigital.change_root (h : IsDigital key j q (node a l r)) (hx : key x / 2 ^ j = q)
    (hnew : ∀ b ∈ members l ++ members r, key b ≠ key x) : IsDigital key j q (node x l r) := by
  cases j with
  | zero =>
    rw [pow_zero, Nat.div_one] at hx
    exact ⟨hx, h.2⟩
  | succ j => exact ⟨hx, hnew, h.2.2⟩

theorem members_removeRoot (a : α) (l r : BinaryTree α) :
    (a :: members (removeRoot (node a l r))).Perm (members (node a l r)) := by
  cases r with
  | nil =>
    cases l with
    | nil => exact List.Perm.refl _
    | node b l r => exact ((leaf_perm a (node_ne_nil b l r)).append_right (members nil)).cons a
  | node b l' r' =>
    have hperm := (leaf_perm a (node_ne_nil b l' r')).append_left (members l)
    exact (List.perm_middle.symm.trans hperm).cons a

theorem IsDigital.removeRoot (h : IsDigital key j q t) : IsDigital key j q (removeRoot t) := by
  -- the leaf has a key of its own
  have hleaf {a : α} {l r l' r' : BinaryTree α} {x : α} (hn : IsDigital key j q (node a l r))
      (hn' : IsDigital key j q (node a l' r'))
      (hperm : (x :: (members l' ++ members r')).Perm (members l ++ members r)) :
      IsDigital key j q (node x l' r') := by
    have hx : x ∈ members (node a l r) :=
      List.mem_cons_of_mem _ (hperm.mem_iff.mp List.mem_cons_self)
    have hnodup := (List.nodup_cons.mp hn.nodup_map).2
    rw [← (hperm.map key).nodup_iff, List.map_cons, List.nodup_cons] at hnodup
    refine hn'.change_root (hn.div_eq hx) fun b hb heq => hnodup.1 ?_
    rw [← heq]
    exact List.mem_map_of_mem hb
  cases t with
  | nil => exact h
  | node a l r =>
    cases r with
    | nil =>
      cases l with
      | nil => exact IsDigital.nil
      | node b l r =>
        exact hleaf h h.dropLeaf
          ((leaf_perm a (node_ne_nil b l r)).append_right (members BinaryTree.nil))
    | node b l' r' =>
      exact hleaf h h.dropLeaf
        (List.perm_middle.symm.trans
          ((leaf_perm a (node_ne_nil b l' r')).append_left (members l)))

/-! ### Changes below a node -/

variable [DecidableEq α]

/-- The subtree of the node `a` is changed by `f`. -/
def modify (a : α) (f : BinaryTree α → BinaryTree α) : BinaryTree α → BinaryTree α
  | nil => nil
  | node b l r => if b = a then f (node b l r) else node b (modify a f l) (modify a f r)

/-- The node `a` is replaced by the node `x`. -/
def setRoot (x : α) : BinaryTree α → BinaryTree α
  | nil => nil
  | node _ l r => node x l r

theorem modify_root (a : α) (f : BinaryTree α → BinaryTree α) (l r : BinaryTree α) :
    modify a f (node a l r) = f (node a l r) := if_pos rfl

theorem modify_of_ne (f : BinaryTree α → BinaryTree α) (h : b ≠ a) :
    modify a f (node b l r) = node b (modify a f l) (modify a f r) := if_neg h

theorem modify_of_notMem (f : BinaryTree α → BinaryTree α) (h : a ∉ members t) :
    modify a f t = t := by
  induction t with
  | nil => rfl
  | node b l r ihl ihr =>
    rw [members_node, List.mem_cons, List.mem_append, not_or, not_or] at h
    rw [modify_of_ne f (Ne.symm h.1), ihl h.2.1, ihr h.2.2]

theorem members_modify {f : BinaryTree α → BinaryTree α} {old new : List α}
    (hf : ∀ l r, (old ++ members (f (node a l r))).Perm (new ++ members (node a l r)))
    (hnodup : (members t).Nodup) (ha : a ∈ members t) :
    (old ++ members (modify a f t)).Perm (new ++ members t) := by
  induction t with
  | nil => cases ha
  | node b l r ihl ihr =>
    rw [members_node, List.nodup_cons, List.nodup_append] at hnodup
    obtain ⟨-, hl, hr, hdisj⟩ := hnodup
    by_cases hb : b = a
    · subst hb
      rw [modify_root]
      exact hf l r
    · rw [modify_of_ne f hb, members_node, members_node]
      have hmem := (List.mem_cons.mp ha).resolve_left (Ne.symm hb)
      refine List.perm_middle.trans (List.Perm.trans (List.Perm.cons b ?_) List.perm_middle.symm)
      rcases List.mem_append.mp hmem with hin | hin
      · rw [modify_of_notMem f fun hr => hdisj a hin a hr rfl, ← List.append_assoc,
          ← List.append_assoc]
        exact (ihl hl hin).append_right _
      · rw [modify_of_notMem f fun hl => hdisj a hl a hin rfl]
        have hmove (u v w : List α) : (u ++ (v ++ w)).Perm (v ++ (u ++ w)) := by
          rw [← List.append_assoc, ← List.append_assoc]
          exact List.perm_append_comm.append_right w
        exact ((hmove _ _ _).trans ((ihr hr hin).append_left _)).trans (hmove _ _ _)

theorem IsDigital.modify {f : BinaryTree α → BinaryTree α}
    (hf : ∀ j q l r, IsDigital key j q (node a l r) → IsDigital key j q (f (node a l r)))
    (hkeys : ∀ l r, ∀ b ∈ members (f (node a l r)), ∃ c ∈ members (node a l r), key c = key b)
    (h : IsDigital key j q t) : IsDigital key j q (modify a f t) := by
  have hmem (t : BinaryTree α) : ∀ b ∈ members (DigitalTree.modify a f t),
      ∃ c ∈ members t, key c = key b := by
    induction t with
    | nil => exact fun b hb => absurd hb List.not_mem_nil
    | node d l r ihl ihr =>
      intro b hb
      by_cases hd : d = a
      · subst hd
        rw [modify_root] at hb
        exact hkeys l r b hb
      · rw [modify_of_ne f hd] at hb
        rcases List.mem_cons.mp hb with rfl | hlr
        · exact ⟨b, List.mem_cons_self, rfl⟩
        · rcases List.mem_append.mp hlr with hin | hin
          · obtain ⟨c, hc, heq⟩ := ihl b hin
            exact ⟨c, List.mem_cons_of_mem _ (List.mem_append_left _ hc), heq⟩
          · obtain ⟨c, hc, heq⟩ := ihr b hin
            exact ⟨c, List.mem_cons_of_mem _ (List.mem_append_right _ hc), heq⟩
  induction t generalizing j q with
  | nil => exact h
  | node b l r ihl ihr =>
    by_cases hb : b = a
    · subst hb
      rw [modify_root]
      exact hf j q l r h
    · rw [modify_of_ne f hb]
      cases j with
      | zero =>
        obtain ⟨hroot, rfl, rfl⟩ := h
        exact ⟨hroot, rfl, rfl⟩
      | succ j =>
        obtain ⟨hroot, hne, hl, hr⟩ := h
        refine ⟨hroot, fun c hc => ?_, ihl hl, ihr hr⟩
        rcases List.mem_append.mp hc with hin | hin
        · obtain ⟨d, hd, heq⟩ := hmem l c hin
          exact heq ▸ hne d (List.mem_append_left _ hd)
        · obtain ⟨d, hd, heq⟩ := hmem r c hin
          exact heq ▸ hne d (List.mem_append_right _ hd)

end PhpRuntime.Lib.DigitalTree
