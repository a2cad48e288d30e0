import PhpRuntime.Alloc.Views
import PhpRuntime.Lib.DigitalTree

/-!
# The trees of the large free blocks

A tree is stored at a link when the link and the children hold its nodes and every parent points
to the link that holds the node.
-/

set_option autoImplicit false

namespace PhpRuntime.Alloc

open BinaryTree PhpRuntime.Lib.DigitalTree

/-- The tree `t` is stored at the link `s`. -/
def Stored (v : View) : Slot → BinaryTree ℕ → Prop
  | s, nil => v.read s = .null
  | s, node b l r =>
      v.read s = .block b ∧ v.parent b = s ∧ Stored v (.child b false) l ∧ Stored v (.child b true) r

variable {v v' : View} {s s' : Slot} {t l r : BinaryTree ℕ} {b c x : ℕ}

namespace Stored

theorem read_nil (h : Stored v s nil) : v.read s = .null := h

theorem read_node (h : Stored v s (node b l r)) : v.read s = .block b := h.1

theorem parent_root (h : Stored v s (node b l r)) : v.parent b = s := h.2.1

theorem left (h : Stored v s (node b l r)) : Stored v (.child b false) l := h.2.2.1

theorem right (h : Stored v s (node b l r)) : Stored v (.child b true) r := h.2.2.2

theorem nil_iff (h : Stored v s t) : v.read s = .null ↔ t = nil := by
  cases t with
  | nil => exact iff_of_true h rfl
  | node b l r =>
    rw [h.read_node]
    exact iff_of_false nofun (node_ne_nil b l r)

theorem read_eq (h : Stored v s t) : v.read s = .null ∨ ∃ b, v.read s = .block b := by
  cases t with
  | nil => exact Or.inl h
  | node b l r => exact Or.inr ⟨b, h.read_node⟩

theorem congr (h : Stored v s t) (hread : v'.read s = v.read s)
    (hparent : ∀ b ∈ members t, v'.parent b = v.parent b)
    (hchild : ∀ b ∈ members t, ∀ i, v'.read (.child b i) = v.read (.child b i)) :
    Stored v' s t := by
  induction t generalizing s with
  | nil => exact hread.trans h
  | node a l r ihl ihr =>
    obtain ⟨hsa, hpa, hsl, hsr⟩ := h
    refine ⟨hread.trans hsa, (hparent a List.mem_cons_self).trans hpa,
      ihl hsl (hchild a List.mem_cons_self false) (fun b hb => hparent b ?_) fun b hb => hchild b ?_,
      ihr hsr (hchild a List.mem_cons_self true) (fun b hb => hparent b ?_) fun b hb => hchild b ?_⟩
    · exact List.mem_cons_of_mem _ (List.mem_append_left _ hb)
    · exact List.mem_cons_of_mem _ (List.mem_append_left _ hb)
    · exact List.mem_cons_of_mem _ (List.mem_append_right _ hb)
    · exact List.mem_cons_of_mem _ (List.mem_append_right _ hb)

theorem root_mem (h : Stored v s t) (hb : v.read s = .block b) : b ∈ members t := by
  cases t with
  | nil => rw [h.read_nil] at hb; cases hb
  | node c l r =>
    rw [h.read_node, Ptr.block.injEq] at hb
    rw [← hb]
    exact List.mem_cons_self

theorem move (h : Stored v s (node b l r)) (hread : v'.read s' = .block b)
    (hroot : v'.parent b = s')
    (hparent : ∀ c ∈ members l ++ members r, v'.parent c = v.parent c)
    (hchild : ∀ c ∈ members (node b l r), ∀ i, v'.read (.child c i) = v.read (.child c i)) :
    Stored v' s' (node b l r) := by
  refine ⟨hread, hroot, h.left.congr (hchild b List.mem_cons_self false) (fun c hc => ?_)
    fun c hc => ?_, h.right.congr (hchild b List.mem_cons_self true) (fun c hc => ?_)
    fun c hc => ?_⟩
  · exact hparent c (List.mem_append_left _ hc)
  · exact hchild c (List.mem_cons_of_mem _ (List.mem_append_left _ hc))
  · exact hparent c (List.mem_append_right _ hc)
  · exact hchild c (List.mem_cons_of_mem _ (List.mem_append_right _ hc))

theorem read_parent (h : Stored v s t) (hb : b ∈ members t) :
    v.read (v.parent b) = .block b ∧
      (v.parent b = s ∨ ∃ c ∈ members t, ∃ i, v.parent b = .child c i) := by
  induction t generalizing s with
  | nil => cases hb
  | node a l r ihl ihr =>
    obtain ⟨hsa, hpa, hsl, hsr⟩ := h
    rcases List.mem_cons.mp hb with rfl | hlr
    · rw [hpa]
      exact ⟨hsa, Or.inl rfl⟩
    · rcases List.mem_append.mp hlr with hin | hin
      · obtain ⟨hread, heq | ⟨c, hc, i, heq⟩⟩ := ihl hsl hin
        · exact ⟨hread, Or.inr ⟨a, List.mem_cons_self, false, heq⟩⟩
        · exact ⟨hread, Or.inr ⟨c, List.mem_cons_of_mem _ (List.mem_append_left _ hc), i, heq⟩⟩
      · obtain ⟨hread, heq | ⟨c, hc, i, heq⟩⟩ := ihr hsr hin
        · exact ⟨hread, Or.inr ⟨a, List.mem_cons_self, true, heq⟩⟩
        · exact ⟨hread, Or.inr ⟨c, List.mem_cons_of_mem _ (List.mem_append_right _ hc), i, heq⟩⟩

end Stored

/-! ### Changes below a node -/

/-- The part `node b l r` of the tree at `s` can be changed on its own. -/
structure Focus (v : View) (s : Slot) (t : BinaryTree ℕ) (b : ℕ) (l r : BinaryTree ℕ) : Prop where
  stored : Stored v (v.parent b) (node b l r)
  subset : ∀ c ∈ members (node b l r), c ∈ members t
  nodup : (members (node b l r)).Nodup
  height_le : (node b l r).height ≤ t.height
  root : v.parent b = s → t = node b l r
  slot : v.parent b = s ∨
    ∃ c ∈ members t, c ∉ members (node b l r) ∧ ∃ i, v.parent b = .child c i
  change : ∀ (f : BinaryTree ℕ → BinaryTree ℕ) (v' : View),
    (∀ c ∈ members t, c ∉ members (node b l r) → v'.parent c = v.parent c) →
    (∀ c ∈ members t, c ∉ members (node b l r) → ∀ i, Slot.child c i ≠ v.parent b →
      v'.read (.child c i) = v.read (.child c i)) →
    (s ≠ v.parent b → v'.read s = v.read s) →
    Stored v' (v.parent b) (f (node b l r)) → Stored v' s (modify b f t)

variable {a : ℕ}

theorem Focus.below {i : Bool} {t' : BinaryTree ℕ} (h : Focus v (.child a i) t b l r)
    (ht' : Stored v (.child a !i) t') (hat : a ∉ members t) (hat' : a ∉ members t')
    (hdisj : ∀ c ∈ members t, c ∉ members t') {f : BinaryTree ℕ → BinaryTree ℕ}
    (hp : ∀ c, c = a ∨ c ∈ members t ∨ c ∈ members t' → c ∉ members (node b l r) →
      v'.parent c = v.parent c)
    (hc : ∀ c, c = a ∨ c ∈ members t ∨ c ∈ members t' → c ∉ members (node b l r) →
      ∀ i, Slot.child c i ≠ v.parent b → v'.read (.child c i) = v.read (.child c i))
    (hf : Stored v' (v.parent b) (f (node b l r))) :
    v'.parent a = v.parent a ∧ Stored v' (.child a i) (modify b f t) ∧
      Stored v' (.child a !i) t' := by
  have hout_a : a ∉ members (node b l r) := fun hin => hat (h.subset a hin)
  have hout : ∀ c ∈ members t', c ∉ members (node b l r) := fun c hc hin =>
    hdisj c (h.subset c hin) hc
  have hslot_a : Slot.child a (!i) ≠ v.parent b := by
    intro heq
    rcases h.slot with hpb | ⟨d, hd, -, k, hpb⟩
    · rw [hpb, Slot.child.injEq] at heq
      cases i <;> cases heq.2
    · rw [hpb, Slot.child.injEq] at heq
      exact hat (heq.1 ▸ hd)
  have hslot : ∀ c ∈ members t', ∀ k, Slot.child c k ≠ v.parent b := by
    intro c hc k heq
    rcases h.slot with hpb | ⟨d, hd, -, k', hpb⟩
    · rw [hpb, Slot.child.injEq] at heq
      exact hat' (heq.1 ▸ hc)
    · rw [hpb, Slot.child.injEq] at heq
      exact hdisj d hd (heq.1 ▸ hc)
  refine ⟨hp a (Or.inl rfl) hout_a, ?_, ?_⟩
  · refine h.change f v' (fun c hct => hp c (Or.inr (Or.inl hct)))
      (fun c hct => hc c (Or.inr (Or.inl hct))) (fun hne => ?_) hf
    exact hc a (Or.inl rfl) hout_a i hne
  · refine ht'.congr (hc a (Or.inl rfl) hout_a _ hslot_a) (fun c hct => ?_) fun c hct k => ?_
    · exact hp c (Or.inr (Or.inr hct)) (hout c hct)
    · exact hc c (Or.inr (Or.inr hct)) (hout c hct) k (hslot c hct k)

/-- **What is below a node can be changed on its own.** -/
theorem Stored.focus (h : Stored v s t) (hb : b ∈ members t) (hnodup : (members t).Nodup) :
    ∃ l r, Focus v s t b l r := by
  induction t generalizing s with
  | nil => cases hb
  | node a tl tr ihl ihr =>
    have hparent := h.read_parent hb
    obtain ⟨hsa, hpa, hsl, hsr⟩ := h
    by_cases ha : a = b
    · subst ha
      refine ⟨tl, tr, ?_, fun c hc => hc, hnodup, le_rfl, fun _ => rfl, Or.inl hpa, fun f v' _ _ _ hf => ?_⟩
      · rw [hpa]
        exact ⟨hsa, hpa, hsl, hsr⟩
      · rw [hpa] at hf
        rwa [modify_root]
    · rw [members_node, List.nodup_cons, List.mem_append, not_or, List.nodup_append] at hnodup
      obtain ⟨⟨hal, har⟩, hl, hr, hdisj⟩ := hnodup
      -- the link of the tree holds another node
      have hne : s ≠ v.parent b := by
        intro heq
        rw [← heq, hsa, Ptr.block.injEq] at hparent
        exact ha hparent.1
      rcases List.mem_append.mp ((List.mem_cons.mp hb).resolve_left (Ne.symm ha)) with hin | hin
      · obtain ⟨l, r, hfocus⟩ := ihl hsl hin hl
        have hmem (c : ℕ) (hc : c = a ∨ c ∈ members tl ∨ c ∈ members tr) :
            c ∈ members (node a tl tr) := by
          rw [members_node, List.mem_cons, List.mem_append]
          exact hc
        refine ⟨l, r, hfocus.stored, fun c hc => hmem c (Or.inr (Or.inl (hfocus.subset c hc))),
          hfocus.nodup, hfocus.height_le.trans ((le_max_left _ _).trans (Nat.le_succ _)), fun heq => absurd heq.symm hne, Or.inr ?_, fun f v' hp hc hs hf => ?_⟩
        · rcases hfocus.slot with hpb | ⟨c, hc, hout, i, hpb⟩
          · exact ⟨a, List.mem_cons_self, fun hin => hal (hfocus.subset a hin), false, hpb⟩
          · exact ⟨c, hmem c (Or.inr (Or.inl hc)), hout, i, hpb⟩
        · obtain ⟨hpa', hleft, hright⟩ := hfocus.below hsr hal har
            (fun c hc hc' => hdisj c hc c hc' rfl) (fun c hct => hp c (hmem c hct))
            (fun c hct => hc c (hmem c hct)) hf
          rw [modify_of_ne f ha, modify_of_notMem f fun hbr => hdisj b hin b hbr rfl]
          exact ⟨(hs hne).trans hsa, hpa'.trans hpa, hleft, hright⟩
      · obtain ⟨l, r, hfocus⟩ := ihr hsr hin hr
        have hmem (c : ℕ) (hc : c = a ∨ c ∈ members tr ∨ c ∈ members tl) :
            c ∈ members (node a tl tr) := by
          rw [members_node, List.mem_cons, List.mem_append]
          exact hc.imp_right Or.symm
        refine ⟨l, r, hfocus.stored, fun c hc => hmem c (Or.inr (Or.inl (hfocus.subset c hc))),
          hfocus.nodup, hfocus.height_le.trans ((le_max_right _ _).trans (Nat.le_succ _)), fun heq => absurd heq.symm hne, Or.inr ?_, fun f v' hp hc hs hf => ?_⟩
        · rcases hfocus.slot with hpb | ⟨c, hc, hout, i, hpb⟩
          · exact ⟨a, List.mem_cons_self, fun hin => har (hfocus.subset a hin), true, hpb⟩
          · exact ⟨c, hmem c (Or.inr (Or.inl hc)), hout, i, hpb⟩
        · obtain ⟨hpa', hright, hleft⟩ := hfocus.below hsl har hal
            (fun c hc hc' => hdisj c hc' c hc rfl) (fun c hct => hp c (hmem c hct))
            (fun c hct => hc c (hmem c hct)) hf
          rw [modify_of_ne f ha, modify_of_notMem f fun hbl => hdisj b hbl b hin rfl]
          exact ⟨(hs hne).trans hsa, hpa'.trans hpa, hleft, hright⟩

end PhpRuntime.Alloc
