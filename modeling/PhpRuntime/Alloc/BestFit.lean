import PhpRuntime.Alloc.FreeListRuns
import PhpRuntime.Alloc.LargeSearch

/-!
# When the search for a large block finds the best one

The loops see the nodes along the bits of the size. Below the last right child, and in the next
tree, they turn right where there is a left child, so of these trees they find the least block
when it is the root.
-/

set_option autoImplicit false

namespace PhpRuntime.Alloc

open BinaryTree PhpRuntime.Lib PhpRuntime.Lib.DigitalTree

variable {h : FreeLists} {T : ℕ → BinaryTree ℕ} {ring : ℕ → List ℕ} {size : ℕ → ℕ} {best : Best}
  {slot : Slot} {t u l r : BinaryTree ℕ} {seenBefore : List ℕ} {a b c s j q n k : ℕ}

/-! ## The best block so far -/

/-- The best fit among the blocks that were looked at. -/
inductive Taken (size : ℕ → ℕ) (s : ℕ) (looked : List ℕ) : Best → Prop where
  | none (h : ∀ c ∈ looked, size c < s) : Taken size s looked ⟨.null, 2 ^ 64 - 1⟩
  | some (b : ℕ) (hb : b ∈ looked) (hle : s ≤ size b)
      (h : ∀ c ∈ looked, s ≤ size c → size b ≤ size c) : Taken size s looked ⟨.block b, size b⟩

theorem Taken.consider (h : Taken size s seenBefore best) (hb : size b < 2 ^ 64 - 1) {fits : Prop}
    [Decidable fits] (hfits : fits ↔ s ≤ size b) :
    Taken size s (seenBefore ++ [b]) (best.consider b (size b) fits) := by
  rw [Best.consider]
  cases h with
  | none h =>
    by_cases hle : s ≤ size b
    · rw [if_pos ⟨hfits.mpr hle, hb⟩]
      refine .some b (List.mem_append_right _ List.mem_cons_self) hle fun c hc hsc => ?_
      obtain hc | hc := List.mem_append.mp hc
      · exact absurd hsc (Nat.not_le.mpr (h c hc))
      · rw [List.mem_singleton.mp hc]
    · rw [if_neg fun hno => hle (hfits.mp hno.1)]
      refine .none fun c hc => ?_
      obtain hc | hc := List.mem_append.mp hc
      · exact h c hc
      · rw [List.mem_singleton.mp hc]
        exact Nat.not_le.mp hle
  | some a ha hle h =>
    by_cases hbest : fits ∧ size b < size a
    · rw [if_pos hbest]
      refine .some b (List.mem_append_right _ List.mem_cons_self) (hfits.mp hbest.1)
        fun c hc hsc => ?_
      obtain hc | hc := List.mem_append.mp hc
      · exact hbest.2.le.trans (h c hc hsc)
      · rw [List.mem_singleton.mp hc]
    · rw [if_neg hbest]
      refine .some a (List.mem_append_left _ ha) hle fun c hc hsc => ?_
      obtain hc | hc := List.mem_append.mp hc
      · exact h c hc hsc
      · rw [List.mem_singleton.mp hc] at hsc ⊢
        exact Nat.not_lt.mp fun hlt => hbest ⟨hfits.mpr hsc, hlt⟩

/-! ## The loops -/

def treePtr : BinaryTree ℕ → Ptr
  | nil => .null
  | node b _ _ => .block b

theorem treePtr_nil : treePtr nil = .null := rfl

theorem Stored.read_treePtr {v : View} (hst : Stored v slot t) : v.read slot = treePtr t := by
  cases t with
  | nil => exact hst.read_nil
  | node b l r => exact hst.read_node

theorem treePtr_eq_null : treePtr t = .null ↔ t = nil := by
  cases t with
  | nil => exact iff_of_true rfl rfl
  | node b l r => exact iff_of_false Ptr.noConfusion (node_ne_nil b l r)

theorem treePtr_lastOf (u r : BinaryTree ℕ) :
    (if treePtr r ≠ .null then treePtr r else treePtr u) = treePtr (lastOf u r) := by
  cases r with
  | nil => rfl
  | node b l r => rfl

theorem searchPath_turn (hst : Stored h.view slot (node a l r)) (heq : h.view.size a ≠ s)
    (m : BitVec 64) (u : BinaryTree ℕ) :
    h.searchPath s (n + 1) m (treePtr (node a l r)) (treePtr u) best =
      if m.msb = false then
        if l = nil then
          some (.inr (treePtr (lastOf u r), best.consider a (h.view.size a) (s ≤ h.view.size a)))
        else h.searchPath s n (m <<< 1) (treePtr l) (treePtr (lastOf u r))
          (best.consider a (h.view.size a) (s ≤ h.view.size a))
      else
        if r = nil then
          some (.inr (treePtr u, best.consider a (h.view.size a) (s ≤ h.view.size a)))
        else h.searchPath s n (m <<< 1) (treePtr r) (treePtr u)
          (best.consider a (h.view.size a) (s ≤ h.view.size a)) := by
  have hleft : h.read (.child a false) = treePtr l := hst.left.read_treePtr
  have hright : h.read (.child a true) = treePtr r := hst.right.read_treePtr
  have heq' : (h.mem a).size ≠ s := heq
  rw [treePtr, FreeLists.searchPath, if_neg heq']
  dsimp only
  rw [hleft, hright, treePtr_lastOf]
  simp only [ne_eq, treePtr_eq_null, ite_not]
  rfl

/-- **The loop along the bits** ends at a block of the size, or has looked at all blocks there and
at no other, and `rst` is the right child that was passed last. -/
theorem searchPath_eq (hst : Stored h.view slot t) (hne : t ≠ nil)
    (hj : j ≤ numBuckets) (hd : IsDigital h.view.size j q t) (hn : t.height ≤ n)
    (hsize : ∀ b ∈ members t, h.view.size b < 2 ^ 64 - 1)
    (htaken : Taken h.view.size s seenBefore best) (u : BinaryTree ℕ) :
    (∃ b ∈ along s j t, h.view.size b = s ∧
        h.searchPath s n (maskAt s j) (treePtr t) (treePtr u) best = some (.inl b)) ∨
      ∃ best', h.searchPath s n (maskAt s j) (treePtr t) (treePtr u) best =
          some (.inr (treePtr (passed s j u t), best')) ∧
        Taken h.view.size s (seenBefore ++ along s j t) best' := by
  induction t generalizing slot j q n seenBefore best u with
  | nil => exact absurd rfl hne
  | node a l r ihl ihr =>
    rw [BinaryTree.height] at hn
    obtain ⟨n, rfl⟩ : ∃ m, n = m + 1 := ⟨n - 1, by omega⟩
    have hroot : a ∈ along s j (node a l r) := by
      cases j <;> exact List.mem_cons_self
    by_cases heq : h.view.size a = s
    · refine .inl ⟨a, hroot, heq, ?_⟩
      exact if_pos heq
    have hconsider := htaken.consider (hsize a List.mem_cons_self)
      (Iff.refl (s ≤ h.view.size a))
    have hmem : ∀ b ∈ members l ++ members r, h.view.size b < 2 ^ 64 - 1 := fun b hb =>
      hsize b (List.mem_cons_of_mem _ hb)
    have hstep : h.searchPath s (n + 1) (maskAt s j) (treePtr (node a l r)) (treePtr u) best = _ :=
      searchPath_turn hst heq (maskAt s j) u
    cases j with
    | zero =>
      obtain ⟨-, rfl, rfl⟩ := hd
      refine .inr ⟨_, ?_, hconsider⟩
      rw [hstep]
      exact ite_self _
    | succ j =>
      obtain ⟨-, -, hdl, hdr⟩ := hd
      rw [maskAt_msb s hj, maskAt_shift s hj] at hstep
      rw [along, passed, hstep]
      by_cases hbit : s.testBit j = true
      · rw [if_pos hbit, if_pos hbit, if_neg (by rw [hbit]; exact Bool.noConfusion)]
        by_cases hr : r = nil
        · subst hr
          rw [if_pos rfl, along_nil, passed_nil]
          exact .inr ⟨_, rfl, hconsider⟩
        · rw [if_neg hr]
          obtain ⟨b, hb, hbs, hfound⟩ | ⟨best', hsearch, htaken'⟩ :=
            ihr hst.right hr (Nat.le_of_succ_le hj) hdr (n := n) (by omega)
              (fun b hb => hmem b (List.mem_append_right _ hb)) hconsider u
          · exact .inl ⟨b, List.mem_cons_of_mem _ hb, hbs, hfound⟩
          · rw [List.append_assoc, List.singleton_append] at htaken'
            exact .inr ⟨best', hsearch, htaken'⟩
      · rw [if_neg hbit, if_neg hbit, if_pos (Bool.not_eq_true _ ▸ hbit)]
        by_cases hl : l = nil
        · subst hl
          rw [if_pos rfl, along_nil, passed_nil]
          exact .inr ⟨_, rfl, hconsider⟩
        · rw [if_neg hl]
          obtain ⟨b, hb, hbs, hfound⟩ | ⟨best', hsearch, htaken'⟩ :=
            ihl hst.left hl (Nat.le_of_succ_le hj) hdl (n := n) (by omega) (fun b hb => hmem b (List.mem_append_left _ hb)) hconsider (lastOf u r)
          · exact .inl ⟨b, List.mem_cons_of_mem _ hb, hbs, hfound⟩
          · rw [List.append_assoc, List.singleton_append] at htaken'
            exact .inr ⟨best', hsearch, htaken'⟩

/-! ### The loops that turn right -/

theorem Stored.firstChild (hst : Stored h.view slot (node b l r)) :
    h.read (h.firstChild b) = if l = nil then .null else treePtr r := by
  have hleft : h.read (.child b false) = treePtr l := hst.left.read_treePtr
  have hright : h.read (.child b true) = treePtr r := hst.right.read_treePtr
  rw [FreeLists.firstChild, hleft]
  by_cases hl : l = nil
  · subst hl
    exact hleft
  · have hdecide : decide (treePtr l ≠ .null) = true :=
      decide_eq_true (treePtr_eq_null.not.mpr hl)
    rw [if_neg hl, hdecide, hright]

theorem zigzag_node (a : ℕ) (l r : BinaryTree ℕ) :
    zigzag (node a l r) = a :: if l = nil then [] else zigzag r := by
  cases l with
  | nil => rfl
  | node b l' r' => rfl

theorem searchRest_eq (hst : ∃ slot, Stored h.view slot t) (hn : t.height < n)
    (hsize : ∀ b ∈ members t, h.view.size b < 2 ^ 64 - 1) (hlt : ∀ b ∈ members t, s < h.view.size b)
    (htaken : Taken h.view.size s seenBefore best) :
    ∃ best', h.searchRest s n (treePtr t) best = some (.inr best') ∧
      Taken h.view.size s (seenBefore ++ zigzag t) best' := by
  obtain ⟨slot, hst⟩ := hst
  induction t generalizing slot n seenBefore best with
  | nil =>
    obtain ⟨n, rfl⟩ : ∃ m, n = m + 1 := ⟨n - 1, by omega⟩
    exact ⟨best, rfl, by rwa [zigzag, List.append_nil]⟩
  | node a l r ihl ihr =>
    rw [BinaryTree.height] at hn
    obtain ⟨n, rfl⟩ : ∃ m, n = m + 1 := ⟨n - 1, by omega⟩
    have ha := hlt a List.mem_cons_self
    have hconsider := htaken.consider (hsize a List.mem_cons_self)
      (show s < h.view.size a ↔ s ≤ h.view.size a from iff_of_true ha ha.le)
    have hstep : h.searchRest s (n + 1) (treePtr (node a l r)) best =
        h.searchRest s n (if l = nil then .null else treePtr r)
          (best.consider a (h.view.size a) (s < h.view.size a)) := by
      rw [← hst.firstChild]
      exact if_neg ha.ne'
    rw [hstep, zigzag_node]
    by_cases hl : l = nil
    · rw [if_pos hl, if_pos hl]
      obtain ⟨n, rfl⟩ : ∃ m, n = m + 1 := ⟨n - 1, by omega⟩
      exact ⟨_, rfl, hconsider⟩
    · rw [if_neg hl, if_neg hl]
      obtain ⟨best', hrest, htaken'⟩ := ihr (n := n) (by omega)
        (fun b hb => hsize b (List.mem_cons_of_mem _ (List.mem_append_right _ hb)))
        (fun b hb => hlt b (List.mem_cons_of_mem _ (List.mem_append_right _ hb))) hconsider _
        hst.right
      rw [List.append_assoc, List.singleton_append] at htaken'
      exact ⟨best', hrest, htaken'⟩

theorem searchSmallest_eq (hst : Stored h.view slot (node a l r))
    (hn : (node a l r).height ≤ n) (bestFit : ℕ) :
    ∃ b, h.searchSmallest n a bestFit = some b ∧ (b = bestFit ∨ b ∈ zigzag (node a l r)) ∧
      h.view.size b ≤ h.view.size bestFit ∧
      ∀ c ∈ zigzag (node a l r), c ≠ a → h.view.size b ≤ h.view.size c := by
  induction n generalizing slot a l r bestFit with
  | zero => exact absurd hn (Nat.not_succ_le_zero _)
  | succ n ih =>
    rw [BinaryTree.height] at hn
    rw [FreeLists.searchSmallest, hst.firstChild, zigzag_node]
    have hstop : ∃ b, some bestFit = some b ∧ (b = bestFit ∨ b ∈ [a]) ∧
        h.view.size b ≤ h.view.size bestFit ∧
        ∀ c ∈ [a], c ≠ a → h.view.size b ≤ h.view.size c := by
      refine ⟨bestFit, rfl, .inl rfl, le_rfl, fun c hc hne => ?_⟩
      exact absurd (List.mem_singleton.mp hc) hne
    by_cases hl : l = nil
    · rw [if_pos hl, if_pos hl]
      exact hstop
    · rw [if_neg hl, if_neg hl]
      cases r with
      | nil => exact hstop
      | node d l' r' =>
        -- the better one of the right child and the best fit goes on
        have hbetter : ∀ x, h.view.size x ≤
            h.view.size (if h.view.size d < h.view.size bestFit then d else bestFit) →
            h.view.size x ≤ h.view.size d ∧ h.view.size x ≤ h.view.size bestFit := by
          intro x hx
          by_cases hlt : h.view.size d < h.view.size bestFit
          · rw [if_pos hlt] at hx
            exact ⟨hx, hx.trans hlt.le⟩
          · rw [if_neg hlt] at hx
            exact ⟨hx.trans (Nat.not_lt.mp hlt), hx⟩
        obtain ⟨b, hb, hin, hbest, hleast⟩ := ih hst.right (by omega)
          (if h.view.size d < h.view.size bestFit then d else bestFit)
        obtain ⟨hbd, hbb⟩ := hbetter b hbest
        refine ⟨b, hb, ?_, hbb, fun c hc hne => ?_⟩
        · obtain heq | hin := hin
          · by_cases hlt : h.view.size d < h.view.size bestFit
            · rw [if_pos hlt] at heq
              rw [heq, zigzag_node]
              exact .inr (List.mem_cons_of_mem _ List.mem_cons_self)
            · rw [if_neg hlt] at heq
              exact .inl heq
          · exact .inr (List.mem_cons_of_mem _ hin)
        · obtain hca | hc := List.mem_cons.mp hc
          · exact absurd hca hne
          · by_cases hcd : c = d
            · rw [hcd]
              exact hbd
            · exact hleast c hc hcd

/-! ## The trees -/

/-- The large free trees are well formed. The tree of the highest bit `k` is `T k`, and `ring b` are
the other blocks of the size of the node `b`. A free block has no type bits in its size. -/
structure LargeTrees (v : View) (T : ℕ → BinaryTree ℕ) (ring : ℕ → List ℕ) : Prop where
  stored : ∀ k < 64, Stored v (.bucket k) (T k)
  digital : ∀ k < 64, IsDigital v.size k 1 (T k)
  bitmap : ∀ k < 64, v.largeFreeBitmap.getLsbD k = true ↔ T k ≠ nil
  linked : ∀ k < 64, ∀ b ∈ members (T k), Ring v.next v.prev (.block b) ((ring b).map .block)
  ringSize : ∀ k < 64, ∀ b ∈ members (T k), ∀ c ∈ ring b, v.size c = v.size b
  free : ∀ k < 64, ∀ b ∈ members (T k), v.size b % 4 = 0

/-- The blocks of the trees: the nodes, and the other blocks of their sizes. -/
def InTree (T : ℕ → BinaryTree ℕ) (ring : ℕ → List ℕ) (c : ℕ) : Prop :=
  ∃ k < 64, ∃ b ∈ members (T k), c ∈ b :: ring b

theorem Indexed.largeTrees {v : View} {G : Lists} (hI : Indexed v G T)
    (hfree : ∀ b, G.home b ≠ .null → v.size b % 4 = 0) :
    LargeTrees v T fun b => G.list (.block b) where
  stored := hI.stored
  digital := hI.digital
  bitmap := hI.bitmap
  linked k hk b hb := hI.rings.ring _ (hI.home_of_mem hk hb)
  ringSize k hk b hb c hc := hI.ringSize c b ((hI.rings.mem _ c).mp hc).1
  free k hk b hb := by
    refine hfree b ?_
    rw [hI.home_of_mem hk hb]
    exact Ptr.noConfusion

theorem zero_getLsbD (i : ℕ) : (0 : BitVec 64).getLsbD i = false := BitVec.getLsbD_zero

theorem lt_of_log2_lt_log2 {m n : ℕ} (hlog : Nat.log2 m < Nat.log2 n) : m < n := by
  by_contra hle
  have hn : n ≠ 0 := by
    rintro rfl
    rw [Nat.log2_zero] at hlog
    exact absurd hlog (Nat.not_lt_zero _)
  have hm : m ≠ 0 := by omega
  have hpow := (Nat.log2_self_le hn).trans (Nat.not_lt.mp hle)
  have hlog' := (Nat.le_log2 hm).mpr hpow
  omega

theorem lowBit_spec {w : BitVec 64} (hw : w ≠ 0) :
    lowBit w < 64 ∧ w.getLsbD (lowBit w) = true ∧ ∀ i < lowBit w, w.getLsbD i = false := by
  have hsome : ∃ i < 64, w.getLsbD i = true := by
    by_contra hno
    refine hw (BitVec.eq_of_getLsbD_eq fun i hi => ?_)
    rw [zero_getLsbD]
    exact Bool.eq_false_iff.mpr fun hbit => hno ⟨i, hi, hbit⟩
  obtain ⟨i, hi, hbit⟩ := hsome
  have hfind : ((List.range 64).find? fun i => w.getLsbD i).isSome = true :=
    List.find?_isSome.mpr ⟨i, List.mem_range.mpr hi, hbit⟩
  obtain ⟨k, hk⟩ := Option.isSome_iff_exists.mp hfind
  rw [lowBit, hk, Option.getD_some]
  obtain ⟨hkbit, hkrange, hbefore⟩ := List.find?_range_eq_some.mp hk
  refine ⟨List.mem_range.mp hkrange, hkbit, fun j hj => ?_⟩
  exact Bool.not_eq_true' _ ▸ hbefore j hj

namespace LargeTrees

theorem next_of_mem (hT : LargeTrees h.view T ring) (hk : k < 64) (hb : b ∈ members (T k)) :
    ∃ c, h.nextFreeBlock (.block b) = .block c ∧ InTree T ring c ∧
      h.view.size c = h.view.size b := by
  have hnext : h.nextFreeBlock (.block b) ∈ Ptr.block b :: (ring b).map .block :=
    (hT.linked k hk b hb).next_mem
  obtain heq | hin := List.mem_cons.mp hnext
  · exact ⟨b, heq, ⟨k, hk, b, hb, List.mem_cons_self⟩, rfl⟩
  · obtain ⟨c, hc, heq⟩ := List.mem_map.mp hin
    exact ⟨c, heq.symm, ⟨k, hk, b, hb, List.mem_cons_of_mem _ hc⟩, hT.ringSize k hk b hb c hc⟩

theorem inTree_of_mem (ring : ℕ → List ℕ) (hk : k < 64) (hb : b ∈ members (T k)) :
    InTree T ring b := ⟨k, hk, b, hb, List.mem_cons_self⟩

theorem node_of_inTree (hT : LargeTrees h.view T ring) (hb : InTree T ring b) :
    ∃ k < 64, ∃ c ∈ members (T k), h.view.size b = h.view.size c := by
  obtain ⟨k, hk, c, hc, hin⟩ := hb
  refine ⟨k, hk, c, hc, ?_⟩
  obtain heq | hin := List.mem_cons.mp hin
  · rw [heq]
  · exact hT.ringSize k hk c hc b hin

theorem log2_eq (hT : LargeTrees h.view T ring) (hk : k < 64) (hb : b ∈ members (T k)) :
    Nat.log2 (h.view.size b) = k := log2_of_div ((hT.digital k hk).div_eq hb)

/-- A size is less than the first value of `best_size`. -/
theorem size_lt (hT : LargeTrees h.view T ring) (hk : k < 64) (hb : b ∈ members (T k)) :
    h.view.size b < 2 ^ 64 - 1 := by
  have hfree := hT.free k hk b hb
  have hne : h.view.size b ≠ 0 := by
    intro hzero
    have hdiv := (hT.digital k hk).div_eq hb
    rw [hzero, Nat.zero_div] at hdiv
    exact absurd hdiv Nat.zero_ne_one
  have hlog := hT.log2_eq hk hb
  have hlt := (Nat.log2_lt (k := 64) hne).mp (by omega)
  omega

theorem lt_of_log2_lt (hT : LargeTrees h.view T ring) (hk : k < 64) (hc : c ∈ members (T k))
    (hs : Nat.log2 s < k) : s < h.view.size c := by
  rw [← hT.log2_eq hk hc] at hs
  exact lt_of_log2_lt_log2 hs

theorem lt_of_lt_log2 (hT : LargeTrees h.view T ring) (hk : k < 64) (hc : c ∈ members (T k))
    (hs : k < Nat.log2 s) : h.view.size c < s := by
  rw [← hT.log2_eq hk hc] at hs
  exact lt_of_log2_lt_log2 hs

theorem height_lt (hT : LargeTrees h.view T ring) (hk : k < 64) : (T k).height < 65 := by
  have hheight := (hT.digital k hk).height_le
  omega

theorem shifted_bit (hT : LargeTrees h.view T ring) {i : ℕ} (hi : k + i < 64) :
    (h.largeFreeBitmap >>> k).getLsbD i = true ↔ T (k + i) ≠ nil := by
  rw [BitVec.getLsbD_ushiftRight]
  exact hT.bitmap (k + i) hi

theorem shifted_eq_zero (hT : LargeTrees h.view T ring) :
    h.largeFreeBitmap >>> k = 0 ↔ ∀ i, k ≤ i → i < 64 → T i = nil := by
  constructor
  · intro hzero i hki hi
    obtain ⟨d, rfl⟩ := Nat.exists_eq_add_of_le hki
    by_contra hne
    have hbit := (hT.shifted_bit hi).mpr hne
    rw [hzero, zero_getLsbD] at hbit
    cases hbit
  · intro hnil
    refine BitVec.eq_of_getLsbD_eq fun i hi => ?_
    rw [zero_getLsbD, BitVec.getLsbD_ushiftRight]
    by_cases hlt : k + i < 64
    · refine Bool.eq_false_iff.mpr fun hbit => (hT.bitmap (k + i) hlt).mp hbit ?_
      exact hnil _ (Nat.le_add_right k i) hlt
    · exact BitVec.getLsbD_of_ge _ _ (Nat.not_lt.mp hlt)

/-- **The last loop** finds the least block that it looks at in the next tree. -/
theorem smallestLarge_eq (hT : LargeTrees h.view T ring) (hne : h.largeFreeBitmap >>> k ≠ 0) :
    ∃ i b, k ≤ i ∧ i < 64 ∧ T i ≠ nil ∧ (∀ j, k ≤ j → j < i → T j = nil) ∧
      b ∈ zigzag (T i) ∧ (∀ c ∈ zigzag (T i), h.view.size b ≤ h.view.size c) ∧
      h.smallestLarge k (h.largeFreeBitmap >>> k) = some (h.nextFreeBlock (.block b)) := by
  obtain ⟨hlow, hbit, hbefore⟩ := lowBit_spec hne
  rw [FreeLists.smallestLarge]
  generalize lowBit (h.largeFreeBitmap >>> k) = d at hlow hbit hbefore ⊢
  have hd : k + d < 64 := by
    by_contra hge
    rw [BitVec.getLsbD_ushiftRight, BitVec.getLsbD_of_ge _ _ (Nat.not_lt.mp hge)] at hbit
    cases hbit
  have htree := (hT.shifted_bit hd).mp hbit
  have hfirst : ∀ j, k ≤ j → j < k + d → T j = nil := by
    intro j hkj hjd
    obtain ⟨i, rfl⟩ := Nat.exists_eq_add_of_le hkj
    by_contra hne
    have hset := (hT.shifted_bit (by omega)).mpr hne
    rw [hbefore i (by omega)] at hset
    cases hset
  have hst := hT.stored (k + d) hd
  have hheight := hT.height_lt hd
  cases ht : T (k + d) with
  | nil => exact absurd ht htree
  | node a l r =>
    rw [ht] at hst hheight
    have hread : h.largeFreeBuckets (k + d) = .block a := hst.read_node
    obtain ⟨b, hsearch, hin, hba, hleast⟩ := searchSmallest_eq hst hheight.le a
    have ha : a ∈ zigzag (node a l r) := root_subset_zigzag List.mem_cons_self
    refine ⟨k + d, b, Nat.le_add_right k d, hd, htree, hfirst, ?_, fun c hc => ?_, ?_⟩
    · rw [ht]
      obtain rfl | hin := hin
      · exact ha
      · exact hin
    · rw [ht] at hc
      by_cases hca : c = a
      · rw [hca]
        exact hba
      · exact hleast c hc hca
    · rw [hread]
      dsimp only
      rw [hsearch]
      rfl

end LargeTrees

theorem Stored.passed_stored (hst : Stored h.view slot t) (s j : ℕ)
    (hu : ∃ slot, Stored h.view slot u) : ∃ slot, Stored h.view slot (passed s j u t) := by
  induction t generalizing slot j u with
  | nil => rwa [passed_nil]
  | node a l r ihl ihr =>
    cases j with
    | zero => exact hu
    | succ j =>
      rw [passed]
      by_cases hbit : s.testBit j = true
      · rw [if_pos hbit]
        exact ihr hst.right j hu
      · rw [if_neg hbit]
        refine ihl hst.left j ?_
        cases r with
        | nil => exact hu
        | node b l' r' => exact ⟨_, hst.right⟩

/-! ## The search -/

def RootIsLeast (size : ℕ → ℕ) (t : BinaryTree ℕ) : Prop :=
  ∃ a ∈ root t, ∀ d ∈ members t, size a ≤ size d

/-- The least block that fits is where the loops look for it: in the tree of the size it is along
the bits of the size, or the root of the last right subtree that is passed there, and if no block
of that tree fits, it is the root of the next tree that is not empty. -/
def InSight (size : ℕ → ℕ) (T : ℕ → BinaryTree ℕ) (s : ℕ) : Prop :=
  ((∃ c ∈ members (T (Nat.log2 s)), s ≤ size c) →
    ∃ d ∈ along s (Nat.log2 s) (T (Nat.log2 s)) ++
        root (passed s (Nat.log2 s) nil (T (Nat.log2 s))),
      IsLeast size s (T (Nat.log2 s)) d) ∧
  ((∀ c ∈ members (T (Nat.log2 s)), size c < s) →
    ∀ k, Nat.log2 s < k → k < 64 → T k ≠ nil →
      (∀ i, Nat.log2 s < i → i < k → T i = nil) → RootIsLeast size (T k))

/-- The search gives `NULL` exactly when every block of the trees is too small, and otherwise a
block of the least size among those that fit. -/
structure IsBestFit (h : FreeLists) (inTree : ℕ → Prop) (trueSize : ℕ) : Prop where
  ends : ∃ p, h.searchLargeBlock trueSize = some p
  null : h.searchLargeBlock trueSize = some .null ↔
    ∀ b, inTree b → h.view.size b < trueSize
  least : ∀ p, h.searchLargeBlock trueSize = some p → p ≠ .null →
    ∃ b, p = .block b ∧ inTree b ∧ trueSize ≤ h.view.size b ∧
      ∀ c, inTree c → trueSize ≤ h.view.size c → h.view.size b ≤ h.view.size c

namespace LargeTrees

theorem isBestFit_of_node (hT : LargeTrees h.view T ring) (hk : k < 64) (hb : b ∈ members (T k))
    (hle : s ≤ h.view.size b)
    (hsearch : h.searchLargeBlock s = some (h.nextFreeBlock (.block b))) :
    IsBestFit h (InTree T ring) s ↔
      ∀ i < 64, ∀ d ∈ members (T i), s ≤ h.view.size d → h.view.size b ≤ h.view.size d := by
  obtain ⟨c, hnext, hc, hsize⟩ := hT.next_of_mem hk hb
  rw [hnext] at hsearch
  constructor
  · intro hbest i hi d hd hsd
    obtain ⟨b', heq, -, -, hleast⟩ := hbest.least _ hsearch Ptr.noConfusion
    rw [Ptr.block.injEq] at heq
    rw [← hsize, heq]
    exact hleast d (inTree_of_mem ring hi hd) hsd
  · intro hleast
    refine ⟨⟨_, hsearch⟩, ?_, fun p hp _ => ?_⟩
    · refine iff_of_false (fun hno => ?_) fun hno => ?_
      · rw [hsearch, Option.some.injEq] at hno
        cases hno
      · exact absurd (hno b (inTree_of_mem ring hk hb)) (Nat.not_lt.mpr hle)
    · rw [hsearch, Option.some.injEq] at hp
      refine ⟨c, hp.symm, hc, hsize ▸ hle, fun d hd hsd => ?_⟩
      obtain ⟨i, hi, e, he, hsize'⟩ := hT.node_of_inTree hd
      rw [hsize'] at hsd
      rw [hsize, hsize']
      exact hleast i hi e he hsd

theorem searchLargeBlock_cases (hT : LargeTrees h.view T ring) (hpos : 0 < s) (hlt : s < 2 ^ 64) :
    (h.searchLargeBlock s = some .null ∧
        ∀ k < 64, ∀ c ∈ members (T k), h.view.size c < s) ∨
      (∃ b ∈ seen s (Nat.log2 s) (T (Nat.log2 s)), s ≤ h.view.size b ∧
        (∀ d ∈ seen s (Nat.log2 s) (T (Nat.log2 s)), s ≤ h.view.size d →
          h.view.size b ≤ h.view.size d) ∧
        h.searchLargeBlock s = some (h.nextFreeBlock (.block b))) ∨
      (∀ c ∈ members (T (Nat.log2 s)), h.view.size c < s) ∧
        ∃ k b, Nat.log2 s < k ∧ k < 64 ∧ T k ≠ nil ∧
          (∀ i, Nat.log2 s < i → i < k → T i = nil) ∧
          b ∈ zigzag (T k) ∧ (∀ c ∈ zigzag (T k), h.view.size b ≤ h.view.size c) ∧
          h.searchLargeBlock s = some (h.nextFreeBlock (.block b)) := by
  have hindex : Nat.log2 s < 64 := (Nat.log2_lt hpos.ne').mpr hlt
  have hdiv := div_of_log2 hpos.ne'
  -- the trees behind the one of the size
  have hlater (hnone : ∀ c ∈ members (T (Nat.log2 s)), h.view.size c < s)
      (hnil : ∀ i, Nat.log2 s < i → i < 64 → T i = nil) :
      ∀ k < 64, ∀ c ∈ members (T k), h.view.size c < s := by
    intro k hk c hc
    obtain hlt | rfl | hgt := lt_trichotomy k (Nat.log2 s)
    · exact hT.lt_of_lt_log2 hk hc hlt
    · exact hnone c hc
    · rw [hnil k hgt hk] at hc
      exact absurd hc List.not_mem_nil
  rw [FreeLists.searchLargeBlock, largeBucketIndex, highBit]
  by_cases hzero : h.largeFreeBitmap >>> Nat.log2 s = 0
  · rw [if_pos hzero]
    have hnil := hT.shifted_eq_zero.mp hzero
    refine .inl ⟨rfl, hlater (fun c hc => ?_) fun i hi => hnil i hi.le⟩
    rw [hnil _ le_rfl hindex] at hc
    exact absurd hc List.not_mem_nil
  rw [if_neg hzero]
  have hbit := hT.shifted_bit (k := Nat.log2 s) (i := 0) hindex
  rw [Nat.add_zero] at hbit
  by_cases hown : (h.largeFreeBitmap >>> Nat.log2 s).getLsbD 0 = true
  · rw [if_pos hown]
    have hst := hT.stored _ hindex
    have hd := hT.digital _ hindex
    have hheight := hT.height_lt hindex
    have hbuckets : h.largeFreeBuckets (Nat.log2 s) = treePtr (T (Nat.log2 s)) := hst.read_treePtr
    have hnil : ∃ slot, Stored h.view slot nil := ⟨.null, rfl⟩
    have hmask : BitVec.ofNat 64 s <<< (numBuckets - Nat.log2 s) = maskAt s (Nat.log2 s) := rfl
    rw [hbuckets, hmask]
    obtain ⟨b, hb, hbs, hfound⟩ | ⟨best, hpath, htaken⟩ := searchPath_eq hst (hbit.mp hown)
      hindex.le hd hheight.le (fun b hb => hT.size_lt hindex hb) (.none fun c hc => absurd hc List.not_mem_nil) nil
    · refine .inr (.inl ⟨b, List.mem_append_left _ hb, hbs.ge, fun d _ hsd => hbs.trans_le hsd, ?_⟩)
      rw [treePtr_nil] at hfound
      rw [hfound]
      rfl
    · have hpassed : (passed s (Nat.log2 s) nil (T (Nat.log2 s))).height < 65 := by
        have hle := height_passed_le s (Nat.log2 s) nil (T (Nat.log2 s))
        rw [BinaryTree.height] at hle
        omega
      obtain ⟨best', hrest, htaken'⟩ := searchRest_eq (hst.passed_stored s (Nat.log2 s) hnil)
        hpassed (fun b hb => hT.size_lt hindex (passed_nil_subset s _ _ b hb))
        (hd.lt_of_mem_passed hdiv fun d hd => absurd hd List.not_mem_nil) htaken
      rw [treePtr_nil] at hpath
      rw [hpath, Option.bind_eq_bind, Option.bind_some]
      dsimp only
      rw [FreeLists.searchPassed, hrest, Option.bind_eq_bind, Option.bind_some]
      dsimp only
      rw [List.nil_append] at htaken'
      cases htaken' with
      | some b hb hle hleast => exact .inr (.inl ⟨b, hb, hle, hleast, if_pos Ptr.noConfusion⟩)
      | none hless =>
        have hnone : ∀ c ∈ members (T (Nat.log2 s)), h.view.size c < s := by
          intro c hc
          by_contra hge
          obtain ⟨e, he, hse⟩ := hd.exists_seen hdiv hc (Nat.not_lt.mp hge)
          exact absurd hse (Nat.not_le.mpr (hless e he))
        rw [if_neg (not_not.mpr rfl), ← BitVec.shiftRight_add]
        by_cases hnext : h.largeFreeBitmap >>> (Nat.log2 s + 1) = 0
        · rw [if_pos hnext]
          exact .inl ⟨rfl, hlater hnone (hT.shifted_eq_zero.mp hnext)⟩
        · rw [if_neg hnext]
          obtain ⟨i, b, hlt, hi, hne, hfirst, hb, hleast, hsearch⟩ := hT.smallestLarge_eq hnext
          exact .inr (.inr ⟨hnone, i, b, hlt, hi, hne, hfirst, hb, hleast, hsearch⟩)
  · rw [if_neg hown]
    have hnil : T (Nat.log2 s) = nil := not_not.mp (hbit.not.mp hown)
    obtain ⟨i, b, hle, hi, hne, hfirst, hb, hleast, hsearch⟩ := hT.smallestLarge_eq hzero
    have hlt : Nat.log2 s < i := by
      refine lt_of_le_of_ne hle fun heq => hne ?_
      rw [← heq, hnil]
    refine .inr (.inr ⟨fun c hc => ?_, i, b, hlt, hi, hne, fun j hj => hfirst j hj.le, hb, hleast,
      hsearch⟩)
    rw [hnil] at hc
    exact absurd hc List.not_mem_nil

/-- **The search is best fit** exactly when the least block that fits is where it looks. -/
theorem isBestFit_iff (hT : LargeTrees h.view T ring) (hpos : 0 < s) (hlt : s < 2 ^ 64) :
    IsBestFit h (InTree T ring) s ↔ InSight h.view.size T s := by
  have hindex : Nat.log2 s < 64 := (Nat.log2_lt hpos.ne').mpr hlt
  have hd := hT.digital _ hindex
  have hdiv := div_of_log2 hpos.ne'
  obtain ⟨hsearch, hless⟩ | ⟨b, hb, hle, hleast, hsearch⟩ |
    ⟨hnone, k, b, hk, hk', hne, hfirst, hb, hleast, hsearch⟩ :=
    hT.searchLargeBlock_cases hpos hlt
  · refine iff_of_true ⟨⟨_, hsearch⟩, iff_of_true hsearch fun b hb => ?_, fun p hp hne => ?_⟩
      ⟨fun hfit => ?_, fun _ k hk hk' hne => ?_⟩
    · obtain ⟨i, hi, c, hc, hbc⟩ := hT.node_of_inTree hb
      rw [hbc]
      exact hless i hi c hc
    · rw [hsearch, Option.some.injEq] at hp
      exact absurd hp.symm hne
    · obtain ⟨c, hc, hsc⟩ := hfit
      exact absurd hsc (Nat.not_le.mpr (hless _ hindex c hc))
    · obtain ⟨c, hc⟩ := List.exists_mem_of_ne_nil _ (members_eq_nil.not.mpr hne)
      exact absurd (hT.lt_of_log2_lt hk' hc hk) (Nat.lt_asymm (hless k hk' c hc))
  · have hin := mem_of_mem_seen hb
    rw [hT.isBestFit_of_node hindex hin hle hsearch]
    have hiff := hd.isLeast_seen_iff hdiv hb hle hleast
    have hown : (∀ i < 64, ∀ d ∈ members (T i), s ≤ h.view.size d →
        h.view.size b ≤ h.view.size d) ↔ IsLeast h.view.size s (T (Nat.log2 s)) b := by
      refine ⟨fun hall => ⟨hin, hle, hall _ hindex⟩, fun hall i hi d hdi hsd => ?_⟩
      obtain hlt | rfl | hgt := lt_trichotomy i (Nat.log2 s)
      · exact absurd hsd (Nat.not_le.mpr (hT.lt_of_lt_log2 hi hdi hlt))
      · exact hall.2.2 d hdi hsd
      · rw [← hT.log2_eq hindex hin] at hgt
        exact (hT.lt_of_log2_lt hi hdi hgt).le
    rw [hown, hiff]
    refine ⟨fun h => ⟨fun _ => h, fun hno => ?_⟩, fun h => h.1 ⟨b, hin, hle⟩⟩
    exact absurd hle (Nat.not_le.mpr (hno b hin))
  · have hin := mem_of_mem_zigzag hb
    rw [hT.isBestFit_of_node hk' hin (hT.lt_of_log2_lt hk' hin hk).le hsearch]
    have hown : (∀ i < 64, ∀ d ∈ members (T i), s ≤ h.view.size d →
        h.view.size b ≤ h.view.size d) ↔ ∀ d ∈ members (T k), h.view.size b ≤ h.view.size d := by
      refine ⟨fun hall d hdk => hall k hk' d hdk (hT.lt_of_log2_lt hk' hdk hk).le,
        fun hall i hi d hdi hsd => ?_⟩
      obtain hlt | rfl | hgt := lt_trichotomy i k
      · obtain hlt' | rfl | hgt' := lt_trichotomy i (Nat.log2 s)
        · exact absurd hsd (Nat.not_le.mpr (hT.lt_of_lt_log2 hi hdi hlt'))
        · exact absurd hsd (Nat.not_le.mpr (hnone d hdi))
        · rw [hfirst i hgt' hlt] at hdi
          exact absurd hdi List.not_mem_nil
      · exact hall d hdi
      · rw [← hT.log2_eq hk' hin] at hgt
        exact (hT.lt_of_log2_lt hi hdi hgt).le
    rw [hown, (hT.digital k hk').isLeast_zigzag_iff hb hleast]
    refine ⟨fun h => ⟨fun hfit => ?_, fun _ i hi hi' hne' hfirst' => ?_⟩, fun h => ?_⟩
    · obtain ⟨c, hc, hsc⟩ := hfit
      exact absurd hsc (Nat.not_le.mpr (hnone c hc))
    · -- the next tree that is not empty is this one
      obtain hlt | rfl | hgt := lt_trichotomy i k
      · exact absurd (hfirst i hi hlt) hne'
      · exact h
      · exact absurd (hfirst' k hk hgt) hne
    · exact h.2 hnone k hk hk' hne hfirst

end LargeTrees

/-! ## A heap of two blocks -/

/-- A block of 1536 bytes is freed, and one of 1024 bytes after it. -/
def twoBlocks : List Edit := [.add 1 (blockOf 1536), .add 2 (blockOf 1024)]

theorem exists_twoBlocks : ∃ h T ring, (FreeLists.init fun _ => blockOf 0).run twoBlocks = some h ∧
    LargeTrees h.view T ring ∧ InTree T ring 2 ∧ h.view.size 1 = 1536 ∧ h.view.size 2 = 1024 := by
  have hallowed : Allowed (fun _ => none) twoBlocks :=
    ⟨⟨rfl, by decide, by decide⟩, ⟨rfl, by decide, by decide⟩, trivial⟩
  obtain ⟨h, G, T, hrun, hh⟩ := (Holds.init fun _ => blockOf 0).run hallowed
  have hone : h.view.size 1 = 1536 := hh.size 1 1536 rfl
  have htwo : h.view.size 2 = 1024 := hh.size 2 1024 rfl
  refine ⟨h, T, fun b => G.list (.block b), hrun, hh.indexed.largeTrees fun b hb => ?_, ?_, hone,
    htwo⟩
  · by_cases h2 : b = 2
    · rw [h2, htwo]
    by_cases h1 : b = 1
    · rw [h1, hone]
    refine absurd ((hh.home b).mpr ?_) hb
    change Function.update (Function.update (fun _ => none) 1 (some 1536)) 2 (some 1024) b = none
    rw [Function.update_of_ne h2, Function.update_of_ne h1]
  · obtain ⟨k, hk, c, hc, hin⟩ := (hh.tries.large 2).mp ⟨1024, rfl, by decide⟩
    refine ⟨k, hk, c, hc, List.mem_cons.mpr hin⟩

theorem isBestFit_iff_twoBlocks : ∃ h T ring,
    (FreeLists.init fun _ => blockOf 0).run twoBlocks = some h ∧
      (IsBestFit h (InTree T ring) 600 ↔ InSight h.view.size T 600) := by
  obtain ⟨h, T, ring, hrun, hT, -⟩ := exists_twoBlocks
  exact ⟨h, T, ring, hrun, hT.isBestFit_iff (by decide) (by decide)⟩

/-- The root of the next tree is taken, although its left child is less. -/
theorem not_isBestFit : ¬ ∀ (h : FreeLists) (T : ℕ → BinaryTree ℕ) (ring : ℕ → List ℕ) (s : ℕ),
    LargeTrees h.view T ring → 0 < s → s < 2 ^ 64 → IsBestFit h (InTree T ring) s := by
  intro hall
  obtain ⟨h, T, ring, hrun, hT, htwo, hsize, hsize'⟩ := exists_twoBlocks
  have hsearch : (((FreeLists.init fun _ => blockOf 0).run twoBlocks).bind fun h =>
      h.searchLargeBlock 600) = some (.block 1) := by decide
  rw [hrun, Option.bind_some] at hsearch
  obtain ⟨b, heq, -, -, hleast⟩ := (hall h T ring 600 hT (by decide) (by decide)).least _ hsearch
    Ptr.noConfusion
  rw [Ptr.block.injEq] at heq
  have hle := hleast 2 htwo (by rw [hsize']; decide)
  rw [← heq, hsize, hsize'] at hle
  exact absurd hle (by decide)

end PhpRuntime.Alloc
