import PhpRuntime.Alloc.Invariant

/-!
# Adding a free block

A block that is not free comes into the list of its size or into the tree of its highest bit.
-/

set_option autoImplicit false

namespace PhpRuntime.Alloc

open BinaryTree PhpRuntime.Lib.DigitalTree

variable {h : FreeLists} {v v' : View} {G : Lists} {T : ℕ → BinaryTree ℕ} {b c x k : ℕ} {p : Ptr}

/-- The home of a new block. The others keep theirs. -/
structure Added (G G' : Lists) (x : ℕ) : Prop where
  home : G'.home x ≠ .null
  notRest : G'.home x ≠ .restBucket
  other : ∀ c, c ≠ x → G'.home c = G.home c

/-- **What a block that is not free holds does not matter.** -/
theorem Indexed.unfree (hI : Indexed v G T) (hx : G.home x = .null)
    (hsize : ∀ c, c ≠ x → v'.size c = v.size c) (hparent : ∀ c, c ≠ x → v'.parent c = v.parent c)
    (hread : ∀ s, (∀ i, s ≠ .child x i) → v'.read s = v.read s)
    (hnext : ∀ p, p ≠ .block x → v'.next p = v.next p)
    (hprev : ∀ p, p ≠ .block x → v'.prev p = v.prev p)
    (hbits : v'.largeFreeBitmap = v.largeFreeBitmap) (hcount : v'.restCount = v.restCount) :
    Indexed v' G T := by
  have hne {c : ℕ} {p : Ptr} (hc : G.home c = p) (hp : p ≠ .null) : c ≠ x := by
    rintro rfl
    exact hp (hc.symm.trans hx)
  have hnode {k c : ℕ} (hk : k < 64) (hc : c ∈ members (T k)) : c ≠ x :=
    hne (p := .block c) (hI.home_of_mem hk hc) nofun
  have hsizes {c : ℕ} {p : Ptr} (hc : G.home c = p) (hp : p ≠ .null) : v'.size c = v.size c :=
    hsize c (hne hc hp)
  refine ⟨⟨hI.rings.mem, hI.rings.nodup, hI.rings.head, fun p hp => ?_⟩, fun k hk => ?_,
    fun k hk => ?_, hI.nodes, fun k hk => ?_, fun b c hb => ?_, fun b c hb hbc => ?_,
    fun b c hb => ?_, fun b i hb => ?_, fun b hb hlarge => ?_, ?_⟩
  · have hout : ∀ y ∈ G.circle p, y ≠ .block x := by
      rintro y hy rfl
      have hown := hI.rings.owner_eq hp hy
      rw [show p = .null from hown.symm.trans hx] at hp
      exact hp
    exact (hI.rings.ring p hp).congr (fun y hy => hnext y (hout y hy)) fun y hy =>
      hprev y (hout y hy)
  · refine (hI.stored k hk).congr (hread _ fun _ => nofun) (fun c hc => hparent c (hnode hk hc))
      fun c hc i => hread _ fun j heq => ?_
    rw [Slot.child.injEq] at heq
    exact hnode hk hc heq.1
  · exact (hI.digital k hk).congr fun c hc => hsize c (hnode hk hc)
  · rw [hbits]
    exact hI.bitmap k hk
  · rw [hsizes hb nofun, hsizes (hI.rings.head b c hb) nofun]
    exact hI.ringSize b c hb
  · rw [hparent b (hne hb nofun)]
    exact hI.ringParent b c hb hbc
  · rw [hsizes hb nofun]
    exact hI.large b c hb
  · rw [hsizes hb nofun]
    exact hI.small b i hb
  · rw [hsizes hb nofun] at hlarge
    rw [hparent b (hne hb nofun)]
    exact hI.rest b hb hlarge
  · rw [hcount, hI.restCount]
    congr 1
    refine List.countP_congr fun c hc => ?_
    rw [hsizes ((hI.rings.mem _ c).mp hc).1 nofun]

/-! ### Small blocks -/

theorem addSmall_view {n : Ptr} {index : ℕ} (hindex : bucketIndex (h.view.size x) = index)
    (hn : h.view.next (.smallBucket index) = n) (hnull : n ≠ .null) :
    ∃ h', h.addSmall x = some h' ∧ h'.view =
      { h.view with
        freeBitmap := if h.view.prev (.smallBucket index) = .smallBucket index then
          h.view.freeBitmap ||| (1#64 <<< index) else h.view.freeBitmap
        prev := Function.update (Function.update h.view.prev (.block x) (.smallBucket index)) n
          (.block x)
        next := Function.update (Function.update h.view.next (.block x) n) (.smallBucket index)
          (.block x) } := by
  have hindex' : bucketIndex (h.mem x).size = index := hindex
  -- the heap with the bitmap
  obtain ⟨h₀, hh₀, hv₀⟩ : ∃ h₀ : FreeLists,
      (if h.prevFreeBlock (.smallBucket index) = .smallBucket index then
        { h with freeBitmap := h.freeBitmap ||| (1#64 <<< index) } else h) = h₀ ∧ h₀.view =
          { h.view with freeBitmap :=
              if h.view.prev (.smallBucket index) = .smallBucket index then
                h.view.freeBitmap ||| (1#64 <<< index) else h.view.freeBitmap } := by
    by_cases hp : h.prevFreeBlock (.smallBucket index) = .smallBucket index
    · refine ⟨_, if_pos hp, ?_⟩
      rw [FreeLists.view_prev, if_pos hp]
      rfl
    · refine ⟨_, if_neg hp, ?_⟩
      rw [FreeLists.view_prev, if_neg hp]
  have hn₀ : h₀.nextFreeBlock (.smallBucket index) = n := by
    rw [← hn, ← FreeLists.view_next, hv₀]
  obtain ⟨h₁, e₁, v₁⟩ :=
    FreeLists.setPrevFreeBlock_view (h := h₀) (p := .block x) nofun (.smallBucket index)
  obtain ⟨h₂, e₂, v₂⟩ := FreeLists.setNextFreeBlock_view (h := h₁) (p := .block x) nofun n
  obtain ⟨h₃, e₃, v₃⟩ := FreeLists.setPrevFreeBlock_view (h := h₂) hnull (.block x)
  obtain ⟨h₄, e₄, v₄⟩ :=
    FreeLists.setNextFreeBlock_view (h := h₃) (p := .smallBucket index) nofun (.block x)
  refine ⟨h₄, ?_, ?_⟩
  · rw [FreeLists.addSmall]
    rw [hindex', hh₀, hn₀, e₁, Option.bind_eq_bind, Option.bind_some, e₂, Option.bind_some, e₃,
      Option.bind_some, e₄]
  · rw [v₄, v₃, v₂, v₁, hv₀]
    rfl

theorem Rings.insertAfter_update (hR : Rings v G) (hx : G.home x = .null) (hp : G.IsHead p)
    (hn : v'.next = Function.update (Function.update v.next (.block x) (v.next p)) p (.block x))
    (hpv : v'.prev = Function.update (Function.update v.prev (.block x) p) (v.next p) (.block x)) :
    Rings v' (G.put x p (x :: G.list p)) := by
  have hpnull : p ≠ .null := by
    rintro rfl
    exact hp
  have hne {y : Ptr} (hy : G.owner y = p) : y ≠ .block x := by
    rintro rfl
    exact hpnull (hy.symm.trans hx)
  have hpx : p ≠ .block x := hne (hR.owner_eq hp List.mem_cons_self)
  have hnx : v.next p ≠ .block x := hne (hR.owner_eq hp (hR.next_mem hp))
  apply hR.insertAfter hx hp
  · rw [hn, Function.update_of_ne hpx.symm, Function.update_self]
  · rw [hpv, Function.update_of_ne hnx.symm, Function.update_self]
  · rw [hn, Function.update_self]
  · rw [hpv, Function.update_self]
  · intro y hy hyx
    rw [hn, Function.update_of_ne hy, Function.update_of_ne hyx]
  · intro y hy hyx
    rw [hpv, Function.update_of_ne hy, Function.update_of_ne hyx]

theorem put_home (l : List ℕ) (c : ℕ) : (G.put x p l).home c = if c = x then p else G.home c :=
  Function.update_apply _ _ _ _

theorem Added.put (hp : p ≠ .null) (hrest : p ≠ .restBucket) (l : List ℕ) :
    Added G (G.put x p l) x := by
  refine ⟨?_, ?_, fun c hc => ?_⟩
  · rwa [put_home, if_pos rfl]
  · rwa [put_home, if_pos rfl]
  · rw [put_home, if_neg hc]

/-- **A small block comes into the list of its size.** -/
theorem Indexed.addSmall (hI : Indexed h.view G T) (hx : G.home x = .null)
    (hsize : SmallSize (h.view.size x)) :
    ∃ h' G', h.addSmall x = some h' ∧ Indexed h'.view G' T ∧ Added G G' x ∧
      h'.view.size = h.view.size := by
  have hhead : G.IsHead (.smallBucket (bucketIndex (h.view.size x))) := trivial
  have hown : G.owner (h.view.next (.smallBucket (bucketIndex (h.view.size x)))) =
      .smallBucket (bucketIndex (h.view.size x)) :=
    hI.rings.owner_eq hhead (hI.rings.next_mem hhead)
  have hnull : h.view.next (.smallBucket (bucketIndex (h.view.size x))) ≠ .null := by
    intro heq
    rw [heq] at hown
    cases hown
  obtain ⟨h', heq, hv'⟩ := addSmall_view rfl rfl hnull
  have hrings : Rings h'.view _ := hI.rings.insertAfter_update hx hhead
    (congrArg View.next hv') (congrArg View.prev hv')
  have hread : h'.view.read = h.view.read := by rw [hv']
  have hparent : h'.view.parent = h.view.parent := by rw [hv']
  have hsizes : h'.view.size = h.view.size := by rw [hv']
  refine ⟨h', _, heq, ⟨hrings, ?_, ?_, ?_, ?_, ?_, ?_, ?_, ?_, ?_, ?_⟩, Added.put (p := .smallBucket _) nofun nofun _, hsizes⟩
  · exact fun k hk => (hI.stored k hk).of_eq hread hparent
  · rw [hsizes]
    exact hI.digital
  · intro b
    rw [put_home, ← hI.nodes]
    split_ifs with hb
    · subst hb
      exact iff_of_false nofun fun hb => absurd (hx.symm.trans hb) nofun
    · rfl
  · rw [hv']
    exact hI.bitmap
  · intro b c hb
    rw [put_home] at hb
    split_ifs at hb
    rw [hsizes]
    exact hI.ringSize b c hb
  · intro b c hb
    rw [put_home] at hb
    split_ifs at hb
    rw [hparent]
    exact hI.ringParent b c hb
  · intro b c hb
    rw [put_home] at hb
    split_ifs at hb
    rw [hsizes]
    exact hI.large b c hb
  · intro b i hb
    rw [put_home] at hb
    rw [hsizes]
    split_ifs at hb with hbx
    · subst hbx
      exact ⟨hsize, Ptr.smallBucket.inj hb⟩
    · exact hI.small b i hb
  · intro b hb
    rw [put_home] at hb
    split_ifs at hb
    rw [hsizes, hparent]
    exact hI.rest b hb
  · rw [hv']
    exact hI.restCount

/-! ### Large blocks -/

theorem Indexed.clearChildren (hI : Indexed v G T) (hx : G.home x = .null) :
    Indexed ((v.write (.child x false) .null).write (.child x true) .null) G T ∧
      ∀ i, ((v.write (.child x false) .null).write (.child x true) .null).read (.child x i) =
        .null := by
  have hne : Slot.child x false ≠ .child x true := by simp
  refine ⟨?_, fun i => ?_⟩
  · refine hI.unfree hx (fun _ _ => rfl) (fun _ _ => rfl) (fun s hs => ?_) (fun _ _ => rfl)
      (fun _ _ => rfl) rfl rfl
    exact (Function.update_of_ne (hs true) _ _).trans (Function.update_of_ne (hs false) _ _)
  · cases i with
    | false => exact (Function.update_of_ne hne _ _).trans (Function.update_self _ _ _)
    | true => exact Function.update_self _ _ _

/-- The trees with `t` for the highest bit `k`. -/
def withTree (T : ℕ → BinaryTree ℕ) (k : ℕ) (t : BinaryTree ℕ) : ℕ → BinaryTree ℕ :=
  Function.update T k t

theorem withTree_self (t : BinaryTree ℕ) : withTree T k t k = t := Function.update_self _ _ _

theorem withTree_of_ne {j : ℕ} (t : BinaryTree ℕ) (hj : j ≠ k) : withTree T k t j = T j :=
  Function.update_of_ne hj _ _

theorem setHome_home (c : ℕ) : (G.setHome x p).home c = if c = x then p else G.home c :=
  Function.update_apply _ _ _ _

theorem Added.setHome (hp : p ≠ .null) (hrest : p ≠ .restBucket) : Added G (G.setHome x p) x := by
  refine ⟨?_, ?_, fun c hc => ?_⟩
  · rwa [setHome_home, if_pos rfl]
  · rwa [setHome_home, if_pos rfl]
  · rw [setHome_home, if_neg hc]

/-- **A new node.** -/
theorem Indexed.newNode (hI : Indexed v G T) (hx : G.home x = .null) (hk : k < 64) {s : Slot}
    (hs : s = .bucket k ∨ ∃ b ∈ members (T k), ∃ i, s = .child b i) {t : BinaryTree ℕ}
    (hstored : Stored (v.linkNode x s) (.bucket k) t) (hdigital : IsDigital v.size k 1 t)
    (hmembers : (members t).Perm (x :: members (T k))) (hlarge : ¬ SmallSize (v.size x))
    {w : BitVec 64} (hw : ∀ j < 64, w.getLsbD j = (v.largeFreeBitmap.getLsbD j || decide (j = k))) :
    Indexed { v.linkNode x s with largeFreeBitmap := w } (G.setHome x (.block x))
      (withTree T k t) := by
  have hxn : G.home x ≠ .block x := by
    rw [hx]
    exact nofun
  have hrings : Rings { v.linkNode x s with largeFreeBitmap := w } (G.setHome x (.block x)) := by
    apply hI.rings.newHead hx
    · exact Function.update_self _ _ _
    · exact Function.update_self _ _ _
    · exact fun y hy => Function.update_of_ne hy _ _
    · exact fun y hy => Function.update_of_ne hy _ _
  have hnobody (c : ℕ) : G.home c ≠ .block x := fun hc => hxn (hI.rings.head c x hc)
  refine ⟨hrings, fun j hj => ?_, fun j hj => ?_, fun b => ?_, fun j hj => ?_, fun b c hb => ?_,
    fun b c hb hbc => ?_, fun b c hb => ?_, fun b i hb => ?_, fun b hb hlarge => ?_, hI.restCount⟩
  · by_cases hjk : j = k
    · subst hjk
      rw [withTree_self]
      exact hstored.of_eq rfl rfl
    · rw [withTree_of_ne _ hjk]
      have hother : Stored (v.linkNode x s) (.bucket j) (T j) := by
        refine (hI.stored j hj).linkNode_other ?_ (hI.notMem hxn hj) fun c hc i => ?_
        · rcases hs with rfl | ⟨b, -, i, rfl⟩
          · exact fun heq => hjk (Slot.bucket.inj heq)
          · exact nofun
        · rcases hs with rfl | ⟨b, hb, i', rfl⟩
          · exact nofun
          · intro heq
            rw [Slot.child.injEq] at heq
            exact hjk (hI.eq_of_mem hj hk hc (heq.1 ▸ hb))
      exact hother.of_eq rfl rfl
  · by_cases hjk : j = k
    · subst hjk
      rw [withTree_self]
      exact hdigital
    · rw [withTree_of_ne _ hjk]
      exact hI.digital j hj
  · rw [setHome_home]
    by_cases hb : b = x
    · subst hb
      rw [if_pos rfl]
      refine iff_of_true rfl ⟨k, hk, ?_⟩
      rw [withTree_self]
      exact hmembers.mem_iff.mpr List.mem_cons_self
    · rw [if_neg hb, hI.nodes]
      constructor
      · rintro ⟨j, hj, hin⟩
        refine ⟨j, hj, ?_⟩
        by_cases hjk : j = k
        · subst hjk
          rw [withTree_self]
          exact hmembers.mem_iff.mpr (List.mem_cons_of_mem _ hin)
        · rwa [withTree_of_ne _ hjk]
      · rintro ⟨j, hj, hin⟩
        refine ⟨j, hj, ?_⟩
        by_cases hjk : j = k
        · subst hjk
          rw [withTree_self] at hin
          exact (List.mem_cons.mp (hmembers.mem_iff.mp hin)).resolve_left hb
        · rwa [withTree_of_ne _ hjk] at hin
  · change w.getLsbD j = true ↔ _
    rw [hw j hj, Bool.or_eq_true, hI.bitmap j hj, decide_eq_true_eq]
    by_cases hjk : j = k
    · subst hjk
      rw [withTree_self]
      refine iff_of_true (Or.inr rfl) fun hnil => ?_
      rw [hnil] at hmembers
      exact List.not_mem_nil (hmembers.mem_iff.mpr List.mem_cons_self)
    · rw [withTree_of_ne _ hjk]
      exact or_iff_left hjk
  · rw [setHome_home] at hb
    split_ifs at hb with hbx
    · rw [hbx, Ptr.block.inj hb]
    · exact hI.ringSize b c hb
  · rw [setHome_home] at hb
    split_ifs at hb with hbx
    · exact absurd (hbx.trans (Ptr.block.inj hb)) hbc
    · exact (Function.update_of_ne hbx _ _).trans (hI.ringParent b c hb hbc)
  · rw [setHome_home] at hb
    split_ifs at hb with hbx
    · rw [hbx]
      exact hlarge
    · exact hI.large b c hb
  · rw [setHome_home] at hb
    split_ifs at hb
    exact hI.small b i hb
  · rw [setHome_home] at hb
    split_ifs at hb with hbx
    exact (Function.update_of_ne hbx _ _).trans (hI.rest b hb hlarge)

/-- **A new block of a ring.** -/
theorem Indexed.join (hI : Indexed v G T) (hx : G.home x = .null) (hk : k < 64)
    (hb : b ∈ members (T k)) (hsize : v.size b = v.size x) :
    Indexed (((((v.setPrev (v.next (.block b)) (.block x)).setNext (.block b)
        (.block x)).setNext (.block x) (v.next (.block b))).setPrev (.block x)
        (.block b)).setParent x .null)
      (G.put x (.block b) (x :: G.list (.block b))) T := by
  have hhome := hI.home_of_mem hk hb
  have hhead : G.IsHead (.block b) := hhome
  have hbx : b ≠ x := by
    rintro rfl
    rw [hx] at hhome
    cases hhome
  have hnx : v.next (.block b) ≠ .block x := by
    intro heq
    have hown := hI.rings.owner_eq hhead (hI.rings.next_mem hhead)
    rw [heq] at hown
    exact absurd (hx.symm.trans hown) nofun
  have hrings : Rings (((((v.setPrev (v.next (.block b)) (.block x)).setNext (.block b)
        (.block x)).setNext (.block x) (v.next (.block b))).setPrev (.block x)
        (.block b)).setParent x .null) (G.put x (.block b) (x :: G.list (.block b))) := by
    apply hI.rings.insertAfter_update hx hhead
    · exact Function.update_comm (fun heq => hbx (Ptr.block.inj heq)) _ _ v.next
    · exact Function.update_comm hnx _ _ v.prev
  have hxn : G.home x ≠ .block x := by
    rw [hx]
    exact nofun
  have hparent {c : ℕ} (hc : c ≠ x) : Function.update v.parent x .null c = v.parent c :=
    Function.update_of_ne hc _ _
  refine ⟨hrings, fun j hj => ?_, hI.digital, fun c => ?_, hI.bitmap, fun c d hc => ?_,
    fun c d hc hcd => ?_, fun c d hc => ?_, fun c i hc => ?_, fun c hc hlarge => ?_, hI.restCount⟩
  · refine (hI.stored j hj).congr rfl (fun c hc => hparent ?_) fun _ _ _ => rfl
    rintro rfl
    exact hI.notMem hxn hj hc
  · rw [put_home, ← hI.nodes]
    split_ifs with hc
    · subst hc
      exact iff_of_false (fun heq => hbx (Ptr.block.inj heq)) hxn
    · rfl
  · rw [put_home] at hc
    split_ifs at hc with hcx
    · rw [hcx, ← Ptr.block.inj hc]
      exact hsize.symm
    · exact hI.ringSize c d hc
  · rw [put_home] at hc
    split_ifs at hc with hcx
    · rw [hcx]
      exact Function.update_self _ _ _
    · exact (hparent hcx).trans (hI.ringParent c d hc hcd)
  · rw [put_home] at hc
    split_ifs at hc with hcx
    · have hlarge := hI.large b b hhome
      rw [hsize] at hlarge
      rwa [hcx]
    · exact hI.large c d hc
  · rw [put_home] at hc
    split_ifs at hc
    exact hI.small c i hc
  · rw [put_home] at hc
    split_ifs at hc with hcx
    exact (hparent hcx).trans (hI.rest c hc hlarge)

/-- **A large block comes into the tree of its highest bit.** -/
theorem Indexed.addLarge (hI : Indexed h.view G T) (hx : G.home x = .null)
    (hlarge : ¬ SmallSize (h.view.size x)) (hsize : h.view.size x < 2 ^ 64) :
    ∃ h' G' T', h.addLarge x = some h' ∧ Indexed h'.view G' T' ∧ Added G G' x ∧
      h'.view.size = h.view.size := by
  obtain ⟨h₁, e₁, v₁⟩ := FreeLists.write_view (h := h) (s := .child x false) trivial .null
  obtain ⟨h₂, e₂, v₂⟩ := FreeLists.write_view (h := h₁) (s := .child x true) trivial .null
  obtain ⟨hI₂, hxc⟩ := hI.clearChildren hx
  rw [← v₁, ← v₂] at hI₂ hxc
  have hsizes : h₂.view.size = h.view.size := by
    rw [v₂, v₁]
    rfl
  have hpos : h₂.view.size x ≠ 0 := by
    intro heq
    rw [← hsizes, heq] at hlarge
    exact hlarge (Nat.succ_pos _)
  have hxn : G.home x ≠ .block x := by
    rw [hx]
    exact nofun
  rw [← hsizes] at hlarge hsize
  have hdiv := div_of_log2 hpos
  have hk : Nat.log2 (h₂.view.size x) < 64 := (Nat.log2_lt hpos).mpr hsize
  obtain ⟨k, hkx⟩ : ∃ k, Nat.log2 (h₂.view.size x) = k := ⟨_, rfl⟩
  rw [hkx] at hdiv hk
  have hst := hI₂.stored k hk
  have hd := hI₂.digital k hk
  have hxt := hI₂.notMem hxn hk
  have hstep : h.addLarge x =
      if h₂.read (.bucket k) = .null then do
        let h ← h₂.linkNode x (.bucket k)
        some { h with largeFreeBitmap := h.largeFreeBitmap ||| (1#64 <<< k) }
      else FreeLists.addToTree x (h₂.view.size x) 65 (maskAt (h₂.view.size x) k) (.bucket k) h₂ := by
    rw [FreeLists.addLarge, e₁, Option.bind_eq_bind, Option.bind_some, e₂]
    have hx₂ : (h.mem x).size = h₂.view.size x := congrFun hsizes.symm x
    have hindex : largeBucketIndex (h.mem x).size = k := by
      rw [hx₂]
      exact hkx
    rw [hindex, hx₂]
    rfl
  have hadded : Added G (G.setHome x (.block x)) x := Added.setHome (p := .block x) nofun nofun
  rw [hstep]
  by_cases hnil : T k = nil
  · have hread : h₂.read (.bucket k) = .null := hst.nil_iff.mpr hnil
    obtain ⟨h₃, e₃, v₃⟩ := FreeLists.linkNode_view (h := h₂) (s := .bucket k) trivial x
    have hnode := hI₂.newNode hx hk (Or.inl rfl) (t := node x nil nil)
      (Stored.of_linkNode (fun _ => nofun) hxc)
      (by
        have hempty : IsDigital h₂.view.size k 1 nil := IsDigital.nil
        have hins := hempty.insert hdiv fun b hb => absurd hb List.not_mem_nil
        rwa [insert_nil] at hins)
      (by rw [hnil]; rfl) hlarge (w := h₂.view.largeFreeBitmap ||| (1#64 <<< k))
      fun j hj => getLsbD_set _ hj
    have hbits : h₃.largeFreeBitmap = h₂.view.largeFreeBitmap :=
      congrArg View.largeFreeBitmap v₃
    rw [← v₃, ← hbits] at hnode
    refine ⟨{ h₃ with largeFreeBitmap := h₃.largeFreeBitmap ||| (1#64 <<< k) }, _,
      withTree T k (node x nil nil), ?_, ?_, hadded, ?_⟩
    · rw [if_pos hread, e₃]
      rfl
    · exact hnode
    · have hsize₃ : h₃.view.size = h₂.view.size := by
        rw [v₃]
        rfl
      exact hsize₃.trans hsizes
  · have hread : h₂.read (.bucket k) ≠ .null := mt hst.nil_iff.mp hnil
    have hnext : ∀ b ∈ members (T k), h₂.view.next (.block b) ≠ .null := by
      intro b hb heq
      have hhead : G.IsHead (.block b) := hI₂.home_of_mem hk hb
      have hown := hI₂.rings.owner_eq hhead (hI₂.rings.next_mem hhead)
      rw [heq] at hown
      cases hown
    obtain ⟨h₃, e₃, ⟨hnew, hstored, b, hb, i, -, v₃⟩ | ⟨b, hb, hbx, v₃⟩⟩ :=
      hst.addToTree (n := 65) hnil hd hdiv (le_of_lt hk) hxt hxc hnext (by omega) fun _ _ _ => nofun
    · rw [v₃] at hstored
      have hnode := hI₂.newNode hx hk (Or.inr ⟨b, hb, i, rfl⟩) hstored (hd.insert hdiv hnew)
        (members_insert hd hdiv hnew) hlarge (w := h₂.view.largeFreeBitmap) fun j hj => by
          by_cases hjk : j = k
          · rw [hjk, (hI₂.bitmap k hk).mpr hnil]
            rfl
          · rw [decide_eq_false hjk, Bool.or_false]
      have hview : h₃.view = { h₂.view.linkNode x (.child b i) with
          largeFreeBitmap := h₂.view.largeFreeBitmap } := v₃
      rw [← hview] at hnode
      refine ⟨h₃, _, _, ?_, hnode, hadded, ?_⟩
      · rw [if_neg hread]
        exact e₃
      · rw [v₃]
        exact hsizes
    · have hjoin := hI₂.join hx hk hb hbx
      rw [← v₃] at hjoin
      refine ⟨h₃, _, _, ?_, hjoin, Added.put (p := .block b) nofun nofun _, ?_⟩
      · rw [if_neg hread]
        exact e₃
      · rw [v₃]
        exact hsizes

/-- **Adding a free block.** -/
theorem Indexed.addToFreeList (hI : Indexed h.view G T) (hx : G.home x = .null)
    (hsize : h.view.size x < 2 ^ 64) :
    ∃ h' G' T', h.addToFreeList x = some h' ∧ Indexed h'.view G' T' ∧ Added G G' x ∧
      h'.view.size = h.view.size := by
  rw [FreeLists.addToFreeList]
  by_cases hsmall : SmallSize (h.view.size x)
  · obtain ⟨h', G', heq, hI', hadd, hsizes⟩ := hI.addSmall hx hsmall
    have hno : ¬¬ SmallSize (h.mem x).size := not_not.mpr hsmall
    rw [if_neg hno]
    exact ⟨h', G', T, heq, hI', hadd, hsizes⟩
  · have hno : ¬ SmallSize (h.mem x).size := hsmall
    rw [if_pos hno]
    exact hI.addLarge hx hsmall hsize

end PhpRuntime.Alloc
