import PhpRuntime.Alloc.NodeRemovals

/-!
# The free lists over runs

Blocks are added to the free lists and removed from them in any order. In between a block that is
not free belongs to somebody else, so it comes back with other contents.
-/

set_option autoImplicit false

namespace PhpRuntime.Alloc

open BinaryTree PhpRuntime.Lib PhpRuntime.Lib.DigitalTree

/-! ## Runs -/

/-- A call. A block that is added comes with what its memory holds. -/
inductive Edit where
  /-- `zend_mm_add_to_free_list` -/
  | add (b : ℕ) (block : Block)
  /-- `zend_mm_remove_from_free_list` -/
  | remove (b : ℕ)

def FreeLists.step (h : FreeLists) : Edit → Option FreeLists
  | .add b block => (h.setBlock b block).addToFreeList b
  | .remove b => h.removeFromFreeList b

def FreeLists.run : FreeLists → List Edit → Option FreeLists
  | h, [] => some h
  | h, e :: edits => do
    let h ← h.step e
    h.run edits

/-- The sizes of the blocks that are free after a call. -/
def Edit.free (free : ℕ → Option ℕ) : Edit → ℕ → Option ℕ
  | .add b block => Function.update free b (some block.size)
  | .remove b => Function.update free b none

def freeAfter : (ℕ → Option ℕ) → List Edit → ℕ → Option ℕ
  | free, [] => free
  | free, e :: edits => freeAfter (e.free free) edits

/-- Only a block that is not free is added and only one that is free is removed. -/
def Edit.Allowed (free : ℕ → Option ℕ) : Edit → Prop
  | .add b block => free b = none ∧ alignedMinHeaderSize ≤ block.size ∧ block.size < 2 ^ 64
  | .remove b => free b ≠ none

def Allowed : (ℕ → Option ℕ) → List Edit → Prop
  | _, [] => True
  | free, e :: edits => e.Allowed free ∧ Allowed (e.free free) edits

/-! ## What holds after a run -/

/-- The trees `T` and the lists of the heap hold the blocks `free`. -/
structure Tries (v : View) (free : ℕ → Option ℕ) (T : ℕ → BinaryTree ℕ) (list : Ptr → List ℕ) :
    Prop where
  size : ∀ b n, free b = some n → v.size b = n
  /-- The links and the children hold the nodes, and each parent is the link that holds the node. -/
  stored : ∀ k < 64, Stored v (.bucket k) (T k)
  parent : ∀ k < 64, ∀ b ∈ members (T k), v.read (v.parent b) = .block b
  highBit : ∀ k < 64, ∀ b ∈ members (T k), highBit (v.size b) = k
  /-- The path to a node is made of the bits of its size below the highest one. -/
  path : ∀ k < 64, ∀ b p, PathTo b p (T k) →
    p.length ≤ k ∧ ∀ i (hi : i < p.length), (v.size b).testBit (k - 1 - i) = p[i]
  nodup : ∀ k < 64, (members (T k)).Nodup
  oneNode : ∀ k < 64, ∀ b ∈ members (T k), ∀ j < 64, ∀ c ∈ members (T j),
    v.size b = v.size c → b = c
  ring : ∀ k < 64, ∀ b ∈ members (T k),
    Ring v.next v.prev (.block b) ((list (.block b)).map .block) ∧ (b :: list (.block b)).Nodup
  member : ∀ k < 64, ∀ b ∈ members (T k), ∀ c ∈ list (.block b),
    v.size c = v.size b ∧ v.parent c = .null
  bitmap : ∀ k < 64, v.largeFreeBitmap.getLsbD k = true ↔ T k ≠ nil
  /-- Every large free block, and no other, is a node or in the ring of one. -/
  large : ∀ b, (∃ n, free b = some n ∧ ¬ SmallSize n) ↔
    ∃ k < 64, ∃ c ∈ members (T k), b = c ∨ b ∈ list (.block c)
  smallRing : ∀ i, Ring v.next v.prev (.smallBucket i) ((list (.smallBucket i)).map .block) ∧
    (list (.smallBucket i)).Nodup
  /-- Every small free block, and no other, is in the list of its size. -/
  small : ∀ b i, (∃ n, free b = some n ∧ SmallSize n ∧ bucketIndex n = i) ↔
    b ∈ list (.smallBucket i)

/-- The blocks `free` are those with a home. -/
structure Holds (v : View) (G : Lists) (T : ℕ → BinaryTree ℕ) (free : ℕ → Option ℕ) : Prop where
  indexed : Indexed v G T
  home : ∀ b, G.home b = .null ↔ free b = none
  notRest : ∀ b, G.home b ≠ .restBucket
  size : ∀ b n, free b = some n → v.size b = n

variable {h : FreeLists} {v : View} {G : Lists} {T : ℕ → BinaryTree ℕ} {free : ℕ → Option ℕ}
  {e : Edit} {b : ℕ}

namespace Holds

theorem free_iff (h : Holds v G T free) (b n : ℕ) :
    free b = some n ↔ G.home b ≠ .null ∧ v.size b = n := by
  have hhome := h.home b
  constructor
  · intro hb
    refine ⟨fun heq => ?_, h.size b n hb⟩
    rw [hhome.mp heq] at hb
    cases hb
  · rintro ⟨hb, hn⟩
    cases hfree : free b with
    | none => exact absurd (hhome.mpr hfree) hb
    | some m => rw [← hn, h.size b m hfree]

theorem tries (h : Holds v G T free) : Tries v free T G.list := by
  have hI := h.indexed
  have hhead {k b : ℕ} (hk : k < 64) (hb : b ∈ members (T k)) : G.IsHead (.block b) :=
    hI.home_of_mem hk hb
  have hmem {b c : ℕ} : c ∈ G.list (.block b) ↔ G.home c = .block b ∧ c ≠ b := by
    rw [hI.rings.mem]
    have hnull : Ptr.block b ≠ .null := nofun
    rw [and_iff_right hnull, Ne, Ptr.block.injEq, eq_comm (a := b)]
  refine ⟨h.size, hI.stored, fun k hk b hb => ((hI.stored k hk).read_parent hb).1,
    fun k hk b hb => hI.log2_eq hk hb, fun k hk b p hp => hp.testBit (hI.digital k hk),
    fun k hk => hI.nodup hk, fun k hk b hb j hj c hc heq => ?_, fun k hk b hb => ⟨?_, ?_⟩,
    fun k hk b hb c hc => ?_, hI.bitmap, fun b => ?_, fun i => ⟨?_, ?_⟩, fun b i => ?_⟩
  · have hkj : k = j := by rw [← hI.log2_eq hk hb, heq, hI.log2_eq hj hc]
    subst hkj
    exact List.inj_on_of_nodup_map (hI.digital k hk).nodup_map hb hc heq
  · exact hI.rings.ring _ (hhead hk hb)
  · rw [List.nodup_cons, hmem]
    exact ⟨fun hno => hno.2 rfl, hI.rings.nodup _⟩
  · obtain ⟨hcb, hne⟩ := hmem.mp hc
    exact ⟨hI.ringSize c b hcb, hI.ringParent c b hcb hne⟩
  · constructor
    · rintro ⟨n, hb, hlarge⟩
      obtain ⟨hhome, hn⟩ := (h.free_iff b n).mp hb
      cases hp : G.home b with
      | null => exact absurd hp hhome
      | smallBucket i => exact absurd (hn ▸ (hI.small b i hp).1) hlarge
      | restBucket => exact absurd hp (h.notRest b)
      | block c =>
        obtain ⟨k, hk, hc⟩ := (hI.nodes c).mp (hI.rings.head b c hp)
        refine ⟨k, hk, c, hc, ?_⟩
        rw [hmem]
        exact (eq_or_ne b c).imp_right fun hne => ⟨hp, hne⟩
    · rintro ⟨k, hk, c, hc, hbc⟩
      have hhome : G.home b = .block c := by
        rcases hbc with rfl | hin
        · exact hI.home_of_mem hk hc
        · exact (hmem.mp hin).1
      refine ⟨v.size b, (h.free_iff b _).mpr ⟨?_, rfl⟩, hI.large b c hhome⟩
      rw [hhome]
      exact nofun
  · exact hI.rings.ring (.smallBucket i) trivial
  · exact hI.rings.nodup _
  · rw [hI.rings.mem]
    constructor
    · rintro ⟨n, hb, hsmall, rfl⟩
      obtain ⟨hhome, rfl⟩ := (h.free_iff b n).mp hb
      refine ⟨?_, nofun, nofun⟩
      cases hp : G.home b with
      | null => exact absurd hp hhome
      | smallBucket i => rw [(hI.small b i hp).2]
      | restBucket => exact absurd hp (h.notRest b)
      | block c => exact absurd hsmall (hI.large b c hp)
    · rintro ⟨hb, -, -⟩
      obtain ⟨hsmall, hindex⟩ := hI.small b i hb
      refine ⟨v.size b, (h.free_iff b _).mpr ⟨?_, rfl⟩, hsmall, hindex⟩
      rw [hb]
      exact nofun

theorem step (hh : Holds h.view G T free) (he : e.Allowed free) :
    ∃ h' G' T', h.step e = some h' ∧ Holds h'.view G' T' (e.free free) := by
  cases e with
  | add b block =>
    obtain ⟨hb, -, hsize⟩ := he
    have hnull := (hh.home b).mpr hb
    have hview := FreeLists.setBlock_view h b block
    have hI : Indexed (h.setBlock b block).view G T := by
      rw [hview]
      refine hh.indexed.unfree hnull (fun c hc => Function.update_of_ne hc _ _)
        (fun c hc => Function.update_of_ne hc _ _) (fun s hs => ?_)
        (fun p hp => Function.update_of_ne hp _ _) (fun p hp => Function.update_of_ne hp _ _) rfl rfl
      exact (Function.update_of_ne (hs true) _ _).trans (Function.update_of_ne (hs false) _ _)
    have hsizes : (h.setBlock b block).view.size = Function.update h.view.size b block.size := by
      rw [hview]
    have hb' : (h.setBlock b block).view.size b = block.size := by
      rw [hsizes, Function.update_self]
    obtain ⟨h', G', T', hadd, hI', hadded, hsame⟩ := hI.addToFreeList hnull (by rwa [hb'])
    refine ⟨h', G', T', hadd, hI', fun c => ?_, fun c => ?_, fun c n hc => ?_⟩
    · rw [Edit.free, Function.update_apply]
      split_ifs with hcb
      · rw [hcb]
        exact iff_of_false hadded.home nofun
      · rw [hadded.other c hcb]
        exact hh.home c
    · by_cases hcb : c = b
      · rw [hcb]
        exact hadded.notRest
      · rw [hadded.other c hcb]
        exact hh.notRest c
    · rw [Edit.free, Function.update_apply] at hc
      rw [hsame, hsizes, Function.update_apply]
      split_ifs at hc ⊢ with hcb
      · exact Option.some.inj hc
      · exact hh.size c n hc
  | remove b =>
    have hb : G.home b ≠ .null := fun heq => he ((hh.home b).mp heq)
    obtain ⟨h', G', T', hremove, hI', hremoved, hsame⟩ := hh.indexed.removeFromFreeList hb
    refine ⟨h', G', T', hremove, hI', fun c => ?_, fun c => ?_, fun c n hc => ?_⟩
    · rw [Edit.free, Function.update_apply]
      split_ifs with hcb
      · rw [hcb]
        exact iff_of_true hremoved.home rfl
      · rw [hremoved.free_iff hcb]
        exact hh.home c
    · by_cases hcb : c = b
      · rw [hcb, hremoved.home]
        exact nofun
      · rcases hremoved.other c hcb with heq | ⟨-, x, hx⟩
        · rw [heq]
          exact hh.notRest c
        · rw [hx]
          exact nofun
    · rw [Edit.free, Function.update_apply] at hc
      rw [hsame]
      split_ifs at hc
      exact hh.size c n hc

theorem run {edits : List Edit} (hh : Holds h.view G T free) (hall : Allowed free edits) :
    ∃ h' G' T', h.run edits = some h' ∧ Holds h'.view G' T' (freeAfter free edits) := by
  induction edits generalizing h G T free with
  | nil => exact ⟨h, G, T, rfl, hh⟩
  | cons e edits ih =>
    obtain ⟨h', G', T', hstep, hh'⟩ := hh.step hall.1
    obtain ⟨h'', G'', T'', hrun, hh''⟩ := ih hh' hall.2
    refine ⟨h'', G'', T'', ?_, hh''⟩
    rw [FreeLists.run, hstep]
    exact hrun

theorem init (mem : ℕ → Block) :
    Holds (FreeLists.init mem).view ⟨fun _ => .null, fun _ => []⟩ (fun _ => nil)
      fun _ => none := by
  refine ⟨⟨⟨fun p b => ?_, fun _ => List.nodup_nil, fun b c hb => (by cases hb), fun p hp => ?_⟩,
    fun _ _ => rfl, fun _ _ => IsDigital.nil, fun b => ?_, fun k _ => ?_, fun b c hb => (by cases hb),
    fun b c hb => (by cases hb), fun b c hb => (by cases hb), fun b i hb => (by cases hb),
    fun b hb => (by cases hb), rfl⟩, fun b => ?_, fun _ => nofun, fun b n hb => (by cases hb)⟩
  · exact iff_of_false List.not_mem_nil fun hno => hno.2.1 hno.1.symm
  · rw [List.map_nil, Ring.nil_iff]
    cases p with
    | null => exact absurd hp not_false
    | block b => cases hp
    | smallBucket i =>
      constructor
      · change Ptr.smallBucket ((i * 2 + 1) / 2) = .smallBucket i
        congr 1
        omega
      · change Ptr.smallBucket (i * 2 / 2) = .smallBucket i
        congr 1
        omega
    | restBucket => exact ⟨rfl, rfl⟩
  · refine iff_of_false nofun ?_
    rintro ⟨k, -, hb⟩
    cases hb
  · refine iff_of_false ?_ fun hno => hno rfl
    change ¬ (0#64).getLsbD k = true
    rw [BitVec.getLsbD_zero]
    exact Bool.false_ne_true
  · exact iff_of_true rfl rfl

end Holds

/-- **The large free trees stay tries.** -/
theorem large_free_trees_stay_tries (mem : ℕ → Block) (edits : List Edit)
    (hall : Allowed (fun _ => none) edits) :
    ∃ h T list, (FreeLists.init mem).run edits = some h ∧
      Tries h.view (freeAfter (fun _ => none) edits) T list := by
  obtain ⟨h, G, T, hrun, hh⟩ := (Holds.init mem).run hall
  exact ⟨h, T, G.list, hrun, hh.tries⟩

def blockOf (size : ℕ) : Block := ⟨size, 0, .null, .null, .null, .null, .null⟩

theorem large_free_trees_stay_tries_five :
    ∃ h T list, (FreeLists.init fun _ => blockOf 0).run
        [.add 0 (blockOf 1024), .add 1 (blockOf 1040), .add 2 (blockOf 1024), .remove 0,
          .remove 2] = some h ∧
      Tries h.view (freeAfter (fun _ => none)
        [.add 0 (blockOf 1024), .add 1 (blockOf 1040), .add 2 (blockOf 1024), .remove 0,
          .remove 2]) T list :=
  large_free_trees_stay_tries _ _
    ⟨⟨rfl, by decide, by decide⟩, ⟨rfl, by decide, by decide⟩, ⟨rfl, by decide, by decide⟩,
      (fun heq => by cases heq), (fun heq => by cases heq), trivial⟩

end PhpRuntime.Alloc
