import PhpRuntime.Alloc.Views
import PhpRuntime.Lib.Ring

/-!
# The rings of the free blocks

Every free block is in one circular list, of which the head is the bucket of a size, the bucket of
the rest blocks, or the node of a tree.
-/

set_option autoImplicit false

namespace PhpRuntime.Alloc

open PhpRuntime.Lib

/-- The lists. `home` is the head of the list that a block is in, and `NULL` for a block that is
not free. The node of a tree is the head of its own list and not one of its members. -/
structure Lists where
  home : ℕ → Ptr
  list : Ptr → List ℕ

namespace Lists

def IsHead (G : Lists) : Ptr → Prop
  | .null => False
  | .block b => G.home b = .block b
  | _ => True

def owner (G : Lists) : Ptr → Ptr
  | .block b => G.home b
  | p => p

def circle (G : Lists) (p : Ptr) : List Ptr := p :: (G.list p).map .block

end Lists

/-- The blocks are linked as the lists say. -/
structure Rings (v : View) (G : Lists) : Prop where
  mem : ∀ p b, b ∈ G.list p ↔ G.home b = p ∧ p ≠ .null ∧ p ≠ .block b
  nodup : ∀ p, (G.list p).Nodup
  head : ∀ b c, G.home b = .block c → G.home c = .block c
  ring : ∀ p, G.IsHead p → Ring v.next v.prev p ((G.list p).map .block)

variable {v v' : View} {G : Lists} {p q y : Ptr} {b x : ℕ}

namespace Rings

theorem block_injective : Function.Injective Ptr.block := fun _ _ h => Ptr.block.inj h

theorem circle_nodup (h : Rings v G) (p : Ptr) : (G.circle p).Nodup := by
  rw [Lists.circle, List.nodup_cons]
  refine ⟨fun hin => ?_, (List.nodup_map_iff block_injective).mpr (h.nodup p)⟩
  obtain ⟨b, hb, rfl⟩ := List.mem_map.mp hin
  exact ((h.mem _ b).mp hb).2.2 rfl

theorem of_eq (h : Rings v G) (hn : v'.next = v.next) (hp : v'.prev = v.prev) : Rings v' G := by
  refine ⟨h.mem, h.nodup, h.head, fun p hhead => ?_⟩
  rw [hn, hp]
  exact h.ring p hhead

theorem owner_eq (h : Rings v G) (hp : G.IsHead p) (hy : y ∈ G.circle p) : G.owner y = p := by
  rcases List.mem_cons.mp hy with rfl | hin
  · cases y with
    | block b => exact hp
    | _ => rfl
  · obtain ⟨b, hb, rfl⟩ := List.mem_map.mp hin
    exact ((h.mem p b).mp hb).1

theorem next_mem (h : Rings v G) (hp : G.IsHead p) : v.next p ∈ G.circle p := (h.ring p hp).next_mem

theorem prev_mem (h : Rings v G) (hp : G.IsHead p) : v.prev p ∈ G.circle p := (h.ring p hp).prev_mem

theorem rotate_mem (h : Rings v G) (hp : G.IsHead p) (hb : b ∈ G.list p) :
    ∃ s t, G.list p = s ++ b :: t ∧
      Ring v.next v.prev (.block b) (t.map .block ++ p :: s.map .block) := by
  obtain ⟨s, t, heq⟩ := List.append_of_mem hb
  refine ⟨s, t, heq, ?_⟩
  have hring := h.ring p hp
  rw [heq, List.map_append, List.map_cons] at hring
  exact Ring.rotate.mp hring

theorem next_mem_of_mem (h : Rings v G) (hp : G.IsHead p) (hb : b ∈ G.list p) :
    v.next (.block b) ∈ G.circle p := by
  obtain ⟨s, t, heq, hring⟩ := h.rotate_mem hp hb
  have hmem := hring.next_mem
  rw [Lists.circle, heq]
  simp only [List.map_append, List.map_cons, List.mem_cons, List.mem_append] at hmem ⊢
  tauto

theorem prev_mem_of_mem (h : Rings v G) (hp : G.IsHead p) (hb : b ∈ G.list p) :
    v.prev (.block b) ∈ G.circle p := by
  obtain ⟨s, t, heq, hring⟩ := h.rotate_mem hp hb
  have hmem := hring.prev_mem
  rw [Lists.circle, heq]
  simp only [List.map_append, List.map_cons, List.mem_cons, List.mem_append] at hmem ⊢
  tauto

theorem isHead_of_home (h : Rings v G) (hb : G.home b = p) (hp : p ≠ .null) : G.IsHead p := by
  cases p with
  | null => exact hp rfl
  | block c => exact h.head b c hb
  | smallBucket i => exact trivial
  | restBucket => exact trivial

theorem ring_other (h : Rings v G) (hp : G.IsHead p) (hq : G.IsHead q) (hpq : q ≠ p)
    (hn : ∀ y, y ∉ G.circle p → G.owner y ≠ .null → v'.next y = v.next y)
    (hp' : ∀ y, y ∉ G.circle p → G.owner y ≠ .null → v'.prev y = v.prev y) :
    Ring v'.next v'.prev q ((G.list q).map .block) := by
  have hout : ∀ y ∈ G.circle q, y ∉ G.circle p ∧ G.owner y ≠ .null := by
    intro y hy
    have howner := h.owner_eq hq hy
    refine ⟨fun hin => hpq (howner.symm.trans (h.owner_eq hp hin)), ?_⟩
    rw [howner]
    rintro rfl
    exact hq
  exact (h.ring q hq).congr (fun y hy => hn y (hout y hy).1 (hout y hy).2)
    fun y hy => hp' y (hout y hy).1 (hout y hy).2

end Rings

/-! ### Changes of one list -/

/-- `x` comes into the list of `p`, which is `l` then. -/
def Lists.put (G : Lists) (x : ℕ) (p : Ptr) (l : List ℕ) : Lists :=
  ⟨Function.update G.home x p, Function.update G.list p l⟩

namespace Rings

variable {l : List ℕ}

theorem put (h : Rings v G) (hx : G.home x = .null) (hp : G.IsHead p)
    (hperm : l.Perm (x :: G.list p)) (hring : Ring v'.next v'.prev p (l.map .block))
    (hn : ∀ y, y ∉ G.circle p → G.owner y ≠ .null → v'.next y = v.next y)
    (hp' : ∀ y, y ∉ G.circle p → G.owner y ≠ .null → v'.prev y = v.prev y) :
    Rings v' (G.put x p l) := by
  have hpx : p ≠ .block x := by
    rintro rfl
    exact absurd (hx.symm.trans hp) nofun
  have hpnull : p ≠ .null := by
    rintro rfl
    exact hp
  have hnotin (q : Ptr) : x ∉ G.list q := by
    intro hin
    obtain ⟨hq, hnull, -⟩ := (h.mem q x).mp hin
    exact hnull (hq.symm.trans hx)
  have hhome (b : ℕ) : (G.put x p l).home b = if b = x then p else G.home b :=
    Function.update_apply _ _ _ _
  have hlist (q : Ptr) : (G.put x p l).list q = if q = p then l else G.list q :=
    Function.update_apply _ _ _ _
  constructor
  · intro q b
    rw [hhome, hlist]
    by_cases hq : q = p
    · subst hq
      rw [if_pos rfl, hperm.mem_iff, List.mem_cons]
      by_cases hb : b = x
      · subst hb
        rw [if_pos rfl]
        exact iff_of_true (Or.inl rfl) ⟨rfl, hpnull, hpx⟩
      · rw [if_neg hb, ← h.mem]
        exact or_iff_right hb
    · rw [if_neg hq]
      by_cases hb : b = x
      · subst hb
        rw [if_pos rfl]
        exact iff_of_false (hnotin q) fun hin => hq hin.1.symm
      · rw [if_neg hb]
        exact h.mem q b
  · intro q
    rw [hlist]
    split_ifs
    · rw [hperm.nodup_iff, List.nodup_cons]
      exact ⟨hnotin p, h.nodup p⟩
    · exact h.nodup q
  · intro b c hb
    have hc : G.home c = .block c := by
      rw [hhome] at hb
      split_ifs at hb
      · subst hb
        exact hp
      · exact h.head b c hb
    have hcx : c ≠ x := by
      rintro rfl
      exact absurd (hx.symm.trans hc) nofun
    rw [hhome, if_neg hcx]
    exact hc
  · intro q hq
    rw [hlist]
    by_cases hqp : q = p
    · subst hqp
      rw [if_pos rfl]
      exact hring
    · rw [if_neg hqp]
      refine h.ring_other hp ?_ hqp hn hp'
      cases q with
      | block c =>
        have hc : (G.put x p l).home c = .block c := hq
        rw [hhome] at hc
        split_ifs at hc
        · exact absurd hc.symm hqp
        · exact hc
      | _ => exact hq

theorem insertAfter (h : Rings v G) (hx : G.home x = .null) (hp : G.IsHead p)
    (hxn : v'.next (.block x) = v.next p) (hxp : v'.prev (.block x) = p)
    (hn : v'.next p = .block x) (hpn : v'.prev (v.next p) = .block x)
    (hn' : ∀ y, y ≠ p → y ≠ .block x → v'.next y = v.next y)
    (hp' : ∀ y, y ≠ v.next p → y ≠ .block x → v'.prev y = v.prev y) :
    Rings v' (G.put x p (x :: G.list p)) := by
  have hout : ∀ y, G.owner y ≠ .null → y ≠ .block x := by
    rintro y hy rfl
    exact hy hx
  have hpnull : p ≠ .null := by
    rintro rfl
    exact hp
  have hin : ∀ y ∈ G.circle p, y ≠ .block x := fun y hy =>
    hout y (by rw [h.owner_eq hp hy]; exact hpnull)
  have hnodup := h.circle_nodup p
  refine h.put hx hp (List.Perm.refl _) ?_ (fun y hy hown => ?_) fun y hy hown => ?_
  · rw [List.map_cons]
    refine (h.ring p hp).insert_after hnodup hxn hxp hn hpn (fun y hy => ?_) fun y hy hne => ?_
    · refine hn' y (fun heq => ?_) (hin y (List.mem_cons_of_mem _ hy))
      exact (List.nodup_cons.mp hnodup).1 (heq ▸ hy)
    · exact hp' y hne (hin y hy)
  · exact hn' y (fun heq => hy (heq ▸ List.mem_cons_self)) (hout y hown)
  · exact hp' y (fun heq => hy (heq ▸ h.next_mem hp)) (hout y hown)

end Rings

/-- `x` goes out of the list of `p`. -/
def Lists.take (G : Lists) (x : ℕ) (p : Ptr) : Lists :=
  ⟨Function.update G.home x .null, Function.update G.list p ((G.list p).erase x)⟩

namespace Rings

/-- **A block is unlinked.** -/
theorem remove (h : Rings v G) (hx : G.home x = p) (hp : p ≠ .null) (hpx : p ≠ .block x)
    (hn : v'.next (v.prev (.block x)) = v.next (.block x))
    (hpn : v'.prev (v.next (.block x)) = v.prev (.block x))
    (hn' : ∀ y, y ≠ v.prev (.block x) → v'.next y = v.next y)
    (hp' : ∀ y, y ≠ v.next (.block x) → v'.prev y = v.prev y) : Rings v' (G.take x p) := by
  have hhead := h.isHead_of_home hx hp
  have hin : x ∈ G.list p := (h.mem p x).mpr ⟨hx, hp, hpx⟩
  have hhome (b : ℕ) : (G.take x p).home b = if b = x then .null else G.home b :=
    Function.update_apply _ _ _ _
  have hlist (q : Ptr) : (G.take x p).list q =
      if q = p then (G.list p).erase x else G.list q := Function.update_apply _ _ _ _
  have hcx (c : ℕ) (hc : G.home c = .block c) : c ≠ x := by
    rintro rfl
    exact hpx (hx.symm.trans hc)
  constructor
  · intro q b
    rw [hhome, hlist]
    by_cases hq : q = p
    · subst hq
      rw [if_pos rfl, (h.nodup q).mem_erase_iff]
      by_cases hb : b = x
      · rw [if_pos hb]
        exact iff_of_false (fun hno => hno.1 hb) fun hno => hp hno.1.symm
      · rw [if_neg hb, ← h.mem]
        exact and_iff_right hb
    · rw [if_neg hq]
      by_cases hb : b = x
      · subst hb
        rw [if_pos rfl]
        refine iff_of_false (fun hno => hq ?_) fun hno => hno.2.1 hno.1.symm
        exact ((h.mem q b).mp hno).1.symm.trans hx
      · rw [if_neg hb]
        exact h.mem q b
  · intro q
    rw [hlist]
    split_ifs
    · exact (h.nodup p).erase x
    · exact h.nodup q
  · intro b c hb
    have hc : G.home c = .block c := by
      rw [hhome] at hb
      split_ifs at hb
      exact h.head b c hb
    rw [hhome, if_neg (hcx c hc)]
    exact hc
  · intro q hq
    have hq' : G.IsHead q := by
      cases q with
      | block c =>
        have hc : (G.take x p).home c = .block c := hq
        rw [hhome] at hc
        split_ifs at hc
        exact hc
      | _ => exact hq
    rw [hlist]
    by_cases hqp : q = p
    · subst hqp
      obtain ⟨s, t, heq⟩ := List.append_of_mem hin
      have hnodup := h.nodup q
      have hcircle := h.circle_nodup q
      have hring := h.ring q hhead
      rw [Lists.circle] at hcircle
      rw [heq] at hnodup hring hcircle
      have hxs : x ∉ s := fun hs => (List.nodup_append.mp hnodup).2.2 x hs x List.mem_cons_self rfl
      rw [if_pos rfl, heq, List.erase_append_right _ hxs, List.erase_cons_head, List.map_append]
      rw [List.map_append, List.map_cons] at hring hcircle
      refine hring.remove ?_ hn hpn (fun y _ hne => hn' y hne) fun y _ hne => hp' y hne
      exact hcircle.sublist ((List.append_sublist_append_left _).mpr
        (List.sublist_cons_self _ _) |>.cons_cons q)
    · rw [if_neg hqp]
      refine h.ring_other hhead hq' hqp (fun y hy _ => hn' y fun heq => hy ?_)
        fun y hy _ => hp' y fun heq => hy ?_
      · rw [heq]
        exact h.prev_mem_of_mem hhead hin
      · rw [heq]
        exact h.next_mem_of_mem hhead hin

end Rings

/-! ### Heads of lists -/

/-- `x` becomes the head of a list, or stops being one. -/
def Lists.setHome (G : Lists) (x : ℕ) (p : Ptr) : Lists := ⟨Function.update G.home x p, G.list⟩

/-- The list of `b` becomes the one of its member `x`. -/
def Lists.behead (G : Lists) (b x : ℕ) : Lists where
  home c := if c = b then .null else if G.home c = .block b then .block x else G.home c
  list := Function.update (Function.update G.list (.block b) []) (.block x)
    ((G.list (.block b)).erase x)

theorem behead_home (c : ℕ) : (G.behead b x).home c =
    if c = b then .null else if G.home c = .block b then .block x else G.home c := rfl

theorem behead_list (q : Ptr) : (G.behead b x).list q =
    if q = .block x then (G.list (.block b)).erase x
    else if q = .block b then [] else G.list q := by
  change Function.update _ _ _ q = _
  rw [Function.update_apply, Function.update_apply]

namespace Rings

theorem list_eq_nil (h : Rings v G) (hx : G.home x = .null) : G.list (.block x) = [] := by
  rw [List.eq_nil_iff_forall_not_mem]
  intro b hb
  have hhead := h.head b x ((h.mem _ b).mp hb).1
  exact absurd (hx.symm.trans hhead) nofun

/-- **A block becomes a head.** -/
theorem newHead (h : Rings v G) (hx : G.home x = .null) (hn : v'.next (.block x) = .block x)
    (hp : v'.prev (.block x) = .block x) (hn' : ∀ y, y ≠ .block x → v'.next y = v.next y)
    (hp' : ∀ y, y ≠ .block x → v'.prev y = v.prev y) : Rings v' (G.setHome x (.block x)) := by
  have hnil := h.list_eq_nil hx
  have hhome (b : ℕ) : (G.setHome x (.block x)).home b = if b = x then .block x else G.home b :=
    Function.update_apply _ _ _ _
  have hnotin (q : Ptr) : x ∉ G.list q := by
    intro hin
    obtain ⟨hq, hnull, -⟩ := (h.mem q x).mp hin
    exact hnull (hq.symm.trans hx)
  constructor
  · intro q b
    change b ∈ G.list q ↔ _
    rw [hhome]
    by_cases hb : b = x
    · subst hb
      rw [if_pos rfl]
      exact iff_of_false (hnotin q) fun hno => hno.2.2 hno.1.symm
    · rw [if_neg hb]
      exact h.mem q b
  · exact h.nodup
  · intro b c hb
    rw [hhome] at hb ⊢
    split_ifs at hb with hbx
    · rw [← Ptr.block.inj hb, if_pos rfl]
    · have hc := h.head b c hb
      split_ifs with hcx
      · rw [hcx]
      · exact hc
  · intro q hq
    change Ring v'.next v'.prev q ((G.list q).map .block)
    by_cases hqx : q = .block x
    · rw [hqx, hnil]
      exact Ring.nil_iff.mpr ⟨hn, hp⟩
    · have hq' : G.IsHead q := by
        cases q with
        | block c =>
          have hc : (G.setHome x (.block x)).home c = .block c := hq
          rw [hhome] at hc
          split_ifs at hc
          · exact absurd hc.symm hqx
          · exact hc
        | _ => exact hq
      have hne : ∀ y ∈ G.circle q, y ≠ .block x := by
        rintro y hy rfl
        have howner := h.owner_eq hq' hy
        rw [show q = .null from howner.symm.trans hx] at hq'
        exact hq'
      exact (h.ring q hq').congr (fun y hy => hn' y (hne y hy)) fun y hy => hp' y (hne y hy)

/-- **A head that is alone goes.** -/
theorem dropHead (h : Rings v G) (hx : G.home x = .block x) (hnil : G.list (.block x) = [])
    (hn : v'.next = v.next) (hp : v'.prev = v.prev) : Rings v' (G.setHome x .null) := by
  have hhome (b : ℕ) : (G.setHome x .null).home b = if b = x then .null else G.home b :=
    Function.update_apply _ _ _ _
  have hnotin (q : Ptr) : x ∉ G.list q := by
    intro hin
    obtain ⟨hq, -, hne⟩ := (h.mem q x).mp hin
    exact hne (hq.symm.trans hx)
  constructor
  · intro q b
    change b ∈ G.list q ↔ _
    rw [hhome]
    by_cases hb : b = x
    · subst hb
      rw [if_pos rfl]
      exact iff_of_false (hnotin q) fun hno => hno.2.1 hno.1.symm
    · rw [if_neg hb]
      exact h.mem q b
  · exact h.nodup
  · intro b c hb
    rw [hhome] at hb ⊢
    split_ifs at hb with hbx
    have hcx : c ≠ x := by
      rintro rfl
      have hin := (h.mem (.block c) b).mpr ⟨hb, nofun, fun heq => hbx (Ptr.block.inj heq).symm⟩
      rw [hnil] at hin
      cases hin
    rw [if_neg hcx]
    exact h.head b c hb
  · intro q hq
    change Ring v'.next v'.prev q ((G.list q).map .block)
    rw [hn, hp]
    apply h.ring
    cases q with
    | block c =>
      have hc : (G.setHome x .null).home c = .block c := hq
      rw [hhome] at hc
      split_ifs at hc
      exact hc
    | _ => exact hq

/-- **A head goes and leaves its list to the member in front of it.** -/
theorem behead (h : Rings v G) (hb : G.home b = .block b) (hx : x ∈ G.list (.block b))
    (hprev : v.prev (.block b) = .block x)
    (hn : v'.next (.block x) = v.next (.block b)) (hp : v'.prev (v.next (.block b)) = .block x)
    (hn' : ∀ y, y ≠ .block x → v'.next y = v.next y)
    (hp' : ∀ y, y ≠ v.next (.block b) → v'.prev y = v.prev y) : Rings v' (G.behead b x) := by
  obtain ⟨hxb, -, hne⟩ := (h.mem _ x).mp hx
  have hbx : x ≠ b := fun heq => hne (congrArg Ptr.block heq).symm
  have hhead : G.IsHead (.block b) := hb
  have hxhead : G.home x ≠ .block x := by
    rw [hxb]
    exact fun heq => hbx (Ptr.block.inj heq).symm
  have hnobody (c : ℕ) : G.home c ≠ .block x := fun hc => hxhead (h.head c x hc)
  constructor
  · intro q c
    rw [behead_home, behead_list]
    by_cases hqx : q = .block x
    · subst hqx
      rw [if_pos rfl, (h.nodup _).mem_erase_iff, h.mem]
      by_cases hc : c = b
      · subst hc
        rw [if_pos rfl]
        exact iff_of_false (fun hno => hno.2.2.2 rfl) fun hno => hno.2.1 hno.1.symm
      · rw [if_neg hc]
        constructor
        · rintro ⟨hcx, hhc, -, -⟩
          rw [if_pos hhc]
          exact ⟨rfl, nofun, fun heq => hcx (Ptr.block.inj heq).symm⟩
        · rintro ⟨hhc, -, hcx⟩
          split_ifs at hhc with hin
          · exact ⟨fun heq => hcx (congrArg Ptr.block heq).symm, hin, nofun,
              fun heq => hc (Ptr.block.inj heq).symm⟩
          · exact absurd hhc (hnobody c)
    · rw [if_neg hqx]
      by_cases hqb : q = .block b
      · subst hqb
        rw [if_pos rfl]
        refine iff_of_false List.not_mem_nil fun hno => ?_
        have hhc := hno.1
        split_ifs at hhc with hc hin
        · exact hqx hhc.symm
        · exact hin hhc
      · rw [if_neg hqb, h.mem]
        by_cases hc : c = b
        · subst hc
          rw [if_pos rfl]
          exact iff_of_false (fun hno => hno.2.2 (hno.1.symm.trans hb)) fun hno =>
            hno.2.1 hno.1.symm
        · rw [if_neg hc]
          by_cases hin : G.home c = .block b
          · rw [if_pos hin]
            exact iff_of_false (fun hno => hqb (hno.1.symm.trans hin)) fun hno => hqx hno.1.symm
          · rw [if_neg hin]
  · intro q
    rw [behead_list]
    split_ifs
    · exact (h.nodup _).erase x
    · exact List.nodup_nil
    · exact h.nodup q
  · intro c d hc
    rw [behead_home] at hc ⊢
    split_ifs at hc with hcb hin
    · rw [← Ptr.block.inj hc, if_neg hbx, if_pos hxb]
    · have hd := h.head c d hc
      have hdb : d ≠ b := by
        rintro rfl
        exact hin hc
      rw [if_neg hdb, if_neg (by rw [hd]; exact fun heq => hdb (Ptr.block.inj heq))]
      exact hd
  · intro q hq
    rw [behead_list]
    by_cases hqx : q = .block x
    · subst hqx
      rw [if_pos rfl]
      obtain ⟨s, t, heq⟩ := List.append_of_mem hx
      have hnodup := h.nodup (.block b)
      have hcircle := h.circle_nodup (.block b)
      have hring := h.ring _ hhead
      rw [Lists.circle] at hcircle
      rw [heq] at hnodup hring hcircle
      have hxs : x ∉ s := fun hs => (List.nodup_append.mp hnodup).2.2 x hs x List.mem_cons_self rfl
      rw [List.map_append, List.map_cons] at hring hcircle
      -- the member is the last one
      have ht : t = [] := by
        have hlast := hring.prev_eq
        rw [hprev] at hlast
        rcases List.eq_nil_or_concat t with rfl | ⟨t, z, rfl⟩
        · rfl
        · rw [List.concat_eq_append, List.map_append, List.map_singleton, ← List.cons_append,
            ← List.append_assoc, List.getLastD_concat] at hlast
          rw [List.concat_eq_append] at hnodup
          have hz : x = z := Ptr.block.inj hlast
          refine absurd (List.nodup_append.mp hnodup).2.1 fun hno => ?_
          exact (List.nodup_cons.mp hno).1 (hz ▸ List.mem_append_right _ List.mem_cons_self)
      subst ht
      rw [heq, List.erase_append_right _ hxs, List.erase_cons_head, List.append_nil]
      have hrot : Ring v.next v.prev (.block x) ([] ++ .block b :: s.map .block) :=
        Ring.rotate.mp hring
      refine hrot.remove ?_ ?_ ?_ (fun y _ hne => hn' y ?_) fun y _ hne => hp' y hne
      · rw [List.nil_append, List.nodup_cons]
        rw [List.nodup_cons, List.nodup_append] at hcircle
        refine ⟨fun hin => ?_, hcircle.2.1⟩
        exact hcircle.2.2.2 _ hin _ List.mem_cons_self rfl
      · rw [hprev]
        exact hn
      · rw [hprev]
        exact hp
      · rwa [hprev] at hne
    · rw [if_neg hqx]
      have hqb : q ≠ .block b := by
        rintro rfl
        have hno : (G.behead b x).home b = .block b := hq
        rw [behead_home, if_pos rfl] at hno
        cases hno
      rw [if_neg hqb]
      have hq' : G.IsHead q := by
        cases q with
        | block c =>
          have hc : (G.behead b x).home c = .block c := hq
          rw [behead_home] at hc
          split_ifs at hc
          · exact absurd hc.symm hqx
          · exact hc
        | _ => exact hq
      refine h.ring_other hhead hq' hqb (fun y hy _ => hn' y fun heq => hy ?_)
        fun y hy _ => hp' y fun heq => hy ?_
      · rw [heq, ← hprev]
        exact h.prev_mem hhead
      · rw [heq]
        exact h.next_mem hhead

end Rings

end PhpRuntime.Alloc
