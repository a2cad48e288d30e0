import Mathlib.Algebra.BigOperators.Group.Finset.Basic
import Mathlib.Algebra.Order.BigOperators.Group.Finset
import Mathlib.Data.Multiset.Count
import Mathlib.Tactic.LinearCombination
import Mathlib.Tactic.Ring
import PhpRuntime.Lib.Walk

/-!
# Trial deletion

Cycle collection by trial deletion, on a graph of counted nodes. From the candidate roots a
first walk (`mark`) colours grey what they reach and takes one off the count of a node for
every edge it follows. A second walk (`scan`) looks at the counts that are left: below a
node with a positive count everything is coloured black and gets its edges back
(`blacken`), the rest is white. A third walk (`collect`) gathers the white nodes and gives
back the edges it follows, too.

The bookkeeping is one sum for each phase: a count together with the edges from the nodes
of a certain colour does not change. `Pinned` nodes are neither counted nor left: they have
no successors here and end up black. Nodes are `listed` when they are put on the list of
garbage; the others only change colour.
-/

set_option autoImplicit false

namespace PhpRuntime.Lib.TrialDeletion

/-- The colours of a node. -/
inductive Color where
  | black
  | white
  | grey
  | purple
deriving DecidableEq, Repr

/-- A graph of counted nodes. -/
structure Graph (V : Type*) where
  succ : V → List V
  pinned : V → Bool
  listed : V → Bool
  leaf : ∀ v, pinned v = true → succ v = []

/-- The colours, the counts, which nodes are entered in the buffer of candidates, and the
list of garbage as far as its order does not matter. -/
structure State (V A : Type*) where
  color : V → Color
  buffered : V → Bool
  rc : V → A
  freed : Multiset V

variable {V A : Type*} [DecidableEq V] [CommRing A]

namespace State

def paint (s : State V A) (v : V) (c : Color) : State V A :=
  { s with color := Function.update s.color v c }

def addRc (s : State V A) (v : V) (d : A) : State V A :=
  { s with rc := Function.update s.rc v (s.rc v + d) }

def unbuffer (s : State V A) (v : V) : State V A :=
  { s with buffered := Function.update s.buffered v false }

def list (s : State V A) (v : V) : State V A := { s.addRc v 1 with freed := v ::ₘ s.freed }

end State

namespace Graph

variable (A) (G : Graph V)

/-- An edge to `v` is taken off its count, or given back. -/
def edge {A : Type*} [CommRing A] (d : A) (v : V) (s : State V A) : State V A :=
  if G.pinned v then s else s.addRc v d

/-- The colour of a node that `mark` is done with. -/
def marked (v : V) : Color := if G.pinned v then .black else .grey

/-- The colour of a node that `scan` finds without a count. -/
def scanned (v : V) : Color := if G.pinned v then .black else .white

def mark : Walk V (State V A) where
  succ := G.succ
  edge := G.edge (-1)
  todo s v := s.color v ≠ G.marked v
  stops _ _ := False
  shortcut _ _ _ := False
  enter v s := s.paint v (G.marked v)

/-- The walk that gives edges back below a node that stays. -/
def blacken : Walk V (State V A) where
  succ := G.succ
  edge := G.edge 1
  todo s v := s.color v ≠ .black
  stops _ _ := False
  shortcut _ _ _ := False
  enter v s := s.paint v .black

def scan : Walk V (State V A) where
  succ := G.succ
  edge _ s := s
  todo s v := s.color v = .grey
  stops s v := s.rc v ≠ 0
  shortcut v s s' := (G.blacken A).Visits (G.succ v) (s.paint v .black) s'
  enter v s := s.paint v (G.scanned v)

def collect : Walk V (State V A) where
  succ := G.succ
  edge v s := if G.listed v then G.edge 1 v s else s
  todo s v := s.color v = .white ∧ s.buffered v = false
  stops _ _ := False
  shortcut _ _ _ := False
  enter v s := if G.listed v then (s.paint v .black).list v else s.paint v .purple

variable {A}

/-- The first walk, from every root of a list that is purple when its turn comes; the other
roots leave the buffer. -/
inductive MarkRoots : List V → State V A → List V → State V A → Prop
  | nil (s : State V A) : MarkRoots [] s [] s
  | mark {r : V} {t kept : List V} {s s₁ s' : State V A} (h : s.color r = .purple)
      (hv : (G.mark A).Visit r s s₁) (ht : MarkRoots t s₁ kept s') :
      MarkRoots (r :: t) s (r :: kept) s'
  | drop {r : V} {t kept : List V} {s s' : State V A} (h : s.color r ≠ .purple)
      (ht : MarkRoots t (s.unbuffer r) kept s') : MarkRoots (r :: t) s kept s'

/-- The second walk, from every root that was kept. -/
inductive ScanRoots : List V → State V A → State V A → Prop
  | nil (s : State V A) : ScanRoots [] s s
  | cons {r : V} {t : List V} {s s₁ s' : State V A} (hv : (G.scan A).Visit r s s₁)
      (ht : ScanRoots t s₁ s') : ScanRoots (r :: t) s s'

/-- The third walk, from every root that was kept; each root leaves the buffer first. -/
inductive CollectRoots : List V → State V A → State V A → Prop
  | nil (s : State V A) : CollectRoots [] s s
  | cons {r : V} {t : List V} {s s₁ s' : State V A} (hv : (G.collect A).Visit r (s.unbuffer r) s₁)
      (ht : CollectRoots t s₁ s') : CollectRoots (r :: t) s s'

/-- `n` can be reached along successors. -/
abbrev Reach : V → V → Prop := Relation.ReflTransGen fun a b => b ∈ G.succ a

/-- How many edges into `x` come from the nodes of `M` with a property. -/
def edgesFrom {A : Type*} [CommRing A] (M : Finset V) (p : V → Bool) (x : V) : A :=
  ∑ n ∈ M, if p n then ((G.succ n).count x : A) else 0

end Graph

variable {G : Graph V} {M : Finset V} {s s' : State V A} {v x : V} {l : List V}

/-! ## The sums -/

section Sums

variable {p q : V → Bool}

theorem edgesFrom_congr (h : ∀ n ∈ M, p n = q n) :
    (G.edgesFrom M p x : A) = G.edgesFrom M q x :=
  Finset.sum_congr rfl fun n hn => by simp only [h n hn]

theorem edgesFrom_insert (hv : v ∈ M) (hq : ∀ n ∈ M, n ≠ v → q n = p n) (hp : p v = false)
    (hqv : q v = true) :
    (G.edgesFrom M q x : A) = G.edgesFrom M p x + ((G.succ v).count x : A) := by
  unfold Graph.edgesFrom
  rw [← Finset.add_sum_erase M _ hv, ← Finset.add_sum_erase M (fun n => if p n then _ else _) hv,
    if_pos hqv, hp, if_neg (by simp), zero_add, add_comm]
  congr 1
  refine Finset.sum_congr rfl fun n hn => ?_
  rw [Finset.mem_erase] at hn
  simp only [hq n hn.2 hn.1]

theorem exists_of_edgesFrom_ne_zero (h : (G.edgesFrom M p x : A) ≠ 0) :
    ∃ n ∈ M, p n ∧ x ∈ G.succ n := by
  by_contra hc
  push Not at hc
  apply h
  apply Finset.sum_eq_zero
  intro n hn
  split
  · rename_i hpn
    simp [List.count_eq_zero.mpr (hc n hn hpn)]
  · rfl

end Sums

theorem sum_map_ite (d : A) (l : List V) (x : V) :
    (l.map fun c => if c = x then d else 0).sum = d * (l.count x : A) := by
  induction l with
  | nil => simp
  | cons c t ih =>
    rw [List.map_cons, List.sum_cons, ih, List.count_cons]
    by_cases h : c = x
    · simp only [h, if_true, beq_self_eq_true, Nat.cast_add, Nat.cast_one]
      ring
    · simp [h]

theorem edge_rc (d : A) (hx : G.pinned x = false) :
    (G.edge d v s).rc x = s.rc x + if v = x then d else 0 := by
  unfold Graph.edge
  by_cases hv : v = x
  · subst hv
    simp [hx, State.addRc]
  · split
    · simp
    · simp [State.addRc, Function.update_of_ne (Ne.symm hv)]

theorem edge_rc_pinned (d : A) (hx : G.pinned x = true) : (G.edge d v s).rc x = s.rc x := by
  unfold Graph.edge
  split
  · rfl
  · rename_i hv
    have hxv : x ≠ v := fun hxv => hv (hxv ▸ hx)
    simp [State.addRc, Function.update_of_ne hxv]

@[simp] theorem edge_color (d : A) (v : V) (s : State V A) : (G.edge d v s).color = s.color := by
  unfold Graph.edge
  split <;> rfl

@[simp] theorem edge_buffered (d : A) (v : V) (s : State V A) :
    (G.edge d v s).buffered = s.buffered := by
  unfold Graph.edge
  split <;> rfl

@[simp] theorem edge_freed (d : A) (v : V) (s : State V A) : (G.edge d v s).freed = s.freed := by
  unfold Graph.edge
  split <;> rfl

section

omit [CommRing A]

@[simp] theorem paint_rc (s : State V A) (v : V) (c : Color) : (s.paint v c).rc = s.rc := rfl

@[simp] theorem paint_buffered (s : State V A) (v : V) (c : Color) :
    (s.paint v c).buffered = s.buffered := rfl

@[simp] theorem paint_freed (s : State V A) (v : V) (c : Color) : (s.paint v c).freed = s.freed := rfl

theorem paint_color (s : State V A) (v : V) (c : Color) (n : V) :
    (s.paint v c).color n = if n = v then c else s.color n := Function.update_apply ..

@[simp] theorem paint_paint (s : State V A) (v : V) (c d : Color) :
    (s.paint v c).paint v d = s.paint v d := by
  simp [State.paint]

theorem paint_eq_self {c : Color} (h : s.color v = c) : s.paint v c = s := by
  subst h
  simp [State.paint]

end

/-! ## The first walk -/

theorem mark_finishes : (G.mark A).Finishes where
  edge v s n h := by simpa [Graph.mark] using h
  shortcut _ _ _ _ _ h := h.elim
  enter v s n _ h := by
    simp only [Graph.mark, not_not, paint_color] at h ⊢
    split
    · rename_i hn; rw [hn]
    · exact h
  self v s _ := by simp [Graph.mark, paint_color]
  only v s n h h' := by
    by_contra hn
    simp only [Graph.mark, paint_color, if_neg hn] at h h'
    exact h' h
  edge_todo v s n h := by simpa [Graph.mark] using h
  shortcut_self _ _ _ _ h := h.elim
  shortcut_closed _ _ _ _ _ h := h.elim

omit [DecidableEq V] in
theorem marked_grey_iff (hv : G.pinned v = false) : G.marked v = .grey := by
  simp [Graph.marked, hv]

theorem mark_balances (hM : ∀ v ∈ M, ∀ c ∈ G.succ v, c ∈ M) (hx : G.pinned x = false) :
    (G.mark A).Balances (· ∈ M) (fun s => s.rc x + G.edgesFrom M (fun n => s.color n == .grey) x)
      (fun v => if v = x then (-1 : A) else 0) where
  closed := hM
  edge v s _ := by
    simp only [Graph.mark, edge_rc (-1 : A) hx, edge_color]
    ring
  shortcut _ _ _ _ _ h := h.elim
  enter v s hv h := by
    simp only [Graph.mark, paint_rc, sum_map_ite]
    by_cases hp : G.pinned v = true
    · have hc : (G.edgesFrom M (fun n => (s.paint v (G.marked v)).color n == .grey) x : A) =
          G.edgesFrom M (fun n => s.color n == .grey) x := by
        refine Finset.sum_congr rfl fun n _ => ?_
        by_cases hn : n = v
        · simp [hn, G.leaf v hp]
        · simp only [paint_color, if_neg hn]
      rw [hc, G.leaf v hp]
      simp
    · have hm : G.marked v = .grey := marked_grey_iff (by simpa using hp)
      have hng : s.color v ≠ .grey := fun hg => h (by rw [hg, hm])
      rw [edgesFrom_insert (p := fun n => s.color n == .grey) hv
        (fun n _ hn => by rw [paint_color, if_neg hn]) (by simpa using hng)
        (by simp [paint_color, hm])]
      ring

/-- What `mark` leaves alone, at a node `x`. -/
structure MarkFrame (G : Graph V) (M : Finset V) (x : V) (s s' : State V A) : Prop where
  freed : s'.freed = s.freed
  pinned : G.pinned x = true → s'.rc x = s.rc x
  color : s'.color x = s.color x ∨ s'.color x = G.marked x
  outside : x ∉ M → s'.color x = s.color x

omit [DecidableEq V] [CommRing A] in
theorem MarkFrame.trans {s₁ : State V A} (h1 : MarkFrame G M x s s₁)
    (h2 : MarkFrame G M x s₁ s') : MarkFrame G M x s s' where
  freed := h2.freed.trans h1.freed
  pinned hp := (h2.pinned hp).trans (h1.pinned hp)
  color := by
    rcases h2.color with h | h
    · rw [h]; exact h1.color
    · exact Or.inr h
  outside hx := (h2.outside hx).trans (h1.outside hx)

theorem mark_preserves (hM : ∀ v ∈ M, ∀ c ∈ G.succ v, c ∈ M) (x : V) :
    (G.mark A).Preserves (· ∈ M) fun s s' => s'.buffered = s.buffered ∧ MarkFrame G M x s s' where
  closed := hM
  refl s := ⟨rfl, rfl, fun _ => rfl, Or.inl rfl, fun _ => rfl⟩
  trans h1 h2 := ⟨h2.1.trans h1.1, h1.2.trans h2.2⟩
  edge v s _ := by
    refine ⟨edge_buffered .., edge_freed .., fun hp => edge_rc_pinned _ hp, Or.inl ?_, fun _ => ?_⟩
    · simp [Graph.mark]
    · simp [Graph.mark]
  shortcut _ _ _ _ _ h := h.elim
  enter v s hv _ _ := by
    refine ⟨rfl, rfl, fun _ => rfl, ?_, fun hx => ?_⟩ <;> simp only [Graph.mark, paint_color]
    · split
      · rename_i hx; exact Or.inr (by rw [hx])
      · exact Or.inl rfl
    · rw [if_neg (fun hxv : x = v => hx (hxv ▸ hv))]

/-- What the walks of `mark` from a list of roots do. -/
structure MarkSpec (G : Graph V) (M : Finset V) (l : List V) (s : State V A) (kept : List V)
    (s' : State V A) : Prop where
  sublist : kept.Sublist l
  frame : ∀ x, MarkFrame G M x s s'
  buffered : ∀ x, s'.buffered x = (s.buffered x && (decide (x ∉ l) || decide (x ∈ kept)))
  sum : ∀ x, G.pinned x = false → s'.rc x + G.edgesFrom M (fun n => s'.color n == .grey) x =
    s.rc x + G.edgesFrom M (fun n => s.color n == .grey) x
  mono : ∀ n, s.color n = G.marked n → s'.color n = G.marked n
  closed : ∀ n, s.color n ≠ G.marked n → s'.color n = G.marked n →
    (∃ k ∈ kept, G.Reach k n) ∧ ∀ c ∈ G.succ n, s'.color c = G.marked c
  roots : ∀ r ∈ l, s.color r = .purple → s'.color r = G.marked r
  purple : ∀ r ∈ kept, s.color r = .purple

omit [DecidableEq V] in
theorem marked_ne_purple : G.marked v ≠ .purple := by
  unfold Graph.marked
  split <;> simp

theorem MarkRoots.spec (hM : ∀ v ∈ M, ∀ c ∈ G.succ v, c ∈ M) {kept : List V}
    (h : G.MarkRoots l s kept s') (hl : ∀ r ∈ l, s.color r = .purple → r ∈ M) (hnd : l.Nodup) :
    MarkSpec G M l s kept s' := by
  induction h with
  | nil s =>
    exact ⟨.slnil, fun x => ⟨rfl, fun _ => rfl, Or.inl rfl, fun _ => rfl⟩, by simp,
      fun _ _ => rfl, fun _ h => h, fun n h h' => absurd h' h, by simp, by simp⟩
  | @mark r t kept s s₁ s' hr hv _ ih =>
    have hrM := hl r (by simp) hr
    obtain ⟨hrt, hnd⟩ := List.nodup_cons.mp hnd
    have hf := fun x => (mark_preserves hM x).visit hv hrM
    have hfin : (G.mark A).Finishes := mark_finishes
    have hmono : ∀ n, s.color n = G.marked n → s₁.color n = G.marked n := fun n hn => by
      simpa [Graph.mark] using hfin.visit_mono hv n (by simpa [Graph.mark] using hn)
    have ih := ih (fun r' hr' hp => by
      rcases (hf r').2.color with h | h
      · exact hl r' (by simp [hr']) (h ▸ hp)
      · exact absurd (h.symm.trans hp) marked_ne_purple) hnd
    have hrkept : r ∉ kept := fun hk => hrt (ih.sublist.subset hk)
    refine ⟨ih.sublist.cons_cons r, fun x => (hf x).2.trans (ih.frame x), fun x => ?_, fun x hx => ?_,
      fun n hn => ih.mono n (hmono n hn), fun n hn hn' => ?_, fun r' hr' hp => ?_,
      fun r' hr' => ?_⟩
    · rw [ih.buffered x, (hf x).1]
      by_cases hxr : x = r
      · subst hxr; simp [hrt]
      · simp [hxr]
    · rw [ih.sum x hx]
      exact (mark_balances hM hx).visit hv hrM
    · by_cases hn₁ : s₁.color n = G.marked n
      · have hcl := hfin.visit_closed hv (n := n) hn (by simpa [Graph.mark] using hn₁)
        refine ⟨⟨r, by simp, hcl.1⟩, fun c hc => ih.mono c ?_⟩
        simpa [Graph.mark] using hcl.2 c hc
      · obtain ⟨⟨k, hk, hr⟩, hcl⟩ := ih.closed n hn₁ hn'
        exact ⟨⟨k, by simp [hk], hr⟩, hcl⟩
    · rcases List.mem_cons.mp hr' with rfl | hr'
      · refine ih.mono r' ?_
        simpa [Graph.mark] using hfin.visit_self hv
      · rcases (hf r').2.color with h | h
        · exact ih.roots r' hr' (h.trans hp)
        · exact ih.mono r' h
    · cases List.mem_cons.mp hr' with
      | inl hr' => exact hr' ▸ hr
      | inr hr' =>
        have hp := ih.purple r' hr'
        cases (hf r').2.color with
        | inl h => exact h ▸ hp
        | inr h => exact absurd (h.symm.trans hp) marked_ne_purple
  | @drop r t kept s s' hr _ ih =>
    obtain ⟨hrt, hnd⟩ := List.nodup_cons.mp hnd
    have ih := ih (fun r' hr' hp => hl r' (by simp [hr']) hp) hnd
    have hrkept : r ∉ kept := fun hk => hrt (ih.sublist.subset hk)
    refine ⟨ih.sublist.cons r, fun x => ⟨(ih.frame x).freed, (ih.frame x).pinned,
      (ih.frame x).color, (ih.frame x).outside⟩, fun x => ?_, ih.sum, ih.mono, ih.closed,
      fun r' hr' hp => ?_, ih.purple⟩
    · rw [ih.buffered x]
      by_cases hxr : x = r
      · subst hxr; simp [State.unbuffer, hrkept]
      · simp [State.unbuffer, hxr]
    · rcases List.mem_cons.mp hr' with rfl | hr'
      · exact absurd hp hr
      · exact ih.roots r' hr' hp

/-! ## The second walk -/

theorem blacken_finishes : (G.blacken A).Finishes where
  edge v s n h := by simpa [Graph.blacken] using h
  shortcut _ _ _ _ _ h := h.elim
  enter v s n _ h := by
    simp only [Graph.blacken, not_not, paint_color] at h ⊢
    split
    · rfl
    · exact h
  self v s _ := by simp [Graph.blacken, paint_color]
  only v s n h h' := by
    by_contra hn
    simp only [Graph.blacken, paint_color, if_neg hn] at h h'
    exact h' h
  edge_todo v s n h := by simpa [Graph.blacken] using h
  shortcut_self _ _ _ _ h := h.elim
  shortcut_closed _ _ _ _ _ h := h.elim

theorem blacken_balances (hM : ∀ v ∈ M, ∀ c ∈ G.succ v, c ∈ M) (hx : G.pinned x = false) :
    (G.blacken A).Balances (· ∈ M) (fun s => s.rc x - G.edgesFrom M (fun n => s.color n == .black) x)
      (fun v => if v = x then (1 : A) else 0) where
  closed := hM
  edge v s _ := by
    simp only [Graph.blacken, edge_rc (1 : A) hx, edge_color]
    ring
  shortcut _ _ _ _ _ h := h.elim
  enter v s hv h := by
    simp only [Graph.blacken, paint_rc, sum_map_ite]
    rw [edgesFrom_insert (p := fun n => s.color n == .black) hv
      (fun n _ hn => by rw [paint_color, if_neg hn]) (by simpa [Graph.blacken] using h)
      (by simp [paint_color])]
    ring

/-- What `scan` and `blacken` leave alone, at a node `x`. -/
structure ScanFrame (G : Graph V) (M : Finset V) (x : V) (s s' : State V A) : Prop where
  buffered : s'.buffered = s.buffered
  freed : s'.freed = s.freed
  pinned : G.pinned x = true → s'.rc x = s.rc x
  outside : x ∉ M → s'.color x = s.color x

omit [DecidableEq V] [CommRing A] in
theorem ScanFrame.refl (s : State V A) : ScanFrame G M x s s := ⟨rfl, rfl, fun _ => rfl, fun _ => rfl⟩

omit [DecidableEq V] [CommRing A] in
theorem ScanFrame.trans {s₁ : State V A} (h1 : ScanFrame G M x s s₁)
    (h2 : ScanFrame G M x s₁ s') : ScanFrame G M x s s' where
  buffered := h2.buffered.trans h1.buffered
  freed := h2.freed.trans h1.freed
  pinned hp := (h2.pinned hp).trans (h1.pinned hp)
  outside hx := (h2.outside hx).trans (h1.outside hx)

omit [CommRing A] in
theorem ScanFrame.paint (hv : v ∈ M) (c : Color) : ScanFrame G M x s (s.paint v c) :=
  ⟨rfl, rfl, fun _ => rfl, fun hx => by
    rw [paint_color, if_neg (fun hxv : x = v => hx (hxv ▸ hv))]⟩

theorem blacken_preserves (hM : ∀ v ∈ M, ∀ c ∈ G.succ v, c ∈ M) (x : V) :
    (G.blacken A).Preserves (· ∈ M) fun s s' =>
      ScanFrame G M x s s' ∧ (s'.color x = s.color x ∨ s'.color x = .black) where
  closed := hM
  refl s := ⟨.refl s, Or.inl rfl⟩
  trans h1 h2 := by
    refine ⟨h1.1.trans h2.1, ?_⟩
    rcases h2.2 with h | h
    · rw [h]; exact h1.2
    · exact Or.inr h
  edge v s _ := ⟨⟨edge_buffered .., edge_freed .., fun hp => edge_rc_pinned _ hp,
    fun _ => by simp [Graph.blacken]⟩, Or.inl (by simp [Graph.blacken])⟩
  shortcut _ _ _ _ _ h := h.elim
  enter v s hv _ _ := by
    refine ⟨.paint hv _, ?_⟩
    simp only [Graph.blacken, paint_color]
    split
    · exact Or.inr rfl
    · exact Or.inl rfl

/-- The shortcut of `scan` at a node `v`: `v` and what it reaches turn black. -/
structure Blackens (G : Graph V) (v : V) (s s' : State V A) : Prop where
  self : s'.color v = .black
  color : ∀ n, s'.color n = s.color n ∨ s'.color n = .black
  closed : ∀ n, s.color n ≠ .black → s'.color n = .black →
    G.Reach v n ∧ ∀ c ∈ G.succ n, s'.color c = .black

theorem blackens_of_visits
    (h : (G.blacken A).Visits (G.succ v) (s.paint v .black) s') : Blackens G v s s' := by
  have hfin : (G.blacken A).Finishes := blacken_finishes
  have hcol : ∀ n, s'.color n = (s.paint v .black).color n ∨ s'.color n = .black := fun n => by
    by_cases hn : s'.color n = .black
    · exact Or.inr hn
    · left
      have hpres : (G.blacken A).Preserves (fun _ => True) fun s s' =>
          s'.color n = s.color n ∨ s'.color n = .black := by
        refine ⟨fun _ _ _ _ => trivial, fun _ => Or.inl rfl, ?_, fun v s _ => Or.inl ?_,
          fun _ _ _ _ _ h => h.elim, fun v s _ _ _ => ?_⟩
        · rintro s₁ s₂ s₃ h1 (h2 | h2)
          · rw [h2]; exact h1
          · exact Or.inr h2
        · simp [Graph.blacken]
        · simp only [Graph.blacken, paint_color]
          split
          · exact Or.inr rfl
          · exact Or.inl rfl
      exact (hpres.visits h fun _ _ => trivial).resolve_right hn
  have hself : s'.color v = .black := by
    have := hfin.visits_mono h v (by simp [Graph.blacken, paint_color])
    simpa [Graph.blacken] using this
  refine ⟨hself, fun n => ?_, fun n hn hn' => ?_⟩
  · rcases hcol n with hc | hc
    · rw [paint_color] at hc
      split at hc
      · exact Or.inr hc
      · exact Or.inl hc
    · exact Or.inr hc
  · by_cases hnv : n = v
    · subst hnv
      exact ⟨.refl, fun c hc => by simpa [Graph.blacken] using hfin.visits_self h c hc⟩
    · have htodo : (G.blacken A).todo (s.paint v .black) n := by
        simpa [Graph.blacken, paint_color, hnv] using hn
      obtain ⟨⟨c, hc, hr⟩, hcl⟩ := hfin.visits_closed h n htodo (by simpa [Graph.blacken] using hn')
      exact ⟨hr.head hc, fun c hc => by simpa [Graph.blacken] using hcl c hc⟩

omit [DecidableEq V] in
theorem scanned_ne_grey : G.scanned v ≠ .grey := by
  unfold Graph.scanned
  split <;> simp

theorem scan_finishes : (G.scan A).Finishes where
  edge v s n h := h
  shortcut v s s' n _ _ hv h := by
    rcases (blackens_of_visits hv).color n with hc | hc <;> simp only [Graph.scan, hc] at h ⊢
    · exact h
    · simp
  enter v s n _ h := by
    simp only [Graph.scan, paint_color] at h ⊢
    split
    · exact scanned_ne_grey
    · exact h
  self v s _ := by
    simp only [Graph.scan, paint_color]
    exact scanned_ne_grey
  only v s n h h' := by
    by_contra hn
    simp only [Graph.scan, paint_color, if_neg hn] at h h'
    exact h' h
  edge_todo v s n h := h
  shortcut_self v s s' _ _ hv := by simp [Graph.scan, (blackens_of_visits hv).self]
  shortcut_closed v s s' n _ _ hv h h' := by
    have hb := blackens_of_visits hv
    have hblack : s'.color n = .black := (hb.color n).resolve_left fun hc => h' (hc.trans h)
    have hn : s.color n ≠ .black := by
      rw [show s.color n = .grey from h]; simp
    obtain ⟨hr, hcl⟩ := hb.closed n hn hblack
    exact ⟨hr, fun c hc => by simp [Graph.scan, hcl c hc]⟩

/-- The invariant of the second walk; `e` is what the first walk left of the counts. -/
structure ScanInv (G : Graph V) (M : Finset V) (e : V → A) (s : State V A) : Prop where
  color : ∀ n ∈ M, s.color n ≠ .purple
  grey : ∀ n ∈ M, s.color n = .grey → G.pinned n = false
  black : ∀ n ∈ M, s.color n = .black → ∀ c ∈ G.succ n, s.color c = .black
  sum : ∀ x, G.pinned x = false →
    s.rc x = e x + G.edgesFrom M (fun n => s.color n == .black) x
  live : ∀ n ∈ M, s.color n = .black →
    G.pinned n = true ∨ ∃ y ∈ M, G.pinned y = false ∧ e y ≠ 0 ∧ G.Reach y n
  white : ∀ n ∈ M, s.color n = .white → G.pinned n = false ∧ e n = 0
  pinned : ∀ n ∈ M, G.pinned n = true → s.color n = .black

theorem ScanInv.grey_rc {e : V → A} (h : ScanInv G M e s) (hv : v ∈ M) (hg : s.color v = .grey) :
    s.rc v = e v := by
  rw [h.sum v (h.grey v hv hg)]
  by_contra hne
  have hpos : (G.edgesFrom M (fun n => s.color n == .black) v : A) ≠ 0 := fun h0 => by
    rw [h0, add_zero] at hne
    exact hne rfl
  obtain ⟨n, hn, hnb, hnv⟩ := exists_of_edgesFrom_ne_zero hpos
  have hb := h.black n hn (by simpa using hnb) v hnv
  rw [hg] at hb
  simp at hb

theorem ScanInv.whiten {e : V → A} (h : ScanInv G M e s) (hv : v ∈ M) (hg : s.color v = .grey)
    (hrc : s.rc v = 0) : ScanInv G M e (s.paint v .white) := by
  have hp := h.grey v hv hg
  have hsame : ∀ n, (s.paint v .white).color n = .black ↔ s.color n = .black := fun n => by
    rw [paint_color]
    split
    · rename_i hnv; simp [hnv, hg]
    · rfl
  refine ⟨fun n hn => ?_, fun n hn hng => ?_, fun n hn hb c hc => ?_, fun x hx => ?_,
    fun n hn hb => h.live n hn ((hsame n).mp hb), fun n hn hw => ?_, fun n hn hpn => ?_⟩
  · rw [paint_color]
    split
    · simp
    · exact h.color n hn
  · rw [paint_color] at hng
    split at hng
    · simp at hng
    · exact h.grey n hn hng
  · exact (hsame c).mpr (h.black n hn ((hsame n).mp hb) c hc)
  · have hsame' : ∀ n ∈ M, ((s.paint v .white).color n == .black) = (s.color n == .black) :=
      fun n _ => by rw [Bool.eq_iff_iff, beq_iff_eq, beq_iff_eq, hsame]
    rw [paint_rc, h.sum x hx, edgesFrom_congr hsame']
  · rw [paint_color] at hw
    split at hw
    · rename_i hnv; subst hnv; exact ⟨hp, (h.grey_rc hv hg).symm.trans hrc⟩
    · exact h.white n hn hw
  · exact (hsame n).mpr (h.pinned n hn hpn)

theorem ScanInv.blacken {e : V → A} (hM : ∀ v ∈ M, ∀ c ∈ G.succ v, c ∈ M)
    (h : ScanInv G M e s) (hv : v ∈ M) (hg : s.color v = .grey) (hrc : s.rc v ≠ 0)
    (hb : (G.blacken A).Visits (G.succ v) (s.paint v .black) s') : ScanInv G M e s' := by
  have hp := h.grey v hv hg
  have hbl := blackens_of_visits hb
  have hstay : ∀ n, s.color n = .black → s'.color n = .black := fun n hn => by
    rcases hbl.color n with hc | hc
    · exact hc.trans hn
    · exact hc
  have he : e v ≠ 0 := h.grey_rc hv hg ▸ hrc
  refine ⟨fun n hn => ?_, fun n hn hng => ?_, fun n hn hnb c hc => ?_, fun x hx => ?_,
    fun n hn hnb => ?_, fun n hn hw => ?_, fun n hn hpn => hstay n (h.pinned n hn hpn)⟩
  · rcases hbl.color n with hc | hc <;> rw [hc]
    · exact h.color n hn
    · simp
  · rcases hbl.color n with hc | hc <;> rw [hc] at hng
    · exact h.grey n hn hng
    · simp at hng
  · by_cases hns : s.color n = .black
    · exact hstay c (h.black n hn hns c hc)
    · exact (hbl.closed n hns hnb).2 c hc
  · have hbal := (blacken_balances hM hx).visits hb (hM v hv)
    have hins : G.edgesFrom M (fun n => (s.paint v .black).color n == .black) x =
        G.edgesFrom M (fun n => s.color n == .black) x + ((G.succ v).count x : A) :=
      edgesFrom_insert hv (fun n _ hn => by rw [paint_color, if_neg hn]) (by simp [hg])
        (by simp [paint_color])
    simp only [paint_rc, sum_map_ite, hins] at hbal
    have hsum := h.sum x hx
    rw [hsum] at hbal
    linear_combination hbal
  · by_cases hns : s.color n = .black
    · exact h.live n hn hns
    · exact Or.inr ⟨v, hv, hp, he, (hbl.closed n hns hnb).1⟩
  · rcases hbl.color n with hc | hc <;> rw [hc] at hw
    · exact h.white n hn hw
    · simp at hw

theorem scan_frame (hM : ∀ v ∈ M, ∀ c ∈ G.succ v, c ∈ M) (x : V) :
    (G.scan A).Preserves (· ∈ M) fun s s' => ScanFrame G M x s s' where
  closed := hM
  refl := .refl
  trans h1 h2 := h1.trans h2
  edge _ _ _ := .refl _
  shortcut v s s' hv _ _ hb := by
    apply (ScanFrame.paint hv .black).trans
    exact ((blacken_preserves hM x).visits hb (hM v hv)).1
  enter v s hv _ _ := .paint hv _

theorem scan_preserves (hM : ∀ v ∈ M, ∀ c ∈ G.succ v, c ∈ M) (e : V → A) :
    (G.scan A).Preserves (· ∈ M) fun s s' => ScanInv G M e s → ScanInv G M e s' where
  closed := hM
  refl _ := id
  trans h1 h2 := h2 ∘ h1
  edge _ _ _ := id
  shortcut _ _ _ hv hg hrc hb := fun h => h.blacken hM hv hg hrc hb
  enter v s hv hg hrc := fun h => by
    have hs : G.scanned v = .white := by simp [Graph.scanned, h.grey v hv hg]
    simp only [Graph.scan, hs]
    exact h.whiten hv hg (not_not.mp hrc)

/-- What the walks of `scan` from a list of roots do. -/
structure ScanSpec (G : Graph V) (M : Finset V) (e : V → A) (l : List V) (s s' : State V A) :
    Prop where
  inv : ScanInv G M e s'
  frame : ∀ x, ScanFrame G M x s s'
  mono : ∀ n, s.color n ≠ .grey → s'.color n ≠ .grey
  closed : ∀ n, s.color n = .grey → s'.color n ≠ .grey → ∀ c ∈ G.succ n, s'.color c ≠ .grey
  roots : ∀ r ∈ l, s'.color r ≠ .grey

theorem ScanRoots.spec (hM : ∀ v ∈ M, ∀ c ∈ G.succ v, c ∈ M) {e : V → A}
    (h : G.ScanRoots l s s') (hl : ∀ r ∈ l, r ∈ M) (hi : ScanInv G M e s) :
    ScanSpec G M e l s s' := by
  induction h with
  | nil s => exact ⟨hi, fun _ => .refl s, fun _ h => h, fun n h h' => absurd h h', by simp⟩
  | @cons r t s s₁ s' hv _ ih =>
    have hr := hl r (by simp)
    have hfin : (G.scan A).Finishes := scan_finishes
    have hmono : ∀ n, s.color n ≠ .grey → s₁.color n ≠ .grey := hfin.visit_mono hv
    have ih := ih (fun r' hr' => hl r' (by simp [hr'])) ((scan_preserves hM e).visit hv hr hi)
    refine ⟨ih.inv, fun x => ((scan_frame hM x).visit hv hr).trans (ih.frame x),
      fun n hn => ih.mono n (hmono n hn), fun n hn hn' c hc => ?_, fun r' hr' => ?_⟩
    · by_cases hn₁ : s₁.color n = .grey
      · exact ih.closed n hn₁ hn' c hc
      · exact ih.mono c ((hfin.visit_closed hv hn hn₁).2 c hc)
    · cases List.mem_cons.mp hr' with
      | inl hr' =>
        rw [hr']
        exact ih.mono r (hfin.visit_self hv)
      | inr hr' => exact ih.roots r' hr'

/-! ## The third walk -/

theorem collect_finishes : (G.collect A).Finishes where
  edge v s n h := by
    simp only [Graph.collect] at h ⊢
    split <;> simpa using h
  shortcut _ _ _ _ _ hs := hs.elim
  enter v s n _ h := by
    simp only [Graph.collect] at h ⊢
    split <;> simp only [State.list, State.addRc, paint_color, paint_buffered] <;> split <;>
      simp_all
  self v s _ := by
    simp only [Graph.collect]
    split <;> simp [State.list, State.addRc, paint_color]
  only v s n h h' := by
    by_contra hn
    apply h'
    simp only [Graph.collect] at h ⊢
    split <;> simpa [State.list, State.addRc, paint_color, hn] using h
  edge_todo v s n h := by
    simp only [Graph.collect] at h ⊢
    split <;> simpa using h
  shortcut_self _ _ _ _ hs := hs.elim
  shortcut_closed _ _ _ _ _ hs := hs.elim

/-- The colour of a node that `collect` is done with. -/
def Graph.collected (G : Graph V) (v : V) : Color := if G.listed v then .black else .purple

omit [DecidableEq V] in
theorem collected_ne_white : G.collected v ≠ .white := by
  unfold Graph.collected
  split <;> simp

theorem collect_enter_color (n : V) :
    ((G.collect A).enter v s).color n = if n = v then G.collected v else s.color n := by
  simp only [Graph.collect, Graph.collected]
  split <;> simp [State.list, State.addRc, paint_color]

theorem collect_edge_color (n : V) : ((G.collect A).edge v s).color n = s.color n := by
  simp only [Graph.collect]
  split <;> simp

theorem collect_balances (hM : ∀ v ∈ M, ∀ c ∈ G.succ v, c ∈ M) (hx : G.pinned x = false)
    (hlx : G.listed x = true) :
    (G.collect A).Balances (· ∈ M)
      (fun s => s.rc x - s.freed.count x + G.edgesFrom M (fun n => s.color n == .white) x)
      (fun v => if v = x then (1 : A) else 0) where
  closed := hM
  edge v s _ := by
    simp only [collect_edge_color]
    simp only [Graph.collect]
    split
    · simp only [edge_rc (1 : A) hx, edge_freed]
      ring
    · rename_i hv
      rw [if_neg fun hvx : v = x => hv (hvx ▸ hlx), add_zero]
  shortcut _ _ _ _ _ h := h.elim
  enter v s hv h := by
    have hins := edgesFrom_insert (A := A) (G := G) (x := x)
      (p := fun n => ((G.collect A).enter v s).color n == .white)
      (q := fun n => s.color n == .white) hv
      (fun n _ hn => by rw [collect_enter_color, if_neg hn])
      (by simpa [collect_enter_color] using collected_ne_white) (by simpa using h.1)
    have hcount : ((G.collect A).enter v s).rc x - ((G.collect A).enter v s).freed.count x =
        s.rc x - s.freed.count x := by
      simp only [Graph.collect]
      split
      · simp only [State.list, State.addRc, paint_rc, paint_freed, Multiset.count_cons]
        by_cases hxv : x = v
        · simp [hxv]
        · simp [hxv]
      · rfl
    rw [hcount, hins, sum_map_ite]
    show _ + 1 * ((G.succ v).count x : A) = _
    ring

/-- What `collect` does at a node `x`: nothing but when it is white. -/
structure CollectFrame (G : Graph V) (x : V) (s s' : State V A) : Prop where
  unlisted : G.listed x = false → s'.rc x = s.rc x
  stays : s.color x ≠ .white → s'.color x = s.color x ∧ s'.freed.count x = s.freed.count x ∧
    (G.pinned x = true → s'.rc x = s.rc x)
  white : s.color x = .white →
    (s'.color x = .white ∧ s'.freed.count x = s.freed.count x) ∨
      (s'.color x = G.collected x ∧
        s'.freed.count x = s.freed.count x + if G.listed x then 1 else 0)

omit [CommRing A] in
theorem CollectFrame.refl (s : State V A) : CollectFrame G x s s :=
  ⟨fun _ => rfl, fun _ => ⟨rfl, rfl, fun _ => rfl⟩, fun h => Or.inl ⟨h, rfl⟩⟩

omit [CommRing A] in
theorem CollectFrame.trans {s₁ : State V A} (h1 : CollectFrame G x s s₁)
    (h2 : CollectFrame G x s₁ s') : CollectFrame G x s s' where
  unlisted hx := (h2.unlisted hx).trans (h1.unlisted hx)
  stays hx := by
    have a := h1.stays hx
    have b := h2.stays (a.1 ▸ hx)
    exact ⟨b.1.trans a.1, b.2.1.trans a.2.1, fun hp => (b.2.2 hp).trans (a.2.2 hp)⟩
  white hx := by
    cases h1.white hx with
    | inl a =>
      have b := h2.white a.1
      rw [a.2] at b
      exact b
    | inr a =>
      have b := h2.stays (a.1 ▸ collected_ne_white)
      exact Or.inr ⟨b.1.trans a.1, b.2.1.trans a.2⟩

theorem collect_waits (x : V) :
    (G.collect A).Preserves (fun _ => True) fun s s' =>
      s'.buffered = s.buffered ∧ (s.buffered x = true → s'.color x = s.color x) where
  closed _ _ _ _ := trivial
  refl _ := ⟨rfl, fun _ => rfl⟩
  trans h1 h2 := ⟨h2.1.trans h1.1, fun h => (h2.2 (h1.1 ▸ h)).trans (h1.2 h)⟩
  edge v s _ := by
    refine ⟨?_, fun _ => collect_edge_color x⟩
    simp only [Graph.collect]
    split <;> simp
  shortcut _ _ _ _ _ h := h.elim
  enter v s _ h _ := by
    refine ⟨?_, fun hx => ?_⟩
    · simp only [Graph.collect]
      split <;> rfl
    · rw [collect_enter_color, if_neg fun hxv : x = v => ?_]
      rw [hxv, h.2] at hx
      simp at hx

theorem collect_frame (x : V) :
    (G.collect A).Preserves (fun _ => True) fun s s' => CollectFrame G x s s' where
  closed _ _ _ _ := trivial
  refl := .refl
  trans h1 h2 := h1.trans h2
  edge v s _ := by
    simp only [Graph.collect]
    split
    · rename_i hv
      refine ⟨fun hx => ?_, fun _ => ⟨by simp, by simp, fun hp => edge_rc_pinned _ hp⟩,
        fun h => Or.inl ⟨by simpa using h, by simp⟩⟩
      have hvx : v ≠ x := fun hvx => by simp [hvx, hx] at hv
      by_cases hp : G.pinned x = true
      · exact edge_rc_pinned _ hp
      · simp [edge_rc (1 : A) (by simpa using hp : G.pinned x = false), hvx]
    · exact .refl s
  shortcut _ _ _ _ _ h := h.elim
  enter v s _ h _ := by
    by_cases hxv : x = v
    · subst hxv
      refine ⟨fun hx => ?_, fun hx => absurd h.1 hx, fun _ => Or.inr ⟨?_, ?_⟩⟩
      · simp [Graph.collect, hx]
      · rw [collect_enter_color, if_pos rfl]
      · simp only [Graph.collect]
        split <;> simp [State.list, State.addRc]
    · have hsame : ((G.collect A).enter v s).rc x = s.rc x ∧
          ((G.collect A).enter v s).freed.count x = s.freed.count x := by
        simp only [Graph.collect]
        split <;> simp [State.list, State.addRc, hxv]
      have hcol : ((G.collect A).enter v s).color x = s.color x := by
        rw [collect_enter_color, if_neg hxv]
      exact ⟨fun _ => hsame.1, fun _ => ⟨hcol, hsame.2, fun _ => hsame.1⟩,
        fun hx => Or.inl ⟨hcol.trans hx, hsame.2⟩⟩

theorem addRc_comm (a b : V) (d e : A) :
    (s.addRc a d).addRc b e = (s.addRc b e).addRc a d := by
  unfold State.addRc
  by_cases hab : a = b
  · subst hab
    simp only [Function.update_self, Function.update_idem]
    rw [add_right_comm]
  · simp only [Function.update_of_ne (Ne.symm hab), Function.update_of_ne hab]
    rw [Function.update_comm hab]

theorem list_addRc (a b : V) (d : A) : (s.addRc a d).list b = (s.list b).addRc a d := by
  show { (s.addRc a d).addRc b 1 with freed := b ::ₘ s.freed } = (s.list b).addRc a d
  rw [addRc_comm]
  rfl

theorem list_comm (a b : V) : (s.list a).list b = (s.list b).list a := by
  have hrc := addRc_comm (s := s) a b (1 : A) 1
  show { (s.addRc a 1).addRc b 1 with freed := b ::ₘ a ::ₘ s.freed } =
    { (s.addRc b 1).addRc a 1 with freed := a ::ₘ b ::ₘ s.freed }
  rw [hrc, Multiset.cons_swap]

theorem collect_visits_list (n : V) (h : (G.collect A).Visits l s s') :
    (G.collect A).Visits l (s.list n) (s'.list n) := by
  apply Walk.Visits.map _ _ _ _ _ h
  · intro v s
    simp only [Graph.collect, Graph.edge]
    split_ifs
    · rfl
    · exact (list_addRc v n 1).symm
    · rfl
  · exact fun v s => Iff.rfl
  · exact fun v s hs => hs
  · exact fun v s hs => hs
  · intro v s
    simp only [Graph.collect]
    split_ifs
    · exact list_comm (s := s.paint v .black) n v
    · rfl

theorem collect_outside (hM : ∀ v ∈ M, ∀ c ∈ G.succ v, c ∈ M) (hx : x ∉ M) :
    (G.collect A).Preserves (· ∈ M) fun s s' =>
      s'.color x = s.color x ∧ s'.freed.count x = s.freed.count x ∧ s'.rc x = s.rc x where
  closed := hM
  refl _ := ⟨rfl, rfl, rfl⟩
  trans h1 h2 := ⟨h2.1.trans h1.1, h2.2.1.trans h1.2.1, h2.2.2.trans h1.2.2⟩
  edge v s hv := by
    have hvx : v ≠ x := fun hvx => hx (hvx ▸ hv)
    refine ⟨collect_edge_color x, ?_, ?_⟩ <;> simp only [Graph.collect] <;> split
    · simp
    · rfl
    · by_cases hp : G.pinned x = true
      · exact edge_rc_pinned _ hp
      · rw [edge_rc (1 : A) (by simpa using hp), if_neg hvx, add_zero]
    · rfl
  shortcut _ _ _ _ _ h := h.elim
  enter v s hv _ _ := by
    have hvx : x ≠ v := fun hvx => hx (hvx ▸ hv)
    refine ⟨?_, ?_, ?_⟩
    · rw [collect_enter_color, if_neg hvx]
    · simp only [Graph.collect]
      split <;> simp [State.list, State.addRc, hvx]
    · simp only [Graph.collect]
      split <;> simp [State.list, State.addRc, hvx]

/-- What the walks of `collect` from a list of roots do. -/
structure CollectSpec (G : Graph V) (M : Finset V) (l : List V) (s s' : State V A) : Prop where
  frame : ∀ x, CollectFrame G x s s'
  buffered : ∀ x, s'.buffered x = (s.buffered x && decide (x ∉ l))
  sum : ∀ x, G.pinned x = false → G.listed x = true →
    s'.rc x - s'.freed.count x + G.edgesFrom M (fun n => s'.color n == .white) x =
      s.rc x - s.freed.count x + G.edgesFrom M (fun n => s.color n == .white) x
  closed : ∀ n ∈ M, s.color n = .white → s'.color n ≠ .white →
    ∀ c ∈ G.succ n, s'.color c ≠ .white
  roots : ∀ r ∈ l, s'.color r ≠ .white
  outside : ∀ x, x ∉ M → s'.color x = s.color x ∧ s'.freed.count x = s.freed.count x ∧
    s'.rc x = s.rc x

theorem CollectRoots.spec (hM : ∀ v ∈ M, ∀ c ∈ G.succ v, c ∈ M) (h : G.CollectRoots l s s')
    (hl : ∀ r ∈ l, r ∈ M) (hb : ∀ n ∈ M, s.buffered n = true ↔ n ∈ l) (hnd : l.Nodup) :
    CollectSpec G M l s s' := by
  induction h with
  | nil s =>
    exact ⟨fun _ => .refl s, by simp, fun _ _ _ => rfl, fun n _ h h' => absurd h h', by simp,
      fun _ _ => ⟨rfl, rfl, rfl⟩⟩
  | @cons r t s s₁ s' hv _ ih =>
    have hr := hl r (by simp)
    obtain ⟨hrt, hnd⟩ := List.nodup_cons.mp hnd
    have hfin : (G.collect A).Finishes := collect_finishes
    have hbuf : s₁.buffered = (s.unbuffer r).buffered := ((collect_waits r).visit hv trivial).1
    have hb₁ : ∀ n ∈ M, s₁.buffered n = true ↔ n ∈ t := fun n hn => by
      rw [hbuf]
      by_cases hnr : n = r
      · simp [State.unbuffer, hnr, hrt]
      · simpa [State.unbuffer, hnr] using hb n hn
    have ih := ih (fun r' hr' => hl r' (by simp [hr'])) hb₁ hnd
    have hfr : ∀ x, CollectFrame G x s s₁ := fun x =>
      ⟨((collect_frame x).visit hv trivial).unlisted, ((collect_frame x).visit hv trivial).stays,
        ((collect_frame x).visit hv trivial).white⟩
    -- a node the walk is done with is not white, or a root whose turn comes later
    have hdone : ∀ n ∈ M, ¬ (G.collect A).todo s₁ n → s'.color n ≠ .white := fun n hnM hn => by
      by_cases hw : s₁.color n = .white
      · apply ih.roots n
        apply (hb₁ n hnM).mp
        simpa [Graph.collect, hw] using hn
      · rw [((ih.frame n).stays hw).1]
        exact hw
    refine ⟨fun x => (hfr x).trans (ih.frame x), fun x => ?_, fun x hx hlx => ?_,
      fun n hnM hn hn' c hc => ?_, fun r' hr' => ?_, fun x hx => ?_⟩
    · rw [ih.buffered x, hbuf]
      by_cases hxr : x = r
      · simp [State.unbuffer, hxr]
      · simp [State.unbuffer, hxr]
    · rw [ih.sum x hx hlx]
      have hbal := (collect_balances hM hx hlx).visit hv hr
      exact hbal
    · by_cases hn₁ : s₁.color n = .white
      · exact ih.closed n hnM hn₁ hn' c hc
      · by_cases hnt : (s.unbuffer r).buffered n = true
        · exact absurd ((((collect_waits n).visit hv trivial).2 hnt).trans hn) hn₁
        · have htodo : (G.collect A).todo (s.unbuffer r) n := ⟨hn, by simpa using hnt⟩
          apply hdone c (hM n hnM c hc)
          exact (hfin.visit_closed hv htodo fun h => hn₁ h.1).2 c hc
    · cases List.mem_cons.mp hr' with
      | inl hr' =>
        rw [hr']
        exact hdone r hr (hfin.visit_self hv)
      | inr hr' => exact ih.roots r' hr'
    · have h1 := (collect_outside hM hx).visit hv hr
      have h2 := ih.outside x hx
      exact ⟨h2.1.trans h1.1, h2.2.1.trans h1.2.1, h2.2.2.trans h1.2.2⟩

end PhpRuntime.Lib.TrialDeletion
