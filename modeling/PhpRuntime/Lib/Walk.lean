import Mathlib.Algebra.BigOperators.Group.List.Basic
import Mathlib.Algebra.Group.Defs
import Mathlib.Data.Finset.Card
import Mathlib.Logic.Relation

/-!
# Depth-first walks over a mutable state

A recursive procedure walks a graph and changes a state on the way: it acts on every edge
it follows, it looks whether the node it arrives at is still to be visited, and if so
enters the node and walks its successors in order, or takes a shortcut. `Walk` packs these
parts, `Visits W l s s'` says that following edges to the nodes of `l` takes the state `s`
to `s'`. What a walk establishes is proved by induction on this relation; fuel, recursion
and tail calls belong to the procedure that is shown to follow it.
-/

set_option autoImplicit false

namespace PhpRuntime.Lib

variable {V S : Type*}

/-- The parts of a walk. `stops` and `shortcut` tell where the walk does something else than
to walk the successors. -/
structure Walk (V S : Type*) where
  succ : V → List V
  edge : V → S → S
  todo : S → V → Prop
  stops : S → V → Prop
  shortcut : V → S → S → Prop
  enter : V → S → S

namespace Walk

variable {W : Walk V S}

/-- Following edges to the nodes of a list, one after the other. -/
inductive Visits (W : Walk V S) : List V → S → S → Prop
  | nil (s : S) : Visits W [] s s
  | pass {v : V} {t : List V} {s s' : S} (h : ¬ W.todo (W.edge v s) v)
      (ht : Visits W t (W.edge v s) s') : Visits W (v :: t) s s'
  | stop {v : V} {t : List V} {s s₁ s' : S} (h : W.todo (W.edge v s) v)
      (hs : W.stops (W.edge v s) v) (hv : W.shortcut v (W.edge v s) s₁)
      (ht : Visits W t s₁ s') : Visits W (v :: t) s s'
  | enter {v : V} {t : List V} {s s₁ s' : S} (h : W.todo (W.edge v s) v)
      (hs : ¬ W.stops (W.edge v s) v) (hv : Visits W (W.succ v) (W.enter v (W.edge v s)) s₁)
      (ht : Visits W t s₁ s') : Visits W (v :: t) s s'

/-- Arriving at a node. -/
inductive Visit (W : Walk V S) (v : V) (s : S) : S → Prop
  | pass (h : ¬ W.todo s v) : Visit W v s s
  | stop {s' : S} (h : W.todo s v) (hs : W.stops s v) (hv : W.shortcut v s s') : Visit W v s s'
  | enter {s' : S} (h : W.todo s v) (hs : ¬ W.stops s v)
      (hv : Visits W (W.succ v) (W.enter v s) s') : Visit W v s s'

theorem visits_cons_iff {v : V} {t : List V} {s s' : S} :
    W.Visits (v :: t) s s' ↔ ∃ s₁, W.Visit v (W.edge v s) s₁ ∧ W.Visits t s₁ s' := by
  constructor
  · intro h
    cases h with
    | pass h ht => exact ⟨_, .pass h, ht⟩
    | stop h hs hv ht => exact ⟨_, .stop h hs hv, ht⟩
    | enter h hs hv ht => exact ⟨_, .enter h hs hv, ht⟩
  · rintro ⟨s₁, hv, ht⟩
    cases hv with
    | pass h => exact .pass h ht
    | stop h hs hv => exact .stop h hs hv ht
    | enter h hs hv => exact .enter h hs hv ht

theorem visits_append_iff {l t : List V} {s s' : S} :
    W.Visits (l ++ t) s s' ↔ ∃ s₁, W.Visits l s s₁ ∧ W.Visits t s₁ s' := by
  induction l generalizing s with
  | nil =>
    constructor
    · exact fun h => ⟨s, .nil s, h⟩
    · rintro ⟨s₁, h, ht⟩
      cases h
      exact ht
  | cons v l ih =>
    rw [List.cons_append, visits_cons_iff]
    simp only [ih, visits_cons_iff]
    constructor
    · rintro ⟨s₁, hv, s₂, hl, ht⟩
      exact ⟨s₂, ⟨s₁, hv, hl⟩, ht⟩
    · rintro ⟨s₂, ⟨s₁, hv, hl⟩, ht⟩
      exact ⟨s₁, hv, s₂, hl, ht⟩

/-! ## What every step preserves -/

/-- A relation between states that holds from one step of the walk to the next holds from
its start to its end. `D` is a set of nodes the walk stays in. -/
structure Preserves (W : Walk V S) (D : V → Prop) (P : S → S → Prop) : Prop where
  closed : ∀ v, D v → ∀ c ∈ W.succ v, D c
  refl : ∀ s, P s s
  trans : ∀ {s₁ s₂ s₃}, P s₁ s₂ → P s₂ s₃ → P s₁ s₃
  edge : ∀ v s, D v → P s (W.edge v s)
  shortcut : ∀ v s s', D v → W.todo s v → W.stops s v → W.shortcut v s s' → P s s'
  enter : ∀ v s, D v → W.todo s v → ¬ W.stops s v → P s (W.enter v s)

theorem Preserves.visits {D : V → Prop} {P : S → S → Prop} (hP : W.Preserves D P) {l : List V}
    {s s' : S} (h : W.Visits l s s') (hl : ∀ v ∈ l, D v) : P s s' := by
  induction h with
  | nil s => exact hP.refl s
  | pass h _ ih =>
    exact hP.trans (hP.edge _ _ (hl _ (by simp))) (ih fun c hc => hl c (by simp [hc]))
  | stop h hs hv _ ih =>
    have hD := hl _ List.mem_cons_self
    exact hP.trans (hP.trans (hP.edge _ _ hD) (hP.shortcut _ _ _ hD h hs hv))
      (ih fun c hc => hl c (by simp [hc]))
  | enter h hs _ _ ihv ih =>
    have hD := hl _ List.mem_cons_self
    exact hP.trans (hP.trans (hP.trans (hP.edge _ _ hD) (hP.enter _ _ hD h hs))
      (ihv (hP.closed _ hD))) (ih fun c hc => hl c (by simp [hc]))

theorem Preserves.visit {D : V → Prop} {P : S → S → Prop} (hP : W.Preserves D P) {v : V}
    {s s' : S} (h : W.Visit v s s') (hv : D v) : P s s' := by
  cases h with
  | pass h => exact hP.refl s
  | stop h hs hsc => exact hP.shortcut _ _ _ hv h hs hsc
  | enter h hs hvs => exact hP.trans (hP.enter _ _ hv h hs) (hP.visits hvs (hP.closed v hv))

/-! ## Sums over the edges -/

variable {A : Type*} [AddCommGroup A]

/-- A quantity that an edge to `v` changes by `w v`, and that entering a node changes by what
its outgoing edges will give back. `D` is a set of nodes the walk stays in. -/
structure Balances (W : Walk V S) (D : V → Prop) (φ : S → A) (w : V → A) : Prop where
  closed : ∀ v, D v → ∀ c ∈ W.succ v, D c
  edge : ∀ v s, D v → φ (W.edge v s) = φ s + w v
  shortcut : ∀ v s s', D v → W.todo s v → W.stops s v → W.shortcut v s s' → φ s' = φ s
  enter : ∀ v s, D v → W.todo s v → φ (W.enter v s) + ((W.succ v).map w).sum = φ s

theorem Balances.visits {D : V → Prop} {φ : S → A} {w : V → A} (hB : W.Balances D φ w)
    {l : List V} {s s' : S} (h : W.Visits l s s') (hl : ∀ v ∈ l, D v) :
    φ s' = φ s + (l.map w).sum := by
  induction h with
  | nil s => simp
  | pass h _ ih =>
    rw [ih fun c hc => hl c (by simp [hc]),
      hB.edge _ _ (hl _ (by simp)), List.map_cons, List.sum_cons, add_assoc]
  | stop h hs hv _ ih =>
    rw [ih fun c hc => hl c (by simp [hc]), hB.shortcut _ _ _ (hl _ (by simp)) h hs hv,
      hB.edge _ _ (hl _ (by simp)), List.map_cons, List.sum_cons, add_assoc]
  | @enter v t s s₁ s' h _ _ _ ihv ih =>
    have hv := hl v (by simp)
    rw [ih fun c hc => hl c (by simp [hc]), ihv (hB.closed v hv), hB.enter v _ hv h,
      hB.edge v s hv, List.map_cons, List.sum_cons, add_assoc]

theorem Balances.visit {D : V → Prop} {φ : S → A} {w : V → A} (hB : W.Balances D φ w)
    {v : V} {s s' : S} (h : W.Visit v s s') (hv : D v) : φ s' = φ s := by
  cases h with
  | pass h => rfl
  | stop h hs hsc => exact hB.shortcut _ _ _ hv h hs hsc
  | enter h _ hvs => rw [hB.visits hvs (hB.closed v hv), hB.enter v s hv h]

/-! ## What a walk reaches -/

/-- `n` can be reached along successors. -/
abbrev Reach (W : Walk V S) : V → V → Prop := Relation.ReflTransGen fun a b => b ∈ W.succ a

/-- No step brings a node back to be visited, and a node that was entered is not to be
visited any more. What a shortcut is done with has its successors done, too. -/
structure Finishes (W : Walk V S) : Prop where
  edge : ∀ v s n, ¬ W.todo s n → ¬ W.todo (W.edge v s) n
  shortcut : ∀ v s s' n, W.todo s v → W.stops s v → W.shortcut v s s' → ¬ W.todo s n →
    ¬ W.todo s' n
  enter : ∀ v s n, W.todo s v → ¬ W.todo s n → ¬ W.todo (W.enter v s) n
  self : ∀ v s, W.todo s v → ¬ W.todo (W.enter v s) v
  only : ∀ v s n, W.todo s n → ¬ W.todo (W.enter v s) n → n = v
  edge_todo : ∀ v s n, W.todo s n → W.todo (W.edge v s) n
  shortcut_self : ∀ v s s', W.todo s v → W.stops s v → W.shortcut v s s' → ¬ W.todo s' v
  shortcut_closed : ∀ v s s' n, W.todo s v → W.stops s v → W.shortcut v s s' → W.todo s n →
    ¬ W.todo s' n → W.Reach v n ∧ ∀ c ∈ W.succ n, ¬ W.todo s' c

namespace Finishes

variable {l : List V} {s s' : S} {v n : V}

theorem mono (hF : W.Finishes) (n : V) :
    W.Preserves (fun _ => True) fun s s' => ¬ W.todo s n → ¬ W.todo s' n where
  closed _ _ _ _ := trivial
  refl _ := id
  trans h1 h2 := h2 ∘ h1
  edge v s _ := hF.edge v s n
  shortcut v s s' _ h hs hv := hF.shortcut v s s' n h hs hv
  enter v s _ h _ := hF.enter v s n h

theorem visits_mono (hF : W.Finishes) (h : W.Visits l s s') (n : V) (hn : ¬ W.todo s n) :
    ¬ W.todo s' n := (hF.mono n).visits h (fun _ _ => trivial) hn

theorem visit_mono (hF : W.Finishes) (h : W.Visit v s s') (n : V) (hn : ¬ W.todo s n) :
    ¬ W.todo s' n := (hF.mono n).visit h trivial hn

theorem visit_self (hF : W.Finishes) (h : W.Visit v s s') : ¬ W.todo s' v := by
  cases h with
  | pass h => exact h
  | stop h hs hv => exact hF.shortcut_self v s s' h hs hv
  | enter h _ hv => exact hF.visits_mono hv v (hF.self v s h)

theorem visits_self (hF : W.Finishes) (h : W.Visits l s s') : ∀ c ∈ l, ¬ W.todo s' c := by
  induction l generalizing s with
  | nil => simp
  | cons v t ih =>
    obtain ⟨s₁, hv, ht⟩ := visits_cons_iff.mp h
    intro c hc
    rcases List.mem_cons.mp hc with rfl | hc
    · exact hF.visits_mono ht c (hF.visit_self hv)
    · exact ih ht c hc

/-- **A walk closes what it visits**: a node it finished is reached from the nodes it was
called for, and all its successors are finished. -/
theorem visits_closed (hF : W.Finishes) (h : W.Visits l s s') :
    ∀ n, W.todo s n → ¬ W.todo s' n →
      (∃ c ∈ l, W.Reach c n) ∧ ∀ c ∈ W.succ n, ¬ W.todo s' c := by
  induction h with
  | nil s => exact fun n h h' => absurd h h'
  | @pass v t s s' h ht ih =>
    intro n hn hn'
    obtain ⟨⟨c, hc, hr⟩, hcl⟩ := ih n (hF.edge_todo v s n hn) hn'
    exact ⟨⟨c, by simp [hc], hr⟩, hcl⟩
  | @stop v t s s₁ s' h hs hv ht ih =>
    intro n hn hn'
    by_cases hn₁ : W.todo s₁ n
    · obtain ⟨⟨c, hc, hr⟩, hcl⟩ := ih n hn₁ hn'
      exact ⟨⟨c, by simp [hc], hr⟩, hcl⟩
    · obtain ⟨hr, hcl⟩ := hF.shortcut_closed v _ s₁ n h hs hv (hF.edge_todo v s n hn) hn₁
      exact ⟨⟨v, by simp, hr⟩, fun c hc => hF.visits_mono ht c (hcl c hc)⟩
  | @enter v t s s₁ s' h _ hv ht ihv ih =>
    intro n hn hn'
    by_cases hn₁ : W.todo s₁ n
    · obtain ⟨⟨c, hc, hr⟩, hcl⟩ := ih n hn₁ hn'
      exact ⟨⟨c, by simp [hc], hr⟩, hcl⟩
    · by_cases hne : W.todo (W.enter v (W.edge v s)) n
      · obtain ⟨⟨c, hc, hr⟩, hcl⟩ := ihv n hne hn₁
        exact ⟨⟨v, by simp, hr.head hc⟩, fun c hc => hF.visits_mono ht c (hcl c hc)⟩
      · obtain rfl := hF.only v _ n (hF.edge_todo v s n hn) hne
        exact ⟨⟨n, by simp, .refl⟩, fun c hc =>
          hF.visits_mono ht c (hF.visits_self hv c hc)⟩

theorem visit_closed (hF : W.Finishes) (h : W.Visit v s s') (hn : W.todo s n)
    (hn' : ¬ W.todo s' n) : W.Reach v n ∧ ∀ c ∈ W.succ n, ¬ W.todo s' c := by
  cases h with
  | pass h => exact absurd hn hn'
  | stop h hs hv => exact hF.shortcut_closed v s s' n h hs hv hn hn'
  | enter h _ hv =>
    by_cases hne : W.todo (W.enter v s) n
    · obtain ⟨⟨c, hc, hr⟩, hcl⟩ := hF.visits_closed hv n hne hn'
      exact ⟨hr.head hc, hcl⟩
    · obtain rfl := hF.only v s n hn hne
      exact ⟨.refl, hF.visits_self hv⟩

end Finishes

/-! ## How much is left to visit -/

open Classical in
/-- How many nodes of `M` are still to be visited. -/
noncomputable def todoCount (W : Walk V S) (M : Finset V) (s : S) : ℕ :=
  (M.filter fun n => W.todo s n).card

namespace Finishes

variable {M : Finset V} {l : List V} {s s' : S} {v : V}

theorem todoCount_le (h : ∀ n, ¬ W.todo s n → ¬ W.todo s' n) :
    W.todoCount M s' ≤ W.todoCount M s := by
  classical
  apply Finset.card_le_card
  intro n hn
  rw [Finset.mem_filter] at hn ⊢
  exact ⟨hn.1, by_contra fun hc => h n hc hn.2⟩

theorem todoCount_edge (hF : W.Finishes) (v : V) (s : S) :
    W.todoCount M (W.edge v s) ≤ W.todoCount M s := todoCount_le (hF.edge v s)

theorem todoCount_visit (hF : W.Finishes) (h : W.Visit v s s') :
    W.todoCount M s' ≤ W.todoCount M s := todoCount_le (hF.visit_mono h)

theorem todoCount_visits (hF : W.Finishes) (h : W.Visits l s s') :
    W.todoCount M s' ≤ W.todoCount M s := todoCount_le (hF.visits_mono h)

theorem todoCount_enter (hF : W.Finishes) (hv : v ∈ M) (h : W.todo s v) :
    W.todoCount M (W.enter v s) < W.todoCount M s := by
  classical
  apply Finset.card_lt_card
  rw [Finset.ssubset_iff_of_subset]
  · refine ⟨v, ?_, ?_⟩
    · rw [Finset.mem_filter]
      exact ⟨hv, h⟩
    · rw [Finset.mem_filter]
      exact fun hc => hF.self v s h hc.2
  · intro n hn
    rw [Finset.mem_filter] at hn ⊢
    exact ⟨hn.1, by_contra fun hc => hF.enter v s n h hc hn.2⟩

theorem todoCount_le_card (s : S) : W.todoCount M s ≤ M.card := by
  classical
  exact Finset.card_filter_le ..

end Finishes

/-! ## Walks that do not see a change -/

theorem Visits.map {f : S → S} (hedge : ∀ v s, W.edge v (f s) = f (W.edge v s))
    (htodo : ∀ v s, W.todo (f s) v ↔ W.todo s v)
    (hstops : ∀ v s, ¬ W.stops s v) (hstops' : ∀ v s, ¬ W.stops (f s) v)
    (henter : ∀ v s, W.enter v (f s) = f (W.enter v s)) {l : List V} {s s' : S}
    (h : W.Visits l s s') : W.Visits l (f s) (f s') := by
  induction h with
  | nil s => exact .nil _
  | @pass v t s s' h _ ih =>
    refine .pass ?_ ?_
    · rw [hedge, htodo]; exact h
    · rw [hedge]; exact ih
  | stop _ hs => exact absurd hs (hstops _ _)
  | @enter v t s s₁ s' h _ _ _ ihv ih =>
    refine .enter ?_ ?_ ?_ ih
    · rw [hedge, htodo]; exact h
    · rw [hedge]; exact hstops' _ _
    · rw [hedge, henter]; exact ihv

end Walk

end PhpRuntime.Lib
