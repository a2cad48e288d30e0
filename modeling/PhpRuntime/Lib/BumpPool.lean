import Mathlib.Algebra.BigOperators.Group.List.Basic
import Mathlib.Algebra.Ring.Nat
import Mathlib.Data.List.Nodup
import Mathlib.Order.Basic

/-!
# Pools with a bump allocator

A pool keeps each value once, in the order in which they came, in blocks one after the other. A
snapshot remembers how far the pool is filled, and restoring it gives up all that came later.
-/

set_option autoImplicit false

namespace PhpRuntime.Lib

variable {α : Type*}

/-! ## Blocks one after the other -/

section Blocks

variable (size : α → ℕ)

def extent (l : List α) : ℕ :=
  (l.map size).sum

/-- Where the blocks of some values are, from `base` on. -/
def offsets (base : ℕ) : List α → List ℕ
  | [] => []
  | a :: t => base :: offsets (base + size a) t

variable {size} {l s t : List α} {a : α} {base x : ℕ}

@[simp] theorem extent_nil : extent size ([] : List α) = 0 :=
  rfl

@[simp] theorem extent_cons : extent size (a :: l) = size a + extent size l :=
  rfl

@[simp] theorem extent_append : extent size (s ++ t) = extent size s + extent size t := by
  simp [extent]

theorem offsets_append :
    offsets size base (s ++ t) = offsets size base s ++ offsets size (base + extent size s) t := by
  induction s generalizing base with
  | nil => rfl
  | cons a s ih =>
    rw [List.cons_append, offsets, offsets, ih, extent_cons, Nat.add_assoc, List.cons_append]

theorem offsets_append_singleton :
    offsets size base (l ++ [a]) = offsets size base l ++ [base + extent size l] :=
  offsets_append

theorem length_offsets : (offsets size base l).length = l.length := by
  induction l generalizing base with
  | nil => rfl
  | cons a l ih => rw [offsets, List.length_cons, List.length_cons, ih]

theorem le_of_mem_offsets (hx : x ∈ offsets size base l) : base ≤ x := by
  induction l generalizing base with
  | nil => exact absurd hx List.not_mem_nil
  | cons a l ih =>
    obtain rfl | hx := List.mem_cons.mp hx
    · exact Nat.le_refl _
    · exact Nat.le_trans (Nat.le_add_right _ _) (ih hx)

theorem add_le_of_mem_offsets {k : ℕ} (hk : ∀ a ∈ l, k ≤ size a) (hx : x ∈ offsets size base l) :
    x + k ≤ base + extent size l := by
  induction l generalizing base with
  | nil => exact absurd hx List.not_mem_nil
  | cons a l ih =>
    have ha := hk a List.mem_cons_self
    rw [extent_cons]
    obtain rfl | hx := List.mem_cons.mp hx
    · omega
    · have := ih (fun b hb => hk b (List.mem_cons_of_mem a hb)) hx
      omega

theorem exists_of_mem_offsets (hx : x ∈ offsets size base l) :
    ∃ s a t, l = s ++ a :: t ∧ x = base + extent size s := by
  induction l generalizing base with
  | nil => exact absurd hx List.not_mem_nil
  | cons a l ih =>
    obtain rfl | hx := List.mem_cons.mp hx
    · exact ⟨[], a, l, rfl, rfl⟩
    · obtain ⟨s, b, t, hl, hx⟩ := ih hx
      refine ⟨a :: s, b, t, by rw [hl, List.cons_append], ?_⟩
      rw [hx, extent_cons, Nat.add_assoc]

theorem length_mul_le_extent {k : ℕ} (hk : ∀ a ∈ l, k ≤ size a) :
    l.length * k ≤ extent size l := by
  induction l with
  | nil => simp
  | cons a l ih =>
    have ha := hk a List.mem_cons_self
    have := ih fun b hb => hk b (List.mem_cons_of_mem a hb)
    rw [List.length_cons, extent_cons, Nat.succ_mul]
    omega

theorem offsets_pairwise (hpos : ∀ a ∈ l, 0 < size a) :
    (offsets size base l).Pairwise (· < ·) := by
  induction l generalizing base with
  | nil => exact List.Pairwise.nil
  | cons a l ih =>
    have ha := hpos a List.mem_cons_self
    refine List.Pairwise.cons ?_ (ih fun b hb => hpos b (List.mem_cons_of_mem a hb))
    intro x hx
    have := le_of_mem_offsets hx
    omega

theorem filter_offsets {k : ℕ} (hk : 0 < k) (hs : ∀ a ∈ s, k ≤ size a) :
    (offsets size base (s ++ t)).filter (fun x => x + k ≤ base + extent size s) =
      offsets size base s := by
  rw [offsets_append, List.filter_append]
  have hkeep : (offsets size base s).filter (fun x => x + k ≤ base + extent size s) =
      offsets size base s :=
    List.filter_eq_self.mpr fun x hx => decide_eq_true (add_le_of_mem_offsets hs hx)
  have hdrop : (offsets size (base + extent size s) t).filter
      (fun x => x + k ≤ base + extent size s) = [] := by
    apply List.filter_eq_nil_iff.mpr
    intro x hx hle
    have := le_of_mem_offsets hx
    have := of_decide_eq_true hle
    omega
  rw [hkeep, hdrop, List.append_nil]

theorem takeWhile_ne [DecidableEq α] (h : a ∉ s) : (s ++ a :: t).takeWhile (· ≠ a) = s := by
  induction s with
  | nil => simp
  | cons b s ih =>
    have hb : b ≠ a := fun e => h (e ▸ List.mem_cons_self)
    have hs : a ∉ s := fun hm => h (List.mem_cons_of_mem b hm)
    rw [List.cons_append, List.takeWhile_cons_of_pos (by simpa using hb), ih hs]

end Blocks

/-! ## Pools -/

/-- The values of a pool, and those it held at the snapshot. -/
structure Pool (α : Type*) where
  entries : List α
  saved : List α

namespace Pool

variable [DecidableEq α] (size : α → ℕ) (capacity : ℕ)

def empty : Pool α where
  entries := []
  saved := []

/-- A value is added unless it is there, or no room is left for it. -/
def intern (pool : Pool α) (a : α) : Pool α :=
  if a ∈ pool.entries then pool
  else if capacity ≤ extent size pool.entries + size a then pool
  else { pool with entries := pool.entries ++ [a] }

def snapshot (pool : Pool α) : Pool α :=
  { pool with saved := pool.entries }

def restore (pool : Pool α) : Pool α :=
  { pool with entries := pool.saved }

def place (pool : Pool α) (a : α) : Option ℕ :=
  if a ∈ pool.entries then some (extent size (pool.entries.takeWhile (· ≠ a))) else none

/-- The values of a pool are there once, and those of the snapshot came first. -/
structure Sound (pool : Pool α) : Prop where
  nodup : pool.entries.Nodup
  saved : pool.saved <+: pool.entries

variable {size capacity} {pool : Pool α} {a : α}

omit [DecidableEq α] in
theorem sound_empty : (empty : Pool α).Sound :=
  ⟨List.nodup_nil, List.prefix_refl _⟩

theorem Sound.intern (h : pool.Sound) : (pool.intern size capacity a).Sound := by
  unfold Pool.intern
  split
  · exact h
  · rename_i ha
    split
    · exact h
    · refine ⟨?_, h.saved.trans (List.prefix_append _ _)⟩
      apply List.nodup_append.mpr
      refine ⟨h.nodup, List.nodup_singleton a, ?_⟩
      intro b hb c hc e
      rw [List.mem_singleton.mp hc] at e
      exact ha (e ▸ hb)

omit [DecidableEq α] in
theorem Sound.snapshot (h : pool.Sound) : pool.snapshot.Sound :=
  ⟨h.nodup, List.prefix_refl _⟩

omit [DecidableEq α] in
theorem Sound.restore (h : pool.Sound) : pool.restore.Sound :=
  ⟨h.nodup.sublist h.saved.sublist, List.prefix_refl _⟩

theorem intern_saved : (pool.intern size capacity a).saved = pool.saved := by
  unfold Pool.intern
  split
  · rfl
  · split
    · rfl
    · rfl

theorem intern_of_mem (h : a ∈ pool.entries) : pool.intern size capacity a = pool :=
  if_pos h

theorem intern_of_full (h : a ∉ pool.entries)
    (hfull : capacity ≤ extent size pool.entries + size a) :
    pool.intern size capacity a = pool := by
  rw [Pool.intern, if_neg h, if_pos hfull]

theorem intern_of_room (h : a ∉ pool.entries)
    (hroom : extent size pool.entries + size a < capacity) :
    pool.intern size capacity a = { pool with entries := pool.entries ++ [a] } := by
  rw [Pool.intern, if_neg h, if_neg (Nat.not_le.mpr hroom)]

theorem place_of_room (h : a ∉ pool.entries)
    (hroom : extent size pool.entries + size a < capacity) :
    (pool.intern size capacity a).place size a = some (extent size pool.entries) := by
  rw [intern_of_room h hroom]
  unfold place
  rw [if_pos (List.mem_append_right _ List.mem_cons_self), takeWhile_ne h]

theorem place_eq_none (h : a ∉ pool.entries) : pool.place size a = none :=
  if_neg h

theorem place_of_split {s t : List α} (h : pool.entries = s ++ a :: t) (hs : a ∉ s) :
    pool.place size a = some (extent size s) := by
  unfold place
  rw [if_pos (by rw [h]; exact List.mem_append_right _ List.mem_cons_self), h, takeWhile_ne hs]

end Pool

end PhpRuntime.Lib
