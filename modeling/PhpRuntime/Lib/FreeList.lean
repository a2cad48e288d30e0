import PhpRuntime.Lib.LinkedSegment

/-!
# Free lists

An allocator that hands out the slots of an array keeps the vacant ones on a list that is
threaded through the slots themselves. `FreeList` says that the list, from what its head
points to until `stop`, visits each vacant slot once and nothing else. The three lemmas
are the three things such an allocator does: it takes the first slot, it gives a slot back
in front, and it changes links that are not on the list.
-/

set_option autoImplicit false

namespace PhpRuntime.Lib

variable {A P : Type*}

/-- The list from `head` until `stop` visits exactly the vacant slots, each once. -/
def FreeList (ref : A → P) (stop : P) (next : A → P) (head : P) (vacant : A → Prop) : Prop :=
  ∃ l, Chain ref stop next head l ∧ l.Nodup ∧ ∀ a, a ∈ l ↔ vacant a

namespace FreeList

variable {ref : A → P} {stop head : P} {next next' : A → P} {vacant vacant' : A → Prop} {a : A}

theorem empty (h : ∀ a, ¬ vacant a) : FreeList ref stop next stop vacant := by
  refine ⟨[], rfl, List.nodup_nil, ?_⟩
  intro a
  simp [h a]

theorem congr (h : FreeList ref stop next head vacant) (hv : ∀ a, vacant' a ↔ vacant a)
    (hn : ∀ a, vacant a → next' a = next a) : FreeList ref stop next' head vacant' := by
  obtain ⟨l, hc, hd, hm⟩ := h
  refine ⟨l, ?_, hd, ?_⟩
  · apply hc.congr
    intro x hx
    exact hn x ((hm x).mp hx)
  · intro x
    rw [hm x, hv x]

theorem push (h : FreeList ref stop next head vacant) (ha : ¬ vacant a) (hl : next' a = head)
    (hn : ∀ x, vacant x → next' x = next x) (hv : ∀ x, vacant' x ↔ x = a ∨ vacant x) :
    FreeList ref stop next' (ref a) vacant' := by
  obtain ⟨l, hc, hd, hm⟩ := h
  refine ⟨a :: l, ⟨rfl, ?_⟩, ?_, ?_⟩
  · rw [hl]
    apply hc.congr
    intro x hx
    exact hn x ((hm x).mp hx)
  · apply List.nodup_cons.mpr
    refine ⟨?_, hd⟩
    intro hx
    exact ha ((hm a).mp hx)
  · intro x
    rw [List.mem_cons, hm x, hv x]

theorem exists_head (h : FreeList ref stop next head vacant) (hne : head ≠ stop) :
    ∃ a, head = ref a ∧ vacant a := by
  obtain ⟨l, hc, -, hm⟩ := h
  cases l with
  | nil => exact absurd hc hne
  | cons a t => exact ⟨a, hc.1, (hm a).mp List.mem_cons_self⟩

theorem pop (h : FreeList ref stop next (ref a) vacant) (hne : ref a ≠ stop)
    (hinj : ∀ x, vacant x → ref x = ref a → x = a)
    (hv : ∀ x, vacant' x ↔ x ≠ a ∧ vacant x) (hn : ∀ x, vacant' x → next' x = next x) :
    FreeList ref stop next' (next a) vacant' := by
  obtain ⟨l, hc, hd, hm⟩ := h
  cases l with
  | nil => exact absurd hc hne
  | cons b t =>
    have hb : b = a := hinj b ((hm b).mp List.mem_cons_self) hc.1.symm
    subst hb
    obtain ⟨hbt, ht⟩ := List.nodup_cons.mp hd
    have hmem : ∀ x, x ∈ t ↔ vacant' x := by
      intro x
      rw [hv x, ← hm x, List.mem_cons]
      constructor
      · intro hx
        exact ⟨fun e => hbt (e ▸ hx), Or.inr hx⟩
      · rintro ⟨hne, hx⟩
        exact hx.resolve_left hne
    refine ⟨t, ?_, ht, hmem⟩
    apply hc.2.congr
    intro x hx
    exact hn x ((hmem x).mp hx)

end FreeList

end PhpRuntime.Lib
