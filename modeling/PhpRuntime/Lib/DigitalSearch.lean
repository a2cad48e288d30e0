import PhpRuntime.Lib.DigitalTree

/-!
# Searching a digital tree for the next key

The nodes along the bits of a number, and the last right subtree that is passed there, hold the
least key from that number on. The nodes that are found by going right as long as there is a left
child hold the least key of a tree only when its root is that one.
-/

set_option autoImplicit false

namespace PhpRuntime.Lib.DigitalTree

open BinaryTree

variable {α : Type*} {key : α → ℕ} {a c d : α} {l r t u : BinaryTree α} {j q s : ℕ}

/-- The nodes along the bits of `s`. -/
def along (s : ℕ) : ℕ → BinaryTree α → List α
  | _, nil => []
  | 0, node a _ _ => [a]
  | j + 1, node a l r => a :: if s.testBit j then along s j r else along s j l

/-- A subtree, or the one before it if it is empty. -/
def lastOf (u : BinaryTree α) : BinaryTree α → BinaryTree α
  | nil => u
  | node a l r => node a l r

/-- The last right subtree that is passed along the bits of `s`, or `u`. -/
def passed (s : ℕ) : ℕ → BinaryTree α → BinaryTree α → BinaryTree α
  | _, u, nil => u
  | 0, u, node _ _ _ => u
  | j + 1, u, node _ l r => if s.testBit j then passed s j u r else passed s j (lastOf u r) l

/-- The root, and what is found by going right as long as there is a left child. -/
def zigzag : BinaryTree α → List α
  | nil => []
  | node a l r =>
    match l with
    | nil => [a]
    | node _ _ _ => a :: zigzag r

def root : BinaryTree α → List α
  | nil => []
  | node a _ _ => [a]

/-- A least one of the keys from `s` on. -/
def IsLeast (key : α → ℕ) (s : ℕ) (t : BinaryTree α) (c : α) : Prop :=
  c ∈ members t ∧ s ≤ key c ∧ ∀ d ∈ members t, s ≤ key d → key c ≤ key d

theorem along_nil (s j : ℕ) : along s j (nil : BinaryTree α) = [] := by
  cases j <;> rfl

theorem passed_nil (s j : ℕ) (u : BinaryTree α) : passed s j u nil = u := by
  cases j <;> rfl

theorem mem_of_mem_along (h : c ∈ along s j t) : c ∈ members t := by
  induction t generalizing j with
  | nil =>
    rw [along_nil] at h
    exact absurd h List.not_mem_nil
  | node a l r ihl ihr =>
    cases j with
    | zero =>
      rw [List.mem_singleton.mp h]
      exact List.mem_cons_self
    | succ j =>
      obtain h | h := List.mem_cons.mp h
      · rw [h]
        exact List.mem_cons_self
      · refine List.mem_cons_of_mem _ ?_
        by_cases hbit : s.testBit j = true
        · rw [if_pos hbit] at h
          exact List.mem_append_right _ (ihr h)
        · rw [if_neg hbit] at h
          exact List.mem_append_left _ (ihl h)

theorem mem_of_mem_zigzag (h : c ∈ zigzag t) : c ∈ members t := by
  induction t with
  | nil => exact h
  | node a l r _ ihr =>
    cases l with
    | nil =>
      rw [List.mem_singleton.mp h]
      exact List.mem_cons_self
    | node b l' r' =>
      obtain h | h := List.mem_cons.mp h
      · rw [h]
        exact List.mem_cons_self
      · exact List.mem_cons_of_mem _ (List.mem_append_right _ (ihr h))

theorem passed_cases (s j : ℕ) (u t : BinaryTree α) :
    passed s j u t = u ∨
      passed s j u t ≠ nil ∧ ∀ d ∈ members (passed s j u t), d ∈ members t := by
  induction t generalizing j u with
  | nil => exact .inl (passed_nil s j u)
  | node a l r ihl ihr =>
    cases j with
    | zero => exact .inl rfl
    | succ j =>
      rw [passed]
      by_cases hbit : s.testBit j = true
      · rw [if_pos hbit]
        refine (ihr j u).imp_right fun h => ⟨h.1, fun d hd => ?_⟩
        exact List.mem_cons_of_mem _ (List.mem_append_right _ (h.2 d hd))
      · rw [if_neg hbit]
        obtain h | ⟨hne, h⟩ := ihl j (lastOf u r)
        · rw [h]
          cases r with
          | nil => exact .inl rfl
          | node b l' r' =>
            refine .inr ⟨node_ne_nil b l' r', fun d hd => ?_⟩
            exact List.mem_cons_of_mem _ (List.mem_append_right _ hd)
        · refine .inr ⟨hne, fun d hd => ?_⟩
          exact List.mem_cons_of_mem _ (List.mem_append_left _ (h d hd))

theorem height_passed_le (s j : ℕ) (u t : BinaryTree α) :
    (passed s j u t).height ≤ max u.height t.height := by
  induction t generalizing j u with
  | nil =>
    rw [passed_nil]
    exact le_max_left _ _
  | node a l r ihl ihr =>
    rw [BinaryTree.height]
    cases j with
    | zero => exact le_max_left _ _
    | succ j =>
      rw [passed]
      by_cases hbit : s.testBit j = true
      · rw [if_pos hbit]
        have hheight := ihr j u
        omega
      · rw [if_neg hbit]
        have hheight := ihl j (lastOf u r)
        cases r with
        | nil =>
          rw [lastOf] at hheight ⊢
          omega
        | node b l' r' =>
          rw [lastOf] at hheight ⊢
          omega

theorem lt_of_bit_clear {n m : ℕ} (hn : n / 2 ^ j = 2 * q) (hm : m / 2 ^ j = 2 * q + 1) :
    n < m := by
  by_contra hle
  have hdiv := Nat.div_le_div_right (c := 2 ^ j) (Nat.not_lt.mp hle)
  omega

theorem IsDigital.mem_along (h : IsDigital key j q t) (hs : s / 2 ^ j = q) (hc : c ∈ members t)
    (heq : key c = s) : c ∈ along s j t := by
  induction t generalizing j q with
  | nil => exact absurd hc List.not_mem_nil
  | node a l r ihl ihr =>
    cases j with
    | zero =>
      obtain ⟨-, rfl, rfl⟩ := h
      exact hc
    | succ j =>
      obtain ⟨-, -, hl, hr⟩ := h
      have hdiv := div_of_testBit hs
      obtain hca | hc := List.mem_cons.mp hc
      · rw [hca]
        exact List.mem_cons_self
      refine List.mem_cons_of_mem _ ?_
      by_cases hbit : s.testBit j = true
      · rw [hbit] at hdiv
        rw [if_pos hbit]
        refine ihr hr hdiv ((List.mem_append.mp hc).resolve_left fun hin => ?_)
        have hleft := hl.div_eq hin
        rw [heq, hdiv] at hleft
        exact absurd hleft (by simp)
      · rw [Bool.not_eq_true] at hbit
        rw [hbit] at hdiv
        rw [hbit]
        refine ihl hl hdiv ((List.mem_append.mp hc).resolve_right fun hin => ?_)
        have hright := hr.div_eq hin
        rw [heq, hdiv] at hright
        exact absurd hright (by simp)

theorem IsDigital.lt_of_mem_passed (h : IsDigital key j q t) (hs : s / 2 ^ j = q)
    (hu : ∀ d ∈ members u, s < key d) : ∀ d ∈ members (passed s j u t), s < key d := by
  induction t generalizing j q u with
  | nil => cases j <;> exact hu
  | node a l r ihl ihr =>
    cases j with
    | zero => exact hu
    | succ j =>
      obtain ⟨-, -, hl, hr⟩ := h
      have hdiv := div_of_testBit hs
      rw [passed]
      by_cases hbit : s.testBit j = true
      · rw [hbit] at hdiv
        rw [if_pos hbit]
        exact ihr hr hdiv hu
      · rw [Bool.not_eq_true] at hbit
        rw [hbit] at hdiv
        rw [hbit]
        refine ihl hl hdiv fun d hd => ?_
        cases r with
        | nil => exact hu d hd
        | node b l' r' => exact lt_of_bit_clear hdiv (hr.div_eq hd)

theorem IsDigital.of_lt (h : IsDigital key j q t) (hs : s / 2 ^ j = q) (u : BinaryTree α)
    (hc : c ∈ members t) (hlt : s < key c) :
    c ∈ along s j t ∨ c ∈ members (passed s j u t) ∨
      passed s j u t ≠ BinaryTree.nil ∧ ∀ d ∈ members (passed s j u t), key d < key c := by
  induction t generalizing j q u with
  | nil => exact absurd hc List.not_mem_nil
  | node a l r ihl ihr =>
    cases j with
    | zero =>
      obtain ⟨-, rfl, rfl⟩ := h
      exact .inl hc
    | succ j =>
      obtain ⟨-, -, hl, hr⟩ := h
      have hdiv := div_of_testBit hs
      rw [along, passed]
      obtain hca | hc := List.mem_cons.mp hc
      · rw [hca]
        exact .inl List.mem_cons_self
      by_cases hbit : s.testBit j = true
      · rw [hbit] at hdiv
        rw [if_pos hbit, if_pos hbit]
        have hin : c ∈ members r := (List.mem_append.mp hc).resolve_left fun hin =>
          absurd hlt (Nat.lt_asymm (lt_of_bit_clear (hl.div_eq hin) hdiv))
        exact (ihr hr hdiv u hin).imp_left (List.mem_cons_of_mem _)
      · rw [Bool.not_eq_true] at hbit
        rw [hbit] at hdiv
        rw [hbit]
        obtain hin | hin := List.mem_append.mp hc
        · exact (ihl hl hdiv (lastOf u r) hin).imp_left (List.mem_cons_of_mem _)
        · refine .inr ?_
          cases r with
          | nil => exact absurd hin List.not_mem_nil
          | node b l' r' =>
            obtain heq | ⟨hne, hsub⟩ := passed_cases s j (lastOf u (node b l' r')) l
            · refine .inl ?_
              change c ∈ members (passed s j (lastOf u (node b l' r')) l)
              rw [heq]
              exact hin
            · exact .inr ⟨hne, fun d hd =>
                lt_of_bit_clear (hl.div_eq (hsub d hd)) (hr.div_eq hin)⟩

theorem IsDigital.mem_root (h : IsDigital key j q t) (hc : c ∈ zigzag t)
    (hleast : ∀ d ∈ members t, key c ≤ key d) : c ∈ root t := by
  cases t with
  | nil => exact hc
  | node a l r =>
    cases l with
    | nil => exact hc
    | node b l' r' =>
      obtain hca | hc := List.mem_cons.mp hc
      · rw [hca]
        exact List.mem_cons_self
      cases j with
      | zero =>
        obtain ⟨-, hno, -⟩ := h
        cases hno
      | succ j =>
        obtain ⟨-, -, hl, hr⟩ := h
        have hlt := lt_of_bit_clear (hl.div_eq List.mem_cons_self)
          (hr.div_eq (mem_of_mem_zigzag hc))
        have hle := hleast b (List.mem_cons_of_mem _ (List.mem_append_left _ List.mem_cons_self))
        omega

theorem root_subset_zigzag (h : c ∈ root t) : c ∈ zigzag t := by
  cases t with
  | nil => exact h
  | node a l r =>
    rw [List.mem_singleton.mp h]
    cases l <;> exact List.mem_cons_self

theorem IsDigital.passed_digital (h : IsDigital key j q t) (s : ℕ)
    (hu : ∃ j' q', IsDigital key j' q' u) : ∃ j' q', IsDigital key j' q' (passed s j u t) := by
  induction t generalizing j q u with
  | nil => cases j <;> exact hu
  | node a l r ihl ihr =>
    cases j with
    | zero => exact hu
    | succ j =>
      obtain ⟨-, -, hl, hr⟩ := h
      rw [passed]
      by_cases hbit : s.testBit j = true
      · rw [if_pos hbit]
        exact ihr hr hu
      · rw [if_neg hbit]
        refine ihl hl ?_
        cases r with
        | nil => exact hu
        | node b l' r' => exact ⟨j, 2 * q + 1, hr⟩

/-! ### What is seen of the tree -/

/-- The nodes along the bits of `s`, and those that are found below what is passed last. -/
def seen (s j : ℕ) (t : BinaryTree α) : List α := along s j t ++ zigzag (passed s j nil t)

theorem passed_nil_subset (s j : ℕ) (t : BinaryTree α) :
    ∀ d ∈ members (passed s j nil t), d ∈ members t := by
  obtain heq | ⟨-, hsub⟩ := passed_cases s j nil t
  · rw [heq]
    exact fun d hd => absurd hd List.not_mem_nil
  · exact hsub

theorem mem_of_mem_seen (h : c ∈ seen s j t) : c ∈ members t := by
  obtain h | h := List.mem_append.mp h
  · exact mem_of_mem_along h
  · exact passed_nil_subset s j t c (mem_of_mem_zigzag h)

theorem IsDigital.exists_seen (h : IsDigital key j q t) (hs : s / 2 ^ j = q) (hc : c ∈ members t)
    (hle : s ≤ key c) : ∃ d ∈ seen s j t, s ≤ key d := by
  obtain heq | hlt := hle.eq_or_lt
  · exact ⟨c, List.mem_append_left _ (h.mem_along hs hc heq.symm), hle⟩
  have hpassed (hne : passed s j BinaryTree.nil t ≠ BinaryTree.nil) :
      ∃ d ∈ seen s j t, s ≤ key d := by
    have hgreater := h.lt_of_mem_passed (u := BinaryTree.nil) hs
      fun d hd => absurd hd List.not_mem_nil
    rw [seen]
    cases hp : passed s j BinaryTree.nil t with
    | nil => exact absurd hp hne
    | node a l r =>
      rw [hp] at hgreater
      exact ⟨a, List.mem_append_right _ (root_subset_zigzag List.mem_cons_self),
        (hgreater a List.mem_cons_self).le⟩
  obtain hin | hin | ⟨hne, -⟩ := h.of_lt hs BinaryTree.nil hc hlt
  · exact ⟨c, List.mem_append_left _ hin, hle⟩
  · refine hpassed fun hnil => ?_
    rw [hnil] at hin
    exact absurd hin List.not_mem_nil
  · exact hpassed hne

/-- **The least one that is seen is the least one of the tree** exactly when that is along the
bits, or the root of what is passed last. -/
theorem IsDigital.isLeast_seen_iff (h : IsDigital key j q t) (hs : s / 2 ^ j = q)
    (hc : c ∈ seen s j t) (hle : s ≤ key c) (hmin : ∀ d ∈ seen s j t, s ≤ key d → key c ≤ key d) :
    IsLeast key s t c ↔
      ∃ d ∈ along s j t ++ root (passed s j BinaryTree.nil t), IsLeast key s t d := by
  constructor
  · intro hleast
    refine ⟨c, ?_, hleast⟩
    obtain hin | hin := List.mem_append.mp hc
    · exact List.mem_append_left _ hin
    · obtain ⟨j', q', hpassed⟩ := h.passed_digital s (u := BinaryTree.nil) ⟨0, 0, IsDigital.nil⟩
      have hgreater := h.lt_of_mem_passed (u := BinaryTree.nil) hs
        fun d hd => absurd hd List.not_mem_nil
      refine List.mem_append_right _ (hpassed.mem_root hin fun d hd => ?_)
      exact hleast.2.2 d (passed_nil_subset s j t d hd) (hgreater d hd).le
  · rintro ⟨d, hd, hleast⟩
    have hseen : d ∈ seen s j t := by
      obtain hd | hd := List.mem_append.mp hd
      · exact List.mem_append_left _ hd
      · exact List.mem_append_right _ (root_subset_zigzag hd)
    refine ⟨mem_of_mem_seen hc, hle, fun e he hse => ?_⟩
    exact (hmin d hseen hleast.2.1).trans (hleast.2.2 e he hse)

theorem IsDigital.isLeast_zigzag_iff (h : IsDigital key j q t) (hc : c ∈ zigzag t)
    (hmin : ∀ d ∈ zigzag t, key c ≤ key d) :
    (∀ d ∈ members t, key c ≤ key d) ↔ ∃ a ∈ root t, ∀ d ∈ members t, key a ≤ key d := by
  constructor
  · exact fun hleast => ⟨c, h.mem_root hc hleast, hleast⟩
  · rintro ⟨a, ha, hleast⟩ d hd
    exact (hmin a (root_subset_zigzag ha)).trans (hleast d hd)

end PhpRuntime.Lib.DigitalTree
