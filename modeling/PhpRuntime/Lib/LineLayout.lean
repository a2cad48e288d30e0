import Mathlib.Data.List.Basic
import Mathlib.Data.List.Infix
import Mathlib.Data.Nat.Notation

/-!
# Breaking a text into lines

A text is laid out greedily in lines of a given width: a line that is full ends at its last
blank, which is left out, or is cut where it is full when it has none behind its first place.
Here is the layout, what a text with breaks put into it is, and the splitting of a text at a
separator, which undoes the breaking when no symbol of the separator is in the text.
-/

set_option autoImplicit false

namespace PhpRuntime.Lib.LineLayout

variable {α : Type} [DecidableEq α]

/-! ### Splitting -/

/-- The parts of a text between the leftmost occurrences of a separator that do not overlap. -/
def split (sep : List α) : List α → List (List α)
  | [] => [[]]
  | c :: s =>
    if sep ≠ [] ∧ sep <+: c :: s then [] :: split sep ((c :: s).drop sep.length)
    else
      match split sep s with
      | [] => [[c]]
      | l :: ls => (c :: l) :: ls
termination_by s => s.length
decreasing_by
  · rename_i h
    have hpos : 0 < sep.length := List.length_pos_of_ne_nil h.1
    simp only [List.length_drop, List.length_cons]
    omega
  · simp

variable {sep l r : List α} {c : α}

theorem split_ne_nil (sep s : List α) : split sep s ≠ [] := by
  cases s with
  | nil =>
    rw [split]
    simp
  | cons c s =>
    rw [split]
    split
    · simp
    · cases LineLayout.split sep s <;> simp

theorem split_cons (hc : c ∉ sep) (s : List α) :
    ∃ l ls, split sep s = l :: ls ∧ split sep (c :: s) = (c :: l) :: ls := by
  have hno : ¬ (sep ≠ [] ∧ sep <+: c :: s) := by
    rintro ⟨hne, hpre⟩
    cases sep with
    | nil => exact hne rfl
    | cons a sep =>
      rw [List.cons_prefix_cons] at hpre
      exact hc (by simp [hpre.1])
  cases hs : split sep s with
  | nil => exact absurd hs (split_ne_nil sep s)
  | cons l ls =>
    refine ⟨l, ls, rfl, ?_⟩
    rw [split, if_neg hno, hs]

theorem split_append (hl : ∀ c ∈ l, c ∉ sep) (s : List α) :
    ∃ m ms, split sep s = m :: ms ∧ split sep (l ++ s) = (l ++ m) :: ms := by
  induction l with
  | nil =>
    cases hs : split sep s with
    | nil => exact absurd hs (split_ne_nil sep s)
    | cons m ms => exact ⟨m, ms, rfl, hs⟩
  | cons c l ih =>
    obtain ⟨m, ms, hs, hls⟩ := ih fun x hx => hl x (List.mem_cons_of_mem _ hx)
    obtain ⟨m', ms', hs', hcs⟩ := split_cons (hl c (by simp)) (l ++ s)
    rw [hls, List.cons.injEq] at hs'
    obtain ⟨rfl, rfl⟩ := hs'
    exact ⟨m, ms, hs, hcs⟩

theorem split_sep (hne : sep ≠ []) (s : List α) : split sep (sep ++ s) = [] :: split sep s := by
  cases sep with
  | nil => exact absurd rfl hne
  | cons a sep =>
    rw [List.cons_append, split, if_pos]
    · congr 1
      rw [← List.cons_append, List.drop_left]
    · exact ⟨hne, by simp⟩

theorem split_line (hne : sep ≠ []) (hl : ∀ c ∈ l, c ∉ sep) (s : List α) :
    split sep (l ++ (sep ++ s)) = l :: split sep s := by
  obtain ⟨m, ms, hs, hls⟩ := split_append hl (sep ++ s)
  rw [split_sep hne, List.cons.injEq] at hs
  obtain ⟨rfl, rfl⟩ := hs
  rw [hls, List.append_nil]

theorem split_last (hl : ∀ c ∈ l, c ∉ sep) : split sep l = [l] := by
  obtain ⟨m, ms, hs, hls⟩ := split_append hl []
  rw [split, List.cons.injEq] at hs
  obtain ⟨rfl, rfl⟩ := hs
  rw [List.append_nil] at hls
  exact hls

/-! ### Texts with breaks -/

/-- The text with breaks, each of which stands for a blank or between two symbols that follow
one another. -/
inductive Broken (blank : α) (brk : List α) : List α → List α → Prop
  | last (l : List α) : Broken blank brk l l
  | replace {t r : List α} (l : List α) (h : Broken blank brk t r) :
    Broken blank brk (l ++ blank :: t) (l ++ (brk ++ r))
  | insert {t r : List α} {a : α} (l : List α) (hl : l ≠ []) (h : Broken blank brk (a :: t) r) :
    Broken blank brk (l ++ a :: t) (l ++ (brk ++ r))

/-! ### The layout -/

/-- The lines of a text behind the line `cur` begun so far, each with whether a blank was left
out behind it, and the last line. `gap` is the place of the last blank on the line, or zero. -/
def layout (blank : α) (width : ℕ) : List α → List α → ℕ → List (List α × Bool) × List α
  | [], cur, _ => ([], cur)
  | c :: t, cur, gap =>
    if c = blank then
      if width ≤ cur.length then
        ((cur, true) :: (layout blank width t [] 0).1, (layout blank width t [] 0).2)
      else layout blank width t (cur ++ [c]) cur.length
    else if cur.length < width then layout blank width t (cur ++ [c]) gap
    else if gap = 0 then
      ((cur, false) :: (layout blank width t [c] 0).1, (layout blank width t [c] 0).2)
    else
      let next := layout blank width t (cur.drop (gap + 1) ++ [c]) 0
      ((cur.take gap, true) :: next.1, next.2)

/-- The lines with a break behind each but the last. -/
def render (brk : List α) (p : List (List α × Bool) × List α) : List α :=
  (p.1.map fun l => l.1 ++ brk).flatten ++ p.2

variable {blank : α} {width gap : ℕ} {t cur brk : List α}

omit [DecidableEq α] in
theorem render_cons (brk : List α) (l : List α × Bool) (ls : List (List α × Bool)) (m : List α) :
    render brk (l :: ls, m) = l.1 ++ (brk ++ render brk (ls, m)) := by
  simp only [render, List.map_cons, List.flatten_cons, List.append_assoc]

/-- The last blank of the line is where `gap` says. -/
def GapOk (blank : α) (cur : List α) (gap : ℕ) : Prop :=
  gap = 0 ∨ ∃ l m, cur = l ++ blank :: m ∧ l.length = gap

omit [DecidableEq α] in
theorem GapOk.append (h : GapOk blank cur gap) (m : List α) : GapOk blank (cur ++ m) gap := by
  rcases h with h | ⟨l, n, rfl, hl⟩
  · exact Or.inl h
  · exact Or.inr ⟨l, n ++ m, by simp, hl⟩

omit [DecidableEq α] in
theorem GapOk.split (h : GapOk blank cur gap) (h0 : gap ≠ 0) :
    cur = cur.take gap ++ blank :: cur.drop (gap + 1) := by
  rcases h with h | ⟨l, m, rfl, rfl⟩
  · exact absurd h h0
  · rw [List.take_left, ← List.drop_drop, List.drop_left]
    rfl

/-- What the layout of a text has: no line is wider than the width, it is the text with breaks,
and its lines have symbols of the text only. -/
structure LaidOut (blank : α) (width : ℕ) (text : List α) (p : List (List α × Bool) × List α) :
    Prop where
  width : (∀ l ∈ p.1, l.1.length ≤ width) ∧ p.2.length ≤ width
  broken : ∀ brk, Broken blank brk text (render brk p)
  mem : (∀ l ∈ p.1, ∀ c ∈ l.1, c ∈ text) ∧ ∀ c ∈ p.2, c ∈ text
  symbols : ((p.1.map Prod.fst).flatten ++ p.2).filter (· ≠ blank) = text.filter (· ≠ blank)

variable {p : List (List α × Bool) × List α}

theorem LaidOut.replace (h : LaidOut blank width t p) (hl : l.length ≤ width) :
    LaidOut blank width (l ++ blank :: t) ((l, true) :: p.1, p.2) := by
  refine ⟨⟨?_, h.width.2⟩, fun brk => ?_, ⟨?_, ?_⟩, ?_⟩
  · intro m hm
    rcases List.mem_cons.mp hm with rfl | hm
    · exact hl
    · exact h.width.1 m hm
  · rw [render_cons]
    exact Broken.replace l (h.broken brk)
  · intro m hm c hc
    rcases List.mem_cons.mp hm with rfl | hm
    · exact List.mem_append_left _ hc
    · exact List.mem_append_right _ (List.mem_cons_of_mem _ (h.mem.1 m hm c hc))
  · exact fun c hc => List.mem_append_right _ (List.mem_cons_of_mem _ (h.mem.2 c hc))
  · simp only [List.map_cons, List.flatten_cons, List.append_assoc]
    rw [List.filter_append, h.symbols, List.filter_append]
    simp

theorem LaidOut.insert {a : α} (h : LaidOut blank width (a :: t) p) (hl : l.length ≤ width)
    (hne : l ≠ []) : LaidOut blank width (l ++ a :: t) ((l, false) :: p.1, p.2) := by
  refine ⟨⟨?_, h.width.2⟩, fun brk => ?_, ⟨?_, ?_⟩, ?_⟩
  · intro m hm
    rcases List.mem_cons.mp hm with rfl | hm
    · exact hl
    · exact h.width.1 m hm
  · rw [render_cons]
    exact Broken.insert l hne (h.broken brk)
  · intro m hm c hc
    rcases List.mem_cons.mp hm with rfl | hm
    · exact List.mem_append_left _ hc
    · exact List.mem_append_right _ (h.mem.1 m hm c hc)
  · exact fun c hc => List.mem_append_right _ (h.mem.2 c hc)
  · simp only [List.map_cons, List.flatten_cons, List.append_assoc]
    rw [List.filter_append, h.symbols, List.filter_append]

/-- **The layout of a text.** -/
theorem laidOut_layout (hwidth : 0 < width) (t cur : List α) (gap : ℕ)
    (hcur : cur.length ≤ width) (hgap : GapOk blank cur gap) :
    LaidOut blank width (cur ++ t) (layout blank width t cur gap) := by
  induction t generalizing cur gap with
  | nil =>
    rw [List.append_nil, layout]
    exact ⟨⟨by simp, hcur⟩, fun brk => Broken.last cur, ⟨by simp, fun c hc => hc⟩, by simp⟩
  | cons c t ih =>
    rw [layout]
    by_cases hc : c = blank
    · rw [if_pos hc, hc]
      by_cases hfull : width ≤ cur.length
      · rw [if_pos hfull]
        exact (ih [] 0 (Nat.zero_le _) (Or.inl rfl)).replace hcur
      · rw [if_neg hfull]
        have hnext := ih (cur ++ [blank]) cur.length
          (by rw [List.length_append, List.length_singleton]; omega)
          (Or.inr ⟨cur, [], rfl, rfl⟩)
        rwa [List.append_assoc] at hnext
    · rw [if_neg hc]
      by_cases hroom : cur.length < width
      · rw [if_pos hroom]
        have hnext := ih (cur ++ [c]) gap
          (by rw [List.length_append, List.length_singleton]; omega) (hgap.append [c])
        rwa [List.append_assoc] at hnext
      · rw [if_neg hroom]
        by_cases h0 : gap = 0
        · rw [if_pos h0]
          refine (ih [c] 0 hwidth (Or.inl rfl)).insert hcur fun hnil => ?_
          rw [hnil] at hroom
          exact hroom hwidth
        · rw [if_neg h0]
          have hlen : (cur.drop (gap + 1) ++ [c]).length ≤ width := by
            rw [List.length_append, List.length_drop, List.length_singleton]
            omega
          have hnext := (ih (cur.drop (gap + 1) ++ [c]) 0 hlen (Or.inl rfl)).replace
            (l := cur.take gap) (by rw [List.length_take]; omega)
          conv => arg 3; rw [hgap.split h0]
          simpa using hnext

/-- **Splitting undoes the breaking** when no symbol of the break is in the text. -/
theorem split_render (hne : brk ≠ []) (p : List (List α × Bool) × List α)
    (hmem : (∀ l ∈ p.1, ∀ c ∈ l.1, c ∉ brk) ∧ ∀ c ∈ p.2, c ∉ brk) :
    split brk (render brk p) = p.1.map Prod.fst ++ [p.2] := by
  obtain ⟨ls, m⟩ := p
  obtain ⟨hls, hm⟩ := hmem
  induction ls with
  | nil => exact split_last hm
  | cons l ls ih =>
    rw [render_cons, split_line hne (hls l (by simp)),
      ih (fun x hx => hls x (List.mem_cons_of_mem _ hx)) hm]
    rfl

end PhpRuntime.Lib.LineLayout
