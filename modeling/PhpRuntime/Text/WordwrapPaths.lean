import PhpRuntime.Text.WordwrapCut

/-!
# The two loops of `wordwrap`

For a break of one byte, the loop in place and the loop with cutting keep their places together
until the second cuts a word. From then on it is a byte ahead of the text for good.
-/

set_option autoImplicit false

namespace PhpRuntime.Text

open PhpRuntime.Lib.LineLayout

variable {text : List UInt8} {width : ℕ} {b : UInt8}

/-- Filling lines greedily never cuts a word, and the text does not end in a break behind a full
line. `n` bytes are on the line, and `gap` is the place of its last space, or zero. -/
def uncut (b : UInt8) (width : ℕ) : List UInt8 → ℕ → ℕ → Prop
  | [], _, _ => True
  | c :: t, n, gap =>
    if c = b then (t = [] → b ≠ space → n < width) ∧ uncut b width t 0 0
    else if c = space then
      if width ≤ n then uncut b width t 0 0 else uncut b width t (n + 1) n
    else if n < width then uncut b width t (n + 1) gap
    else gap ≠ 0 ∧ uncut b width t (n - gap) 0

/-! ### Keeping together -/

/-- The two loops before the byte at `current`. -/
structure Together (text : List UInt8) (current : ℕ) (f : InPlace) (g : Lines) : Prop where
  current : g.current = current
  placed : g.Placed text
  laststart : f.laststart = g.laststart
  lastspace : f.lastspace - g.laststart = g.lastspace - g.laststart
  space : g.laststart < g.lastspace → text.getD g.lastspace 0 = space
  length : g.newtext.length = g.laststart
  newtext : f.newtext = g.newtext ++ text.drop g.laststart

variable {current : ℕ} {f : InPlace} {g : Lines}

theorem drop_eq_line {start stop : ℕ} (h : start ≤ stop) :
    text.drop start = (text.drop start).take (stop - start) ++ text.drop stop := by
  have hsum : start + (stop - start) = stop := by omega
  conv => lhs; rw [← List.take_append_drop (stop - start) (text.drop start), List.drop_drop, hsum]

theorem set_drop {start place : ℕ} (hstart : start ≤ place) (hplace : place < text.length)
    {newtext : List UInt8} (hlen : newtext.length = start) :
    (newtext ++ text.drop start).set place b =
      newtext ++ (text.drop start).take (place - start) ++ [b] ++ text.drop (place + 1) := by
  have hlt : place - start < (text.drop start).length := by
    rw [List.length_drop]
    omega
  rw [List.set_append_right _ _ (by omega), hlen, List.set_eq_take_append_cons_drop, if_pos hlt,
    List.drop_drop, List.append_assoc, List.append_assoc, List.singleton_append]
  congr 4
  omega

theorem atBreak_iff :
    Building.AtBreak text [b] current ↔ text.getD current 0 = b ∧ current + 1 < text.length := by
  rw [Building.AtBreak, List.headD_cons, List.length_singleton]
  constructor
  · exact fun h => ⟨h.1, h.2.1⟩
  · rintro ⟨heq, hlt⟩
    refine ⟨heq, hlt, ?_⟩
    have hhead : (text.drop current).headD 0 = b := by
      rw [List.drop_eq_getElem_cons (by omega), List.headD_cons,
        ← List.getD_eq_getElem _ 0 (by omega), heq]
    rw [strncmpEq, hhead, List.headD_cons, beq_self_eq_true, strncmpEq]
    simp

/-! ### Behind a cut -/

theorem ahead_step {k : ℕ} (hp : g.Placed text) (hcur : g.current < text.length)
    (h : g.laststart + k ≤ g.newtext.length) :
    (g.step text width [b]).laststart + k ≤ (g.step text width [b]).newtext.length := by
  have hstart := hp.laststart
  have hline {stop : ℕ} (hlow : g.laststart ≤ stop) (hhigh : stop ≤ text.length) :=
    Lines.length_line hlow hhigh
  rw [Lines.step]
  split_ifs with h1 h2 h3 h4 h5
  · have hl := hline (by omega) (le_of_lt h1.2.1)
    dsimp only
    rw [List.length_append]
    omega
  · have hl := hline hstart (le_of_lt hcur)
    simp only [List.length_append, List.length_singleton]
    omega
  · exact h
  · exact h
  · have hl := hline hstart (le_of_lt hcur)
    simp only [List.length_append, List.length_singleton]
    omega
  · have hspace := hp.lastspace (Nat.lt_of_not_le h5)
    have hl := hline (show g.laststart ≤ g.lastspace by omega) (by omega)
    simp only [List.length_append, List.length_singleton]
    omega

theorem ahead_run {k : ℕ} (n : ℕ) (hp : g.Placed text) (hn : text.length ≤ g.current + n)
    (h : g.laststart + k ≤ g.newtext.length) :
    text.length + k ≤ ((g.run text width [b] n).finish text).length := by
  induction n generalizing g with
  | zero =>
    have hl := Lines.length_line hp.laststart hp.current
    have hcur := hp.current
    rw [Lines.run, Lines.finish, List.length_append]
    omega
  | succ n ih =>
    by_cases hcur : g.current < text.length
    · have hmoved := Lines.current_lt_step (w := g) text width (List.cons_ne_nil b [])
      rw [Lines.run, if_pos hcur]
      exact ih (hp.step width hcur (List.cons_ne_nil b [])) (by omega) (ahead_step hp hcur h)
    · have hl := Lines.length_line hp.laststart hp.current
      rw [Lines.run_of_end hcur, Lines.finish, List.length_append]
      omega

theorem length_turn (width : ℕ) (b : UInt8) (f : InPlace) (current : ℕ) :
    (f.turn text width b current).newtext.length = f.newtext.length := by
  rw [InPlace.turn]
  split_ifs <;> simp

theorem length_foldl (width : ℕ) (b : UInt8) (f : InPlace) (l : List ℕ) :
    (l.foldl (InPlace.turn text width b) f).newtext.length = f.newtext.length := by
  induction l generalizing f with
  | nil => rfl
  | cons c l ih => rw [List.foldl_cons, ih, length_turn]

/-! ### A turn of both -/

/-- Where the next byte is a space or a break and neither loop ends there, or the line has room,
or a space to break at, the loops keep together. -/
theorem together_step (h : Together text current f g) (hcur : current < text.length)
    (hlast : text.getD current 0 = b → current + 1 < text.length)
    (hcut : text.getD current 0 ≠ b → text.getD current 0 ≠ space →
      g.laststart + width ≤ current → g.laststart < g.lastspace) :
    Together text (current + 1) (f.turn text width b current) (g.step text width [b]) := by
  obtain rfl := h.current
  have hp := h.placed
  have hstart := hp.laststart
  have hlen := h.length
  have hfull : ((width : ℤ) ≤ (g.current : ℤ) - g.laststart) ↔ g.laststart + width ≤ g.current := by
    omega
  have hline {stop : ℕ} (hlow : g.laststart ≤ stop) (hhigh : stop ≤ text.length) :=
    Lines.length_line hlow hhigh
  have hplaced := hp.step width hcur (List.cons_ne_nil b [])
  rw [Lines.step] at hplaced ⊢
  rw [InPlace.turn, h.laststart]
  by_cases h1 : text.getD g.current 0 = b
  · have hl := hline (show g.laststart ≤ g.current + 1 by omega) hcur
    have hat : Building.AtBreak text [b] g.current := atBreak_iff.mpr ⟨h1, hlast h1⟩
    rw [if_pos hat] at hplaced ⊢
    rw [if_pos h1]
    refine ⟨rfl, hplaced, rfl, ?_, fun hlt => absurd hlt (lt_irrefl _), ?_, ?_⟩
    · rfl
    · rw [List.length_append, List.length_singleton]
      dsimp only
      omega
    · rw [h.newtext, List.append_assoc, Lines.line, List.length_singleton,
        ← drop_eq_line (by omega)]
  have hat : ¬ Building.AtBreak text [b] g.current := fun hat => h1 (atBreak_iff.mp hat).1
  rw [if_neg hat] at hplaced ⊢
  rw [if_neg h1]
  by_cases h2 : text.getD g.current 0 = space
  · rw [if_pos h2] at hplaced ⊢
    rw [if_pos h2]
    by_cases h3 : g.laststart + width ≤ g.current
    · have hl := hline hstart (le_of_lt hcur)
      rw [if_pos h3] at hplaced ⊢
      rw [if_pos (hfull.mpr h3)]
      refine ⟨rfl, hplaced, rfl, rfl, fun hlt => absurd hlt (by simp), ?_, ?_⟩
      · simp only [List.length_append, List.length_singleton]
        omega
      · rw [h.newtext, set_drop hstart hcur hlen]
        rfl
    · rw [if_neg h3] at hplaced ⊢
      rw [if_neg (mt hfull.mp h3)]
      exact ⟨rfl, hplaced, rfl, rfl, fun _ => h2, hlen, h.newtext⟩
  rw [if_neg h2] at hplaced ⊢
  rw [if_neg h2]
  by_cases h3 : g.current < g.laststart + width
  · have hnot : ¬ ((width : ℤ) ≤ (g.current : ℤ) - g.laststart ∧ g.laststart ≠ f.lastspace) :=
      fun hand => absurd (hfull.mp hand.1) (not_le.mpr h3)
    rw [if_pos h3] at hplaced ⊢
    rw [if_neg hnot]
    exact ⟨rfl, hplaced, h.laststart, h.lastspace, h.space, hlen, h.newtext⟩
  · have hgap := hcut h1 h2 (not_lt.mp h3)
    have hsame : f.lastspace = g.lastspace := by
      have hdiff := h.lastspace
      omega
    have hspace := hp.lastspace hgap
    have hl := hline (le_of_lt hgap) (by omega)
    rw [if_neg h3, if_neg (not_le.mpr hgap)] at hplaced ⊢
    rw [if_pos ⟨hfull.mpr (not_lt.mp h3), by omega⟩, hsame]
    refine ⟨rfl, hplaced, rfl, ?_, fun hlt => absurd hlt (lt_irrefl _), ?_, ?_⟩
    · dsimp only
      omega
    · simp only [List.length_append, List.length_singleton]
      omega
    · rw [h.newtext, set_drop (le_of_lt hgap) (by omega) hlen]
      rfl

theorem uncut_step (h : Together text current f g) (hcur : current < text.length)
    (hlast : text.getD current 0 = b → current + 1 < text.length)
    (hcut : text.getD current 0 ≠ b → text.getD current 0 ≠ space →
      g.laststart + width ≤ current → g.laststart < g.lastspace) :
    uncut b width (text.drop current) (current - g.laststart) (g.lastspace - g.laststart) ↔
      uncut b width (text.drop (current + 1))
        (current + 1 - (g.step text width [b]).laststart)
        ((g.step text width [b]).lastspace - (g.step text width [b]).laststart) := by
  obtain rfl := h.current
  have hstart := h.placed.laststart
  rw [Lines.drop_current hcur, uncut, Lines.step]
  by_cases h1 : text.getD g.current 0 = b
  · have hat : Building.AtBreak text [b] g.current := atBreak_iff.mpr ⟨h1, hlast h1⟩
    have hmore : text.drop (g.current + 1) ≠ [] := List.ne_nil_of_length_pos (by
      rw [List.length_drop]
      have := hlast h1
      omega)
    rw [if_pos h1, if_pos hat, and_iff_right fun hnil => absurd hnil hmore]
    simp only [List.length_singleton, Nat.sub_self]
  have hat : ¬ Building.AtBreak text [b] g.current := fun hat => h1 (atBreak_iff.mp hat).1
  rw [if_neg h1, if_neg hat]
  by_cases h2 : text.getD g.current 0 = space
  · rw [if_pos h2, if_pos h2]
    by_cases h3 : g.laststart + width ≤ g.current
    · rw [if_pos h3, if_pos (by omega)]
      simp only [Nat.sub_self, Nat.sub_eq_zero_of_le (Nat.le_succ g.current)]
    · rw [if_neg h3, if_neg (by omega), Nat.succ_sub hstart]
  rw [if_neg h2, if_neg h2]
  by_cases h3 : g.current < g.laststart + width
  · rw [if_pos h3, if_pos (by omega), Nat.succ_sub hstart]
  · have hgap := hcut h1 h2 (not_lt.mp h3)
    have hne : g.lastspace - g.laststart ≠ 0 := Nat.sub_ne_zero_of_lt hgap
    have hleft : g.current - g.laststart - (g.lastspace - g.laststart) =
        g.current + 1 - (g.lastspace + 1) := by omega
    rw [if_neg h3, if_neg (by omega), if_neg (not_le.mpr hgap), and_iff_right hne, hleft]
    simp only [Nat.sub_self]

/-! ### Where they part -/

theorem paths_last (h : Together text current f g) (hcur : current + 1 = text.length)
    (hb : text.getD current 0 = b) :
    (f.turn text width b current).newtext = (g.step text width [b]).finish text ↔
      (b ≠ space → current - g.laststart < width) := by
  obtain rfl := h.current
  have hlt : g.current < text.length := by omega
  have hstart := h.placed.laststart
  have hat : ¬ Building.AtBreak text [b] g.current := fun hat =>
    absurd (atBreak_iff.mp hat).2 (by omega)
  have hrest {stop : ℕ} (hstop : g.laststart ≤ stop) :
      f.newtext = g.newtext ++ ((text.drop g.laststart).take (stop - g.laststart) ++
        text.drop stop) := by
    rw [← drop_eq_line hstop, h.newtext]
  have hnil : text.drop (g.current + 1) = [] := List.drop_eq_nil_of_le (by omega)
  have hturn : (f.turn text width b g.current).newtext = f.newtext := by
    rw [InPlace.turn, if_pos hb]
  rw [hturn, Lines.step, if_neg hat]
  have hstay : f.newtext = g.newtext ++
      (text.drop g.laststart).take (g.current + 1 - g.laststart) := by
    rw [hrest (Nat.le_succ_of_le hstart), hnil, List.append_nil]
  by_cases hspace : b = space
  · refine iff_of_true ?_ fun hne => absurd hspace hne
    rw [if_pos (hb.trans hspace)]
    by_cases h3 : g.laststart + width ≤ g.current
    · rw [if_pos h3]
      simp only [Lines.finish, Lines.line]
      rw [Lines.line_self, List.append_nil, hrest hstart, Lines.drop_current hlt, hnil, hb,
        List.append_assoc]
    · rw [if_neg h3]
      exact hstay
  rw [if_neg fun hs => hspace (hb.symm.trans hs), forall_prop_of_true hspace]
  by_cases h3 : g.current < g.laststart + width
  · rw [if_pos h3]
    exact iff_of_true hstay (by omega)
  refine iff_of_false ?_ (by omega)
  rw [if_neg h3]
  by_cases h4 : g.lastspace ≤ g.laststart
  · rw [if_pos h4, hrest hstart, Lines.drop_current hlt, hnil, hb]
    intro heq
    have hlen := congrArg List.length heq
    simp only [Lines.finish, Lines.line, List.length_append, List.length_singleton,
      List.length_take, List.length_drop] at hlen
    omega
  · have hgap : g.laststart < g.lastspace := not_le.mp h4
    have hbefore := h.placed.lastspace hgap
    have hin : g.lastspace < text.length := by omega
    rw [if_neg h4, hrest (le_of_lt hgap)]
    simp only [Lines.finish, Lines.line]
    rw [List.append_assoc, List.append_assoc, List.append_cancel_left_eq,
      List.append_cancel_left_eq, List.drop_eq_getElem_cons hin, ← List.getD_eq_getElem _ 0 hin,
      h.space hgap]
    intro heq
    exact hspace (List.cons.inj heq).1.symm

theorem paths_cut {n : ℕ} (h : Together text current f g) (hcur : current < text.length)
    (hn : text.length ≤ current + 1 + n) (h1 : text.getD current 0 ≠ b)
    (h2 : text.getD current 0 ≠ space) (h3 : g.laststart + width ≤ current)
    (h4 : g.lastspace ≤ g.laststart) :
    text.length < (((g.step text width [b]).run text width [b] n).finish text).length := by
  obtain rfl := h.current
  have hat : ¬ Building.AtBreak text [b] g.current := fun hat => h1 (atBreak_iff.mp hat).1
  have hp := h.placed.step width hcur (List.cons_ne_nil b [])
  have hl := Lines.length_line h.placed.laststart (le_of_lt hcur)
  have hlen := h.length
  rw [Lines.step, if_neg hat, if_neg h2, if_neg (not_lt.mpr h3), if_pos h4] at hp ⊢
  refine Nat.lt_of_succ_le (ahead_run (k := 1) n hp hn ?_)
  simp only [List.length_append, List.length_singleton]
  omega

theorem length_newtext (h : Together text current f g) : f.newtext.length = text.length := by
  have hstart := h.placed.laststart
  have hcur := h.placed.current
  rw [h.newtext, List.length_append, List.length_drop, h.length]
  omega

/-- **The two loops agree** exactly when no word is cut. -/
theorem paths_agree (width : ℕ) (b : UInt8) (n : ℕ) (h : Together text current f g) (hn : current + n = text.length) :
    ((List.range' current n).foldl (InPlace.turn text width b) f).newtext =
        (g.run text width [b] n).finish text ↔
      uncut b width (text.drop current) (current - g.laststart) (g.lastspace - g.laststart) := by
  induction n generalizing current f g with
  | zero =>
    have hend : text.length ≤ current := by omega
    obtain rfl := h.current
    rw [List.drop_eq_nil_of_le hend, uncut, iff_true, Lines.run, Lines.finish, Lines.line,
      List.take_of_length_le]
    · exact h.newtext
    · rw [List.length_drop]
      omega
  | succ n ih =>
    have hcur : current < text.length := by omega
    have hg : g.current < text.length := by rwa [h.current]
    rw [List.range'_succ, List.foldl_cons, Lines.run, if_pos hg]
    by_cases hlast : text.getD current 0 = b ∧ current + 1 = text.length
    · have hzero : n = 0 := by omega
      have hnil : text.drop (current + 1) = [] := List.drop_eq_nil_of_le (by omega)
      rw [hzero, List.range'_zero, List.foldl_nil, Lines.run, paths_last h hlast.2 hlast.1,
        ← h.current, Lines.drop_current hg, h.current, uncut, if_pos hlast.1, hnil,
        forall_prop_of_true rfl, uncut, and_true]
    by_cases hcut : text.getD current 0 ≠ b ∧ text.getD current 0 ≠ space ∧
        g.laststart + width ≤ current ∧ g.lastspace ≤ g.laststart
    · obtain ⟨h1, h2, h3, h4⟩ := hcut
      refine iff_of_false ?_ ?_
      · intro heq
        have hlen := congrArg List.length heq
        have hahead := paths_cut (n := n) h hcur (by omega) h1 h2 h3 h4
        rw [length_foldl, length_turn, length_newtext h] at hlen
        omega
      · have hgap : ¬ (g.lastspace - g.laststart ≠ 0) := by omega
        obtain rfl := h.current
        rw [Lines.drop_current hcur, uncut, if_neg h1, if_neg h2, if_neg (by omega)]
        exact fun huncut => hgap huncut.1
    · have hlast' : text.getD current 0 = b → current + 1 < text.length := fun hb =>
        lt_of_le_of_ne hcur fun heq => hlast ⟨hb, heq⟩
      have hcut' : text.getD current 0 ≠ b → text.getD current 0 ≠ space →
          g.laststart + width ≤ current → g.laststart < g.lastspace := fun h1 h2 h3 =>
        lt_of_not_ge fun h4 => hcut ⟨h1, h2, h3, h4⟩
      rw [ih (together_step h hcur hlast' hcut') (by omega), uncut_step h hcur hlast' hcut']

/-! ### The layout of the stretches between the breaks -/

/-- No line of the layout is cut where there is no space. -/
def Whole (p : List (List UInt8 × Bool) × List UInt8) : Prop := ∀ l ∈ p.1, l.2 = true

/-- `uncut` with the layouts: `p` is the layout of the stretch begun, and `qs` are the stretches
behind it. -/
def Clean (b : UInt8) (width : ℕ) :
    List (List UInt8 × Bool) × List UInt8 → List (List UInt8) → Prop
  | p, [] => Whole p
  | p, q :: qs =>
    Whole p ∧ (q = [] → qs = [] → b ≠ space → p.2.length < width) ∧
      Clean b width (layoutOf q width) qs

theorem whole_cons {l : List UInt8 × Bool} {ls : List (List UInt8 × Bool)} {m : List UInt8} :
    Whole (l :: ls, m) ↔ l.2 = true ∧ Whole (ls, m) := by
  rw [Whole, List.forall_mem_cons, Whole]

theorem clean_cons {l : List UInt8 × Bool} {ls : List (List UInt8 × Bool)} {m : List UInt8}
    {qs : List (List UInt8)} :
    Clean b width (l :: ls, m) qs ↔ l.2 = true ∧ Clean b width (ls, m) qs := by
  cases qs with
  | nil => exact whole_cons
  | cons q qs => rw [Clean, Clean, whole_cons, and_assoc]

theorem split_eq_nil {t : List UInt8} {qs : List (List UInt8)} (h : split [b] t = [] :: qs)
    (hqs : qs = []) : t = [] := by
  cases t with
  | nil => rfl
  | cons c t =>
    by_cases hc : c = b
    · have hsep := split_sep (List.cons_ne_nil b []) t
      rw [List.singleton_append, ← hc] at hsep
      rw [← hc, hsep] at h
      exact absurd ((List.cons.inj h).2.trans hqs) (split_ne_nil _ _)
    · have hnot : c ∉ [b] := by simpa using hc
      obtain ⟨l, ls, -, heq⟩ := split_cons hnot t
      rw [heq] at h
      cases (List.cons.inj h).1

theorem uncut_iff_clean (t cur : List UInt8) (gap : ℕ) {q : List UInt8} {qs : List (List UInt8)}
    (hsplit : split [b] t = q :: qs) (hgap : gap = 0 ∨ gap < cur.length) :
    uncut b width t cur.length gap ↔ Clean b width (layout space width q cur gap) qs := by
  induction t generalizing cur gap q qs with
  | nil =>
    rw [split, List.cons.injEq] at hsplit
    obtain ⟨rfl, rfl⟩ := hsplit
    simp [uncut, Clean, layout, Whole]
  | cons c t ih =>
    rw [uncut]
    by_cases hc : c = b
    · obtain rfl := hc
      have hsep : split [c] (c :: t) = [] :: split [c] t := split_sep (List.cons_ne_nil c []) t
      rw [hsep, List.cons.injEq] at hsplit
      obtain ⟨rfl, rfl⟩ := hsplit
      obtain ⟨q, qs, ht⟩ := List.exists_cons_of_ne_nil (split_ne_nil [c] t)
      have hnext : uncut c width t 0 0 ↔ Clean c width (layoutOf q width) qs :=
        ih [] 0 ht (Or.inl rfl)
      have hempty : t = [] ↔ q = [] ∧ qs = [] := by
        constructor
        · rintro rfl
          rw [split, List.cons.injEq] at ht
          exact ⟨ht.1.symm, ht.2.symm⟩
        · rintro ⟨rfl, hqs⟩
          exact split_eq_nil ht hqs
      rw [if_pos rfl, ht, layout, Clean, hnext, hempty, and_imp]
      exact (and_iff_right (fun l hl => by cases hl)).symm
    · have hnot : c ∉ [b] := by simpa using hc
      obtain ⟨l, ls, ht, hct⟩ := split_cons hnot t
      rw [hct, List.cons.injEq] at hsplit
      obtain ⟨rfl, rfl⟩ := hsplit
      have hsucc (x : UInt8) : (cur ++ [x]).length = cur.length + 1 := by simp
      rw [if_neg hc, layout]
      by_cases h2 : c = space
      · rw [if_pos h2, if_pos h2]
        by_cases h3 : width ≤ cur.length
        · rw [if_pos h3, if_pos h3, clean_cons, and_iff_right rfl]
          exact ih [] 0 ht (Or.inl rfl)
        · rw [if_neg h3, if_neg h3, ← hsucc c]
          exact ih _ _ ht (by rw [hsucc]; omega)
      rw [if_neg h2, if_neg h2]
      by_cases h3 : cur.length < width
      · rw [if_pos h3, if_pos h3, ← hsucc c]
        exact ih _ _ ht (by rw [hsucc]; omega)
      rw [if_neg h3, if_neg h3]
      by_cases h4 : gap = 0
      · rw [if_pos h4, clean_cons]
        exact iff_of_false (fun h => h.1 h4) (fun h => by cases h.1)
      · rw [if_neg h4, clean_cons, and_iff_right rfl, and_iff_right h4]
        have hlen : (cur.drop (gap + 1) ++ [c]).length = cur.length - gap := by
          rw [List.length_append, List.length_drop, List.length_singleton]
          omega
        rw [← hlen]
        exact ih _ _ ht (Or.inl rfl)

/-- No word of a text is cut when the stretches between its breaks are laid out, and a break at
its end that is no space follows a line with room. -/
def NoWordCut (text : List UInt8) (b : UInt8) (width : ℕ) : Prop :=
  (∀ p ∈ split [b] text, Whole (layoutOf p width)) ∧
    (b ≠ space → ∀ ps p, split [b] text = ps ++ [p, []] → (layoutOf p width).2.length < width)

theorem clean_iff (q : List UInt8) (qs : List (List UInt8)) :
    Clean b width (layoutOf q width) qs ↔
      (∀ p ∈ q :: qs, Whole (layoutOf p width)) ∧
        (b ≠ space → ∀ ps p, q :: qs = ps ++ [p, []] → (layoutOf p width).2.length < width) := by
  induction qs generalizing q with
  | nil =>
    rw [Clean, List.forall_mem_singleton]
    refine (and_iff_left fun _ ps p heq => ?_).symm
    have hlen := congrArg List.length heq
    simp only [List.length_append, List.length_cons, List.length_nil] at hlen
    omega
  | cons r rs ih =>
    rw [Clean, ih r, List.forall_mem_cons (a := q)]
    constructor
    · rintro ⟨hq, hlast, hwhole, hrest⟩
      refine ⟨⟨hq, hwhole⟩, fun hb ps p heq => ?_⟩
      cases ps with
      | nil =>
        rw [List.nil_append, List.cons.injEq, List.cons.injEq] at heq
        obtain ⟨rfl, hr, hrs⟩ := heq
        exact hlast hr hrs hb
      | cons x ps => exact hrest hb ps p (List.cons.inj heq).2
    · rintro ⟨⟨hq, hwhole⟩, hrest⟩
      refine ⟨hq, ?_, hwhole, fun hb ps p heq => hrest hb (q :: ps) p ?_⟩
      · rintro rfl rfl hb
        exact hrest hb [] q rfl
      · rw [heq, List.cons_append]

theorem uncut_iff : uncut b width text 0 0 ↔ NoWordCut text b width := by
  obtain ⟨q, qs, hsplit⟩ := List.exists_cons_of_ne_nil (split_ne_nil [b] text)
  have hclean : uncut b width text 0 0 ↔ Clean b width (layoutOf q width) qs :=
    uncut_iff_clean text [] 0 hsplit (Or.inl rfl)
  rw [hclean, NoWordCut, hsplit, clean_iff]

/-- **The two paths of `wordwrap`** give the same result exactly when the general one cuts no
word, and has no break at the end behind a full line, in an `int`. -/
theorem wordwrap_paths (text : List UInt8) (b : UInt8) (width : ℕ) (hwidth : 0 < width) :
    wordwrap text width [b] false = wordwrap text width [b] true ↔
      (text = [] ∨ Building.Fits text.length width 1) ∧ NoWordCut text b width := by
  by_cases htext : text = []
  · rw [wordwrap, wordwrap, if_pos htext, if_pos htext, ← uncut_iff, htext, uncut]
    simp
  have hone : [b].length = 1 ∧ false = false := ⟨rfl, rfl⟩
  have hne : [b] ≠ [] := List.cons_ne_nil b []
  have hstart : Together text 0 (⟨text, 0, 0⟩ : InPlace) (⟨[], 0, 0, 0⟩ : Lines) :=
    ⟨rfl, ⟨Nat.zero_le _, le_rfl, fun hlt => absurd hlt (lt_irrefl 0)⟩, rfl, rfl,
      fun hlt => absurd hlt (lt_irrefl 0), rfl, rfl⟩
  have hagree := paths_agree width b text.length hstart (Nat.zero_add _)
  have hfast : wordwrap text width [b] false =
      .ok (some (InPlace.turns text width b text.length).newtext) := by
    rw [wordwrap, if_neg htext, if_neg hne, if_neg (by simp), if_pos hone, List.headD_cons]
  have hlen : (InPlace.turns text width b text.length).newtext.length = text.length :=
    length_foldl width b _ _
  rw [← List.range_eq_range', Nat.sub_zero, List.drop_zero, uncut_iff] at hagree
  change (InPlace.turns text width b text.length).newtext = wrapped text width [b] ↔ _ at hagree
  rw [hfast, wordwrap_eq htext hne hwidth, or_iff_right htext, List.length_singleton]
  constructor
  · intro heq
    by_cases hints : Building.Fits text.length width 1 ∧
        ((wrapped text width [b]).length : ℤ) < INT_MAX
    · rw [if_pos hints, Except.ok.injEq, Option.some.injEq] at heq
      exact ⟨hints.1, hagree.mp heq⟩
    · rw [if_neg hints] at heq
      cases heq
  · rintro ⟨hfit, hclean⟩
    have heq := hagree.mpr hclean
    have hint : ((wrapped text width [b]).length : ℤ) < INT_MAX := by
      rw [← heq, hlen]
      rw [Building.Fits] at hfit
      omega
    rw [if_pos ⟨hfit, hint⟩, heq]

theorem wordwrap_paths_space :
    wordwrap [97, 97, 32, 97] 2 [10] false = wordwrap [97, 97, 32, 97] 2 [10] true :=
  (wordwrap_paths [97, 97, 32, 97] 10 2 (by decide)).mpr ⟨Or.inr (by decide), by
    rw [← uncut_iff]
    simp [uncut, space]⟩

/-- No stretch without a space or a break is longer than the width. -/
def ShortWords (text : List UInt8) (b : UInt8) (width : ℕ) : Prop :=
  ∀ u word v, text = u ++ word ++ v → (∀ c ∈ word, c ≠ space ∧ c ≠ b) → word.length ≤ width

/-- A space and then a word that is as long as the line. -/
theorem wordwrap_paths_differ :
    ¬ (ShortWords [32, 97, 97, 97, 97] 10 4 →
      wordwrap [32, 97, 97, 97, 97] 4 [10] false =
        wordwrap [32, 97, 97, 97, 97] 4 [10] true) := by
  intro h
  have hshort : ShortWords [32, 97, 97, 97, 97] 10 4 := by
    intro u word v heq hword
    by_contra hlong
    have hlen := congrArg List.length heq
    simp only [List.length_append, List.length_cons, List.length_nil] at hlen
    have hu : u = [] := List.eq_nil_of_length_eq_zero (by omega)
    rw [hu, List.nil_append] at heq
    cases word with
    | nil => simp at hlong
    | cons c word =>
      rw [List.cons_append, List.cons.injEq] at heq
      exact (hword c List.mem_cons_self).1 heq.1.symm
  have heq := h hshort
  have hfast : wordwrap [32, 97, 97, 97, 97] 4 [10] false = .ok (some [32, 97, 97, 97, 97]) := rfl
  have hcut : wordwrap [32, 97, 97, 97, 97] 4 [10] true =
      .ok (some [32, 97, 97, 97, 10, 97]) := rfl
  rw [hfast, hcut] at heq
  cases heq

end PhpRuntime.Text
