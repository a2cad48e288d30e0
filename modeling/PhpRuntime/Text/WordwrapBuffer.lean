import PhpRuntime.Text.Wordwrap
import Mathlib.Tactic.Ring

/-!
# The buffer of `wordwrap`

The lines that the loop with cutting makes, without the buffer they are written to, and that the
buffer holds them: `chk` breaks and the rest of the text always fit into it.
-/

set_option autoImplicit false

namespace PhpRuntime.Text

open PhpRuntime.Lib (ok_bind error_bind)

variable {text breakchar : List UInt8} {width : ℕ}

/-! ### The lines without the buffer -/

/-- What the loop knows of the lines: the bytes written, and its places in the text. -/
structure Lines where
  newtext : List UInt8
  current : ℕ
  laststart : ℕ
  lastspace : ℕ
  deriving DecidableEq, Repr

namespace Lines

/-- The bytes of the text from `laststart` up to `stop`. -/
def line (text : List UInt8) (w : Lines) (stop : ℕ) : List UInt8 :=
  (text.drop w.laststart).take (stop - w.laststart)

def step (text : List UInt8) (width : ℕ) (breakchar : List UInt8) (w : Lines) : Lines :=
  if Building.AtBreak text breakchar w.current then
    ⟨w.newtext ++ line text w (w.current + breakchar.length), w.current + breakchar.length,
      w.current + breakchar.length, w.current + breakchar.length⟩
  else if text.getD w.current 0 = space then
    if w.laststart + width ≤ w.current then
      ⟨w.newtext ++ line text w w.current ++ breakchar, w.current + 1, w.current + 1, w.current⟩
    else { w with current := w.current + 1, lastspace := w.current }
  else if w.current < w.laststart + width then { w with current := w.current + 1 }
  else if w.lastspace ≤ w.laststart then
    ⟨w.newtext ++ line text w w.current ++ breakchar, w.current + 1, w.current, w.current⟩
  else
    ⟨w.newtext ++ line text w w.lastspace ++ breakchar, w.current + 1, w.lastspace + 1,
      w.lastspace + 1⟩

def run (text : List UInt8) (width : ℕ) (breakchar : List UInt8) : ℕ → Lines → Lines
  | 0, w => w
  | n + 1, w =>
    if w.current < text.length then run text width breakchar n (w.step text width breakchar)
    else w

/-- The text with the rest behind the last break. -/
def finish (text : List UInt8) (w : Lines) : List UInt8 := w.newtext ++ line text w w.current

/-- Where the places are. -/
structure Placed (text : List UInt8) (w : Lines) : Prop where
  current : w.current ≤ text.length
  laststart : w.laststart ≤ w.current
  lastspace : w.laststart < w.lastspace → w.lastspace < w.current

variable {w : Lines}

theorem length_line {stop : ℕ} (hstart : w.laststart ≤ stop) (hstop : stop ≤ text.length) :
    (line text w stop).length + w.laststart = stop := by
  rw [line, List.length_take, List.length_drop]
  omega

theorem Placed.step (width : ℕ) (h : w.Placed text) (hcur : w.current < text.length)
    (hbreak : breakchar ≠ []) : (w.step text width breakchar).Placed text := by
  have hpos : 0 < breakchar.length := List.length_pos_of_ne_nil hbreak
  have hstart := h.laststart
  rw [Lines.step]
  split_ifs with h1 h2 h3 h4 h5
  · exact ⟨le_of_lt h1.2.1, le_rfl, fun hlt => absurd hlt (lt_irrefl _)⟩
  · exact ⟨hcur, le_rfl, fun hlt => absurd hlt (by simp)⟩
  · exact ⟨hcur, Nat.le_succ_of_le hstart, fun _ => Nat.lt_succ_self _⟩
  · exact ⟨hcur, Nat.le_succ_of_le hstart, fun hlt => Nat.lt_succ_of_lt (h.lastspace hlt)⟩
  · exact ⟨hcur, Nat.le_succ _, fun hlt => absurd hlt (lt_irrefl _)⟩
  · have hlast := h.lastspace (Nat.lt_of_not_le h5)
    exact ⟨hcur, Nat.succ_le_succ (le_of_lt hlast), fun hlt => absurd hlt (lt_irrefl _)⟩

theorem current_lt_step (text : List UInt8) (width : ℕ) (hbreak : breakchar ≠ []) :
    w.current < (w.step text width breakchar).current := by
  have hpos : 0 < breakchar.length := List.length_pos_of_ne_nil hbreak
  rw [Lines.step]
  split_ifs
  · exact Nat.lt_add_of_pos_right hpos
  all_goals exact Nat.lt_succ_self _

theorem length_le_step : w.newtext.length ≤ (w.step text width breakchar).newtext.length := by
  rw [Lines.step]
  split_ifs <;> simp only [List.length_append] <;> omega

theorem length_le_run (text : List UInt8) (width : ℕ) (breakchar : List UInt8) (n : ℕ) :
    w.newtext.length ≤ (w.run text width breakchar n).newtext.length := by
  induction n generalizing w with
  | zero => exact le_rfl
  | succ n ih =>
    rw [run]
    split_ifs
    · exact le_trans length_le_step ih
    · exact le_rfl

theorem run_of_end (h : ¬ w.current < text.length) (n : ℕ) :
    w.run text width breakchar n = w := by
  cases n with
  | zero => rfl
  | succ n => rw [run, if_neg h]

end Lines

/-! ### The buffer -/

namespace Building

def lines (w : Building) : Lines := ⟨w.newtext, w.current, w.laststart, w.lastspace⟩

/-- The buffer has room for what is left of the text, for `chk` breaks and for the zero byte. -/
structure Budget (text : List UInt8) (breakcharlen : ℕ) (w : Building) : Prop where
  placed : w.lines.Placed text
  room : w.newtext.length + (text.length - w.laststart : ℕ) + w.chk * breakcharlen + 1 ≤ w.alloced
  int : (w.newtext.length : ℤ) ≤ INT_MAX
  chk : 0 ≤ w.chk
  current : 0 < w.chk ∨ 0 < w.current

variable {w : Building}

theorem write_eq {s : List UInt8} (hroom : w.newtext.length + s.length ≤ w.alloced)
    (hint : (w.newtext.length + s.length : ℤ) ≤ INT_MAX) :
    w.write s = .ok { w with newtext := w.newtext ++ s } := by
  rw [write, if_neg (not_lt.mpr hroom), if_neg (not_lt.mpr hint)]

theorem write_error {s : List UInt8} (hroom : w.newtext.length + s.length ≤ w.alloced)
    (hint : INT_MAX < w.newtext.length + s.length) : w.write s = .error .overflow := by
  rw [write, if_neg (not_lt.mpr hroom), if_pos hint]

/-- `P` holds of the state that is reached, if the result keeps its length in the `int`. -/
def Reaches (newtext : List UInt8) (P : Building → Prop) (r : Except Undefined Building) : Prop :=
  ((newtext.length : ℤ) ≤ INT_MAX ∧ ∃ w, r = .ok w ∧ P w) ∨
    (INT_MAX < (newtext.length : ℤ) ∧ r = .error .overflow)

theorem reaches_write {s : List UInt8} {k : Building → Building} {P : Building → Prop}
    (hroom : w.newtext.length + s.length ≤ w.alloced)
    (hP : ((w.newtext ++ s).length : ℤ) ≤ INT_MAX → P (k { w with newtext := w.newtext ++ s })) :
    Reaches (w.newtext ++ s) P (w.write s >>= fun w => .ok (k w)) := by
  have hlen : ((w.newtext ++ s).length : ℤ) = w.newtext.length + s.length := by simp
  rw [Reaches, hlen]
  rcases le_or_gt (w.newtext.length + s.length : ℤ) INT_MAX with h | h
  · rw [write_eq hroom h]
    exact Or.inl ⟨h, _, rfl, hP (hlen.trans_le h)⟩
  · rw [write_error hroom h]
    exact Or.inr ⟨h, rfl⟩

theorem reaches_write_write {s t : List UInt8} {k : Building → Building} {P : Building → Prop}
    (hroom : w.newtext.length + s.length + t.length ≤ w.alloced)
    (hP : ((w.newtext ++ s ++ t).length : ℤ) ≤ INT_MAX →
      P (k { w with newtext := w.newtext ++ s ++ t })) :
    Reaches (w.newtext ++ s ++ t) P
      (w.write s >>= fun w => w.write t >>= fun w => .ok (k w)) := by
  have hlen : ((w.newtext ++ s ++ t).length : ℤ) = w.newtext.length + s.length + t.length := by
    simp [add_assoc]
  have hs : ((w.newtext ++ s).length : ℤ) = w.newtext.length + s.length := by simp
  rcases le_or_gt (w.newtext.length + s.length : ℤ) INT_MAX with h | h
  · rw [write_eq (by omega) h]
    refine reaches_write (w := { w with newtext := w.newtext ++ s }) ?_ hP
    dsimp only
    omega
  · rw [write_error (by omega) h]
    refine Or.inr ⟨?_, rfl⟩
    omega

/-- The initial buffer and the one after the reallocation are for the breaks of what is left. -/
def Fits (textlen width breakcharlen : ℕ) : Prop :=
  ((textlen + (textlen / width + 1) * breakcharlen + 1 : ℕ) : ℤ) ≤ INT_MAX

instance (textlen width breakcharlen : ℕ) : Decidable (Fits textlen width breakcharlen) :=
  inferInstanceAs (Decidable (_ ≤ _))

theorem grow_spec (hb : Budget text breakchar.length w) (hcur : w.current < text.length)
    (hwidth : 0 < width) (hfit : Fits text.length width breakchar.length) :
    ∃ w', w.grow text.length width breakchar.length = .ok w' ∧ w'.lines = w.lines ∧
      Budget text breakchar.length w' ∧ 0 < w'.chk := by
  rw [grow]
  by_cases hchk : w.chk ≤ 0
  · have hpos : 0 < w.current := hb.current.resolve_left (not_lt.mpr hchk)
    have hzero : w.chk = 0 := le_antisymm hchk hb.chk
    have hmore : (text.length - w.current + 1) / width ≤ text.length / width :=
      Nat.div_le_div_right (by omega)
    have hless : (text.length - w.current) / width ≤ (text.length - w.current + 1) / width :=
      Nat.div_le_div_right (Nat.le_succ _)
    have hprod : ((text.length - w.current + 1) / width + 1) * breakchar.length
        ≤ (text.length / width + 1) * breakchar.length :=
      Nat.mul_le_mul_right _ (Nat.succ_le_succ hmore)
    have hbudget : ((text.length - w.current) / width + 1) * breakchar.length
        ≤ ((text.length - w.current + 1) / width + 1) * breakchar.length :=
      Nat.mul_le_mul_right _ (Nat.succ_le_succ hless)
    have hdiv : (text.length - w.current) / width ≤ text.length :=
      le_trans (Nat.div_le_self _ _) (Nat.sub_le _ _)
    have hleft : (text.length : ℤ) - w.current = ((text.length - w.current : ℕ) : ℤ) := by omega
    have hsucc : (text.length : ℤ) - w.current + 1 = ((text.length - w.current + 1 : ℕ) : ℤ) := by
      omega
    have hwidth' : (width : ℤ) ≠ 0 := by omega
    have hroom := hb.room
    rw [hzero, zero_mul, add_zero] at hroom
    rw [Fits] at hfit
    rw [if_pos hchk, if_neg hwidth', hsucc, hleft, tdiv_cast, tdiv_cast, ← Nat.cast_add_one,
      ← Nat.cast_mul]
    generalize (text.length - w.current) / width = left at *
    generalize (text.length - w.current + 1) / width = more at *
    generalize hbytes : (more + 1) * breakchar.length = bytes at *
    generalize (text.length / width + 1) * breakchar.length = first at *
    rw [toInt_eq (by omega) (by omega), toInt_eq (by omega) (by omega),
      intValue_eq (by omega) (by omega), intValue_eq (by omega) (by omega)]
    refine ⟨_, rfl, rfl, ⟨hb.placed, ?_, hb.int, ?_, Or.inr hpos⟩, ?_⟩
    · dsimp only
      rw [← Nat.cast_add_one, ← Nat.cast_mul]
      omega
    · dsimp only
      omega
    · dsimp only
      omega
  · rw [if_neg hchk]
    exact ⟨w, rfl, rfl, hb, not_le.mp hchk⟩

theorem Budget.of_lines {w' : Building} (hb : Budget text breakchar.length w)
    (hcur : w.current < text.length) (hbreak : breakchar ≠ [])
    (hlines : w'.lines = w.lines.step text width breakchar)
    (hcost : w'.newtext.length + (text.length - w'.laststart : ℕ) + w'.chk * breakchar.length
      ≤ w.newtext.length + (text.length - w.laststart : ℕ) + w.chk * breakchar.length)
    (halloced : w'.alloced = w.alloced) (hint : (w'.newtext.length : ℤ) ≤ INT_MAX)
    (hchk : 0 ≤ w'.chk) :
    Budget text breakchar.length w' := by
  have hcurrent : w'.current = (w.lines.step text width breakchar).current := by
    rw [← hlines]
    rfl
  have hroom := hb.room
  refine ⟨?_, ?_, hint, hchk, Or.inr ?_⟩
  · rw [hlines]
    exact hb.placed.step width hcur hbreak
  · rw [halloced]
    omega
  · rw [hcurrent]
    exact lt_of_le_of_lt (Nat.zero_le _) (Lines.current_lt_step text width hbreak)

theorem reaches_place (width : ℕ) (hb : Budget text breakchar.length w) (hchk : 0 < w.chk)
    (hcur : w.current < text.length) (hbreak : breakchar ≠ []) :
    Reaches (w.lines.step text width breakchar).newtext
      (fun w' => w'.lines = w.lines.step text width breakchar ∧ Budget text breakchar.length w')
      (w.place text width breakchar true) := by
  have hpos : 0 < breakchar.length := List.length_pos_of_ne_nil hbreak
  have hstart : w.laststart ≤ w.current := hb.placed.laststart
  have hroom := hb.room
  have hless : (w.chk - 1) * breakchar.length + breakchar.length = w.chk * breakchar.length := by
    ring
  have hnonneg : 0 ≤ (w.chk - 1) * breakchar.length :=
    Int.mul_nonneg (by omega) (Int.natCast_nonneg _)
  have hnext {w' : Building} (hlines : w'.lines = w.lines.step text width breakchar) :=
    Budget.of_lines hb hcur hbreak hlines
  have hline (stop : ℕ) (hlow : w.laststart ≤ stop) (hhigh : stop ≤ text.length) :
      (line text w stop).length + w.laststart = stop :=
    Lines.length_line (w := w.lines) hlow hhigh
  rw [place]
  by_cases h1 : AtBreak text breakchar w.current
  · have hstep : w.lines.step text width breakchar =
        ⟨w.newtext ++ line text w (w.current + breakchar.length), w.current + breakchar.length,
          w.current + breakchar.length, w.current + breakchar.length⟩ := by
      rw [Lines.step]
      exact if_pos h1
    have hl := hline (w.current + breakchar.length) (by omega) (le_of_lt h1.2.1)
    have h12 := h1.2.1
    rw [hstep] at hnext ⊢
    simp only [if_pos h1]
    refine reaches_write (by omega) fun hint => ⟨rfl, hnext rfl ?_ rfl hint ?_⟩
    · simp only [List.length_append]
      omega
    · dsimp only
      omega
  by_cases h2 : text.getD w.current 0 = space
  · by_cases h3 : w.laststart + width ≤ w.current
    · have hstep : w.lines.step text width breakchar =
          ⟨w.newtext ++ line text w w.current ++ breakchar, w.current + 1, w.current + 1,
            w.current⟩ :=
        (if_neg h1).trans ((if_pos h2).trans (if_pos h3))
      have hfull : (width : ℤ) ≤ (w.current : ℤ) - w.laststart := by omega
      have hl := hline w.current hstart (le_of_lt hcur)
      rw [hstep] at hnext ⊢
      simp only [if_neg h1, if_pos h2, if_pos hfull]
      refine reaches_write_write (by omega) fun hint => ⟨rfl, hnext rfl ?_ rfl hint ?_⟩
      · simp only [List.length_append]
        omega
      · dsimp only
        omega
    · have hstep : w.lines.step text width breakchar =
          ⟨w.newtext, w.current + 1, w.laststart, w.current⟩ :=
        (if_neg h1).trans ((if_pos h2).trans (if_neg h3))
      have hfull : ¬ (width : ℤ) ≤ (w.current : ℤ) - w.laststart := by omega
      rw [hstep] at hnext ⊢
      simp only [if_neg h1, if_pos h2, if_neg hfull]
      exact Or.inl ⟨hb.int, _, rfl, rfl, hnext rfl le_rfl rfl hb.int hb.chk⟩
  by_cases h3 : w.current < w.laststart + width
  · have hstep : w.lines.step text width breakchar =
        ⟨w.newtext, w.current + 1, w.laststart, w.lastspace⟩ :=
      (if_neg h1).trans ((if_neg h2).trans (if_pos h3))
    have hfull : ¬ (width : ℤ) ≤ (w.current : ℤ) - w.laststart := by omega
    rw [hstep] at hnext ⊢
    simp only [if_neg h1, if_neg h2, hfull, false_and, if_false]
    exact Or.inl ⟨hb.int, _, rfl, rfl, hnext rfl le_rfl rfl hb.int hb.chk⟩
  have hfull : (width : ℤ) ≤ (w.current : ℤ) - w.laststart := by omega
  by_cases h4 : w.lastspace ≤ w.laststart
  · have hstep : w.lines.step text width breakchar =
        ⟨w.newtext ++ line text w w.current ++ breakchar, w.current + 1, w.current, w.current⟩ :=
      (if_neg h1).trans ((if_neg h2).trans ((if_neg h3).trans (if_pos h4)))
    have hl := hline w.current hstart (le_of_lt hcur)
    rw [hstep] at hnext ⊢
    simp only [if_neg h1, if_neg h2, hfull, h4, and_self, if_true]
    refine reaches_write_write (by omega) fun hint => ⟨rfl, hnext rfl ?_ rfl hint ?_⟩
    · simp only [List.length_append]
      omega
    · dsimp only
      omega
  · have hstep : w.lines.step text width breakchar =
        ⟨w.newtext ++ line text w w.lastspace ++ breakchar, w.current + 1, w.lastspace + 1,
          w.lastspace + 1⟩ :=
      (if_neg h1).trans ((if_neg h2).trans ((if_neg h3).trans (if_neg h4)))
    have hlt : w.laststart < w.lastspace := not_le.mp h4
    have hspace : w.lastspace < w.current := hb.placed.lastspace hlt
    have hl := hline w.lastspace (le_of_lt hlt) (by omega)
    rw [hstep] at hnext ⊢
    simp only [if_neg h1, if_neg h2, hfull, h4, hlt, and_self, and_false, if_true, if_false]
    refine reaches_write_write (by omega) fun hint => ⟨rfl, hnext rfl ?_ rfl hint ?_⟩
    · simp only [List.length_append]
      omega
    · dsimp only
      omega

theorem finish_eq (hb : Budget text breakchar.length w) :
    w.finish text =
      if ((w.lines.finish text).length : ℤ) < INT_MAX then .ok (w.lines.finish text)
      else .error .overflow := by
  have hroom := hb.room
  have hnonneg : 0 ≤ w.chk * breakchar.length := Int.mul_nonneg hb.chk (Int.natCast_nonneg _)
  have hstart : w.laststart ≤ w.current := hb.placed.laststart
  have hend : w.current ≤ text.length := hb.placed.current
  have hl : (line text w w.current).length + w.laststart = w.current :=
    Lines.length_line (w := w.lines) hstart hend
  have htext : w.lines.finish text = w.newtext ++ line text w w.current := rfl
  have hlen : ((w.lines.finish text).length : ℤ) = w.newtext.length
      + (line text w w.current).length := by
    rw [htext, List.length_append, Nat.cast_add]
  rcases le_or_gt ((w.lines.finish text).length : ℤ) INT_MAX with hint | hint
  · have hwrite : w.stragglers text = .ok { w with newtext := w.lines.finish text } := by
      rw [stragglers]
      by_cases hne : w.laststart ≠ w.current
      · rw [if_pos hne]
        exact write_eq (by omega) (by omega)
      · have hnil : line text w w.current = [] := List.eq_nil_of_length_eq_zero (by omega)
        rw [if_neg hne, htext, hnil, List.append_nil]
    have hzero : ¬ w.alloced < ((w.lines.finish text).length : ℤ) + 1 := by omega
    rw [finish, hwrite, ok_bind, if_neg hzero]
    dsimp only
    rcases lt_or_eq_of_le hint with hlt | heq
    · rw [if_pos hlt, intValue_eq (by omega) (by omega), ok_bind]
    · rw [if_neg (by omega), intValue_error (by omega), error_bind]
  · have hne : w.laststart ≠ w.current := by
      have hint' := hb.int
      omega
    rw [finish, stragglers, if_pos hne, write_error (by omega) (by omega), if_neg (by omega)]
    rfl

theorem loop_finish (hb : Budget text breakchar.length w) (hwidth : 0 < width)
    (hbreak : breakchar ≠ []) (hfit : Fits text.length width breakchar.length) (n : ℕ)
    (hn : text.length ≤ w.current + n) :
    (w.loop text width breakchar true n >>= finish text) =
      if (((w.lines.run text width breakchar n).finish text).length : ℤ) < INT_MAX then
        .ok ((w.lines.run text width breakchar n).finish text)
      else .error .overflow := by
  induction n generalizing w with
  | zero => exact finish_eq hb
  | succ n ih =>
    rw [loop]
    by_cases hcur : w.current < text.length
    · have hrun : w.lines.run text width breakchar (n + 1) =
          (w.lines.step text width breakchar).run text width breakchar n := if_pos hcur
      obtain ⟨w₁, hgrow, hlines₁, hb₁, hchk₁⟩ := grow_spec hb hcur hwidth hfit
      have hcur₁ : w₁.current = w.current := congrArg Lines.current hlines₁
      have hplace := reaches_place width hb₁ hchk₁ (hcur₁.trans_lt hcur) hbreak
      rw [if_pos hcur, hgrow, hrun, ← hlines₁]
      rcases hplace with ⟨-, w₂, hplace, hlines₂, hb₂⟩ | ⟨hlong, hplace⟩
      · have hmoved : w₁.lines.current < (w₁.lines.step text width breakchar).current :=
          Lines.current_lt_step text width hbreak
        have hcur₂ : w₂.current = (w₁.lines.step text width breakchar).current :=
          congrArg Lines.current hlines₂
        have hnext := ih hb₂ (by
          have hsame : w₁.lines.current = w₁.current := rfl
          omega)
        rw [← hlines₂, ← hnext]
        simp only [bind, Except.bind, hplace]
      · generalize w₁.lines.step text width breakchar = w₂ at *
        have hle : w₂.newtext.length ≤ (w₂.run text width breakchar n).newtext.length :=
          Lines.length_le_run text width breakchar n
        have hfinish : (w₂.run text width breakchar n).newtext.length ≤
            ((w₂.run text width breakchar n).finish text).length := by
          rw [Lines.finish, List.length_append]
          exact Nat.le_add_right _ _
        rw [if_neg (by omega)]
        simp only [bind, Except.bind, hplace]
    · rw [if_neg hcur, Lines.run_of_end hcur]
      exact finish_eq hb

def first (textlen width breakcharlen : ℕ) : Building :=
  ⟨[], 0, 0, 0, (textlen / width + 1 : ℕ),
    (textlen + (textlen / width + 1) * breakcharlen + 1 : ℕ)⟩

theorem start_eq (textlen breakcharlen : ℕ) (hwidth : 0 < width) (hbreak : 0 < breakcharlen) :
    start textlen width breakcharlen =
      if Fits textlen width breakcharlen then .ok (first textlen width breakcharlen)
      else .error .overflow := by
  have hdiv : textlen / width ≤ textlen := Nat.div_le_self _ _
  have hmul : textlen / width + 1 ≤ (textlen / width + 1) * breakcharlen :=
    Nat.le_mul_of_pos_right _ hbreak
  have hfits : Fits textlen width breakcharlen ↔
      ((textlen + (textlen / width + 1) * breakcharlen + 1 : ℕ) : ℤ) ≤ INT_MAX := Iff.rfl
  rw [start, if_pos (by omega), tdiv_cast, ← Nat.cast_add_one, first]
  generalize hq : textlen / width + 1 = chk at *
  rcases lt_or_ge (textlen : ℤ) INT_MAX with hlen | hlen
  · rw [toInt_eq (by omega) (by omega), intValue_eq (by omega) (by omega), ok_bind,
      ← Nat.cast_mul]
    generalize chk * breakcharlen = product at *
    rcases le_or_gt (product : ℤ) INT_MAX with h1 | h1
    · rw [intValue_eq (by omega) h1, ok_bind]
      rcases le_or_gt (textlen + product : ℤ) INT_MAX with h2 | h2
      · rw [intValue_eq (by omega) h2, ok_bind]
        rcases le_or_gt (textlen + product + 1 : ℤ) INT_MAX with h3 | h3
        · rw [intValue_eq (by omega) h3, ok_bind, if_pos (hfits.mpr (by omega))]
          rfl
        · rw [intValue_error h3, error_bind, if_neg fun hf => absurd (hfits.mp hf) (by omega)]
      · rw [intValue_error h2, error_bind, if_neg fun hf => absurd (hfits.mp hf) (by omega)]
    · rw [intValue_error h1, error_bind, if_neg fun hf => absurd (hfits.mp hf) (by omega)]
  · rw [intValue_error (x := (textlen : ℤ) + 1) (by omega), error_bind,
      if_neg fun hf => absurd (hfits.mp hf) (by omega)]

theorem budget_first (text breakchar : List UInt8) (width : ℕ) :
    Budget text breakchar.length (first text.length width breakchar.length) := by
  refine ⟨⟨Nat.zero_le _, le_rfl, fun hlt => absurd hlt (lt_irrefl 0)⟩, ?_, ?_, ?_, Or.inl ?_⟩
  · simp only [first, List.length_nil]
    push_cast
    omega
  · simp [first, INT_MAX]
  · exact Int.natCast_nonneg _
  · exact Int.natCast_pos.mpr (Nat.succ_pos _)

end Building

def wrapped (text : List UInt8) (width : ℕ) (breakchar : List UInt8) : List UInt8 :=
  ((⟨[], 0, 0, 0⟩ : Lines).run text width breakchar text.length).finish text

/-- **The buffer does for cutting**: the result is the text of the lines, or an `int` overflows. -/
theorem wordwrap_eq (htext : text ≠ []) (hbreak : breakchar ≠ []) (hwidth : 0 < width) :
    wordwrap text width breakchar true =
      if Building.Fits text.length width breakchar.length ∧
          ((wrapped text width breakchar).length : ℤ) < INT_MAX then
        .ok (some (wrapped text width breakchar))
      else .error .overflow := by
  have hpos : 0 < breakchar.length := List.length_pos_of_ne_nil hbreak
  have hzero : ¬ ((width : ℤ) = 0 ∧ true = true) := by
    rintro ⟨h, -⟩
    omega
  rw [wordwrap, if_neg htext, if_neg hbreak, if_neg hzero, if_neg (by simp),
    Building.start_eq _ _ hwidth hpos]
  by_cases hfit : Building.Fits text.length width breakchar.length
  · have hloop := Building.loop_finish (Building.budget_first text breakchar width) hwidth hbreak
      hfit text.length (Nat.le_add_left _ _)
    rw [if_pos hfit, ok_bind, ← bind_assoc]
    by_cases hint : ((wrapped text width breakchar).length : ℤ) < INT_MAX
    · have hok : _ = Except.ok (wrapped text width breakchar) := hloop.trans (if_pos hint)
      rw [hok, ok_bind, if_pos ⟨hfit, hint⟩]
    · have herror : _ = Except.error Undefined.overflow := hloop.trans (if_neg hint)
      rw [herror, error_bind, if_neg fun h => hint h.2]
  · rw [if_neg hfit, if_neg fun h => hfit h.1]
    rfl

end PhpRuntime.Text
