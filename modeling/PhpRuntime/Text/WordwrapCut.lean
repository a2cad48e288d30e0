import PhpRuntime.Text.WordwrapBuffer
import PhpRuntime.Lib.LineLayout
import Mathlib.Data.List.GetD

/-!
# `wordwrap` with cutting

When no byte of the break is in the text, the lines are the greedy layout of the text: they are
not wider than the width, and each break stands for a space or between two bytes.
-/

set_option autoImplicit false

namespace PhpRuntime.Text

open PhpRuntime.Lib.LineLayout

variable {text breakchar : List UInt8} {width : ℕ}

namespace Lines

variable {w : Lines}

theorem drop_current (hcur : w.current < text.length) :
    text.drop w.current = text.getD w.current 0 :: text.drop (w.current + 1) := by
  rw [List.drop_eq_getElem_cons hcur, List.getD_eq_getElem _ _ hcur]

theorem line_succ {start stop : ℕ} (hstart : start ≤ stop) (hstop : stop < text.length) :
    (text.drop start).take (stop + 1 - start) =
      (text.drop start).take (stop - start) ++ [text.getD stop 0] := by
  have hlt : stop - start < (text.drop start).length := by
    rw [List.length_drop]
    omega
  rw [Nat.succ_sub hstart, List.take_succ_eq_append_getElem hlt, List.getElem_drop,
    List.getD_eq_getElem _ _ hstop]
  congr 3
  omega

theorem line_self (stop : ℕ) : (text.drop stop).take (stop - stop) = [] := by
  rw [Nat.sub_self, List.take_zero]

theorem not_atBreak (hno : ∀ c ∈ text, c ∉ breakchar) (hbreak : breakchar ≠ [])
    (hcur : w.current < text.length) : ¬ Building.AtBreak text breakchar w.current := by
  rintro ⟨heq, -⟩
  cases breakchar with
  | nil => exact hbreak rfl
  | cons b bs =>
    rw [List.getD_eq_getElem _ _ hcur, List.headD_cons] at heq
    refine hno _ (List.getElem_mem hcur) ?_
    rw [heq]
    exact List.mem_cons_self

def rest (text : List UInt8) (width : ℕ) (w : Lines) : List (List UInt8 × Bool) × List UInt8 :=
  layout space width (text.drop w.current) (line text w w.current) (w.lastspace - w.laststart)

theorem step_rest (hno : ∀ c ∈ text, c ∉ breakchar) (hbreak : breakchar ≠ [])
    (hp : w.Placed text) (hcur : w.current < text.length) :
    (w.step text width breakchar).newtext ++
        render breakchar ((w.step text width breakchar).rest text width) =
      w.newtext ++ render breakchar (w.rest text width) := by
  have h1 := not_atBreak hno hbreak hcur
  have hstart := hp.laststart
  have hlen : (line text w w.current).length = w.current - w.laststart := by
    have h := length_line hstart (le_of_lt hcur)
    omega
  rw [Lines.step, if_neg h1]
  conv => rhs; rw [rest, drop_current hcur, layout]
  by_cases h2 : text.getD w.current 0 = space
  · rw [if_pos h2, if_pos h2]
    by_cases h3 : w.laststart + width ≤ w.current
    · rw [if_pos h3, if_pos (by omega), render_cons, List.append_assoc, List.append_assoc]
      simp only [rest, line]
      rw [line_self, Nat.sub_eq_zero_of_le (Nat.le_succ _)]
    · rw [if_neg h3, if_neg (by omega)]
      simp only [rest, line] at hlen ⊢
      rw [line_succ hstart hcur, hlen]
  · rw [if_neg h2, if_neg h2]
    by_cases h3 : w.current < w.laststart + width
    · rw [if_pos h3, if_pos (by omega)]
      simp only [rest, line]
      rw [line_succ hstart hcur]
    · have hfull : ¬ (line text w w.current).length < width := by omega
      rw [if_neg h3, if_neg hfull]
      by_cases h4 : w.lastspace ≤ w.laststart
      · rw [if_pos h4, if_pos (Nat.sub_eq_zero_of_le h4), render_cons, List.append_assoc, List.append_assoc]
        simp only [rest, line]
        rw [line_succ le_rfl hcur, line_self, Nat.sub_self, List.nil_append]
      · have hlt : w.laststart < w.lastspace := not_le.mp h4
        have hspace := hp.lastspace hlt
        have hcut : (line text w w.current).take (w.lastspace - w.laststart) =
            line text w w.lastspace := by
          rw [line, line, List.take_take, Nat.min_eq_left (by omega)]
        have hleft : (line text w w.current).drop (w.lastspace - w.laststart + 1) =
            (text.drop (w.lastspace + 1)).take (w.current - (w.lastspace + 1)) := by
          rw [line, List.drop_take, List.drop_drop]
          congr 1
          · omega
          · congr 1
            omega
        have hgap : w.lastspace - w.laststart ≠ 0 := Nat.sub_ne_zero_of_lt hlt
        rw [if_neg h4, if_neg hgap]
        dsimp only
        rw [render_cons, hcut, hleft, List.append_assoc, List.append_assoc]
        simp only [rest, line]
        rw [line_succ hspace hcur, Nat.sub_self]

/-- **The lines are the layout of the text.** -/
theorem run_rest (width : ℕ) (hno : ∀ c ∈ text, c ∉ breakchar) (hbreak : breakchar ≠ [])
    (hp : w.Placed text) (n : ℕ) (hn : text.length ≤ w.current + n) :
    (w.run text width breakchar n).finish text =
      w.newtext ++ render breakchar (w.rest text width) := by
  have hend (w : Lines) (h : text.length ≤ w.current) :
      w.finish text = w.newtext ++ render breakchar (w.rest text width) := by
    rw [rest, List.drop_eq_nil_of_le h, layout, render]
    simp [finish]
  induction n generalizing w with
  | zero => exact hend w hn
  | succ n ih =>
    by_cases hcur : w.current < text.length
    · have hmoved := current_lt_step (w := w) text width hbreak
      rw [run, if_pos hcur, ih (hp.step width hcur hbreak) (by omega), step_rest hno hbreak hp hcur]
    · rw [run_of_end hcur]
      exact hend w (not_lt.mp hcur)

end Lines

def layoutOf (text : List UInt8) (width : ℕ) : List (List UInt8 × Bool) × List UInt8 :=
  layout space width text [] 0

theorem wrapped_eq (hno : ∀ c ∈ text, c ∉ breakchar) (hbreak : breakchar ≠ []) :
    wrapped text width breakchar = render breakchar (layoutOf text width) := by
  have hrun := Lines.run_rest (w := ⟨[], 0, 0, 0⟩) width hno hbreak
    ⟨Nat.zero_le _, le_rfl, fun hlt => absurd hlt (lt_irrefl 0)⟩ text.length (Nat.le_add_left _ _)
  rw [wrapped, hrun]
  rfl

/-- What `wordwrap` with cutting is for: the lines between the breaks are not wider than the
width, the breaks stand for a space or between two bytes, and nothing but spaces is gone. -/
def Wraps (text breakchar : List UInt8) (width : ℕ) (result : List UInt8) : Prop :=
  (∀ line ∈ split breakchar result, line.length ≤ width) ∧
    Broken space breakchar text result ∧
    (split breakchar result).flatten.filter (· ≠ space) = text.filter (· ≠ space)

theorem wraps_layoutOf (hno : ∀ c ∈ text, c ∉ breakchar) (hbreak : breakchar ≠ [])
    (hwidth : 0 < width) :
    Wraps text breakchar width (render breakchar (layoutOf text width)) := by
  have hlaid : LaidOut space width text (layoutOf text width) :=
    laidOut_layout hwidth text [] 0 (Nat.zero_le _) (Or.inl rfl)
  have hsplit := split_render hbreak (layoutOf text width)
    ⟨fun l hl c hc => hno c (hlaid.mem.1 l hl c hc), fun c hc => hno c (hlaid.mem.2 c hc)⟩
  refine ⟨?_, hlaid.broken breakchar, ?_⟩
  · rw [hsplit]
    intro line hline
    rcases List.mem_append.mp hline with hline | hline
    · obtain ⟨l, hl, rfl⟩ := List.mem_map.mp hline
      exact hlaid.width.1 l hl
    · rw [List.mem_singleton.mp hline]
      exact hlaid.width.2
  · rw [hsplit, List.flatten_append, List.flatten_singleton]
    exact hlaid.symbols

/-- The result does not leave the `int`, and neither does the size of a buffer for it. -/
def Representable (text breakchar : List UInt8) (width : ℕ) : Prop :=
  text = [] ∨ Building.Fits text.length width breakchar.length ∧
    ((render breakchar (layoutOf text width)).length : ℤ) < INT_MAX

/-- **`wordwrap` with cutting** lays the text out, in the buffer, exactly when the sizes keep
within the `int`. -/
theorem wordwrap_cut (text breakchar : List UInt8) (width : ℕ) (hwidth : 0 < width)
    (hbreak : breakchar ≠ []) (hno : ∀ c ∈ text, c ∉ breakchar) :
    (∃ result, wordwrap text width breakchar true = .ok (some result) ∧
      Wraps text breakchar width result) ↔ Representable text breakchar width := by
  have hwraps := wraps_layoutOf hno hbreak hwidth
  by_cases htext : text = []
  · refine iff_of_true ⟨[], ?_, ?_⟩ (Or.inl htext)
    · rw [wordwrap, if_pos htext]
    · rw [htext] at hwraps ⊢
      exact hwraps
  · have heq := wordwrap_eq htext hbreak hwidth
    rw [wrapped_eq hno hbreak] at heq
    constructor
    · rintro ⟨result, hresult, -⟩
      by_contra hlong
      rw [heq, if_neg fun h => hlong (Or.inr h)] at hresult
      cases hresult
    · intro hshort
      rw [if_pos (hshort.resolve_left htext)] at heq
      exact ⟨_, heq, hwraps⟩

theorem wordwrap_cut_line :
    ∃ result, wordwrap [97, 97, 32, 98] 1 [10] true = .ok (some result) ∧
      Wraps [97, 97, 32, 98] [10] 1 result :=
  (wordwrap_cut [97, 97, 32, 98] [10] 1 (by decide) (by decide) (by simp)).mpr
    (Or.inr ⟨by decide, by decide⟩)

theorem wordwrap_long_break {n : ℕ} (hn : 1073741824 ≤ n) :
    wordwrap [97, 97, 97] (1 : ℕ) (List.replicate n 98) true = .error .overflow := by
  have hne : List.replicate n (98 : UInt8) ≠ [] := by
    intro hnil
    have hlen := congrArg List.length hnil
    rw [List.length_replicate, List.length_nil] at hlen
    omega
  rw [wordwrap_eq (by decide) hne (by decide), if_neg]
  rintro ⟨hfit, -⟩
  rw [Building.Fits, List.length_replicate, INT_MAX] at hfit
  simp only [List.length_cons, List.length_nil] at hfit
  omega

/-- A break of 2^30 bytes. -/
theorem wordwrap_cut_overflow :
    ¬ (List.replicate 1073741824 (98 : UInt8) ≠ [] →
      (∀ c ∈ [(97 : UInt8), 97, 97], c ∉ List.replicate 1073741824 (98 : UInt8)) →
      ∃ result, wordwrap [97, 97, 97] (1 : ℕ) (List.replicate 1073741824 98) true
          = .ok (some result) ∧
        Wraps [97, 97, 97] (List.replicate 1073741824 98) 1 result) := by
  intro h
  obtain ⟨result, hresult, -⟩ := h
    (by
      intro hnil
      have hlen := congrArg List.length hnil
      rw [List.length_replicate, List.length_nil] at hlen
      omega)
    (by
      intro c hc hmem
      have hb := List.eq_of_mem_replicate hmem
      rw [hb] at hc
      revert hc
      decide)
  rw [wordwrap_long_break le_rfl] at hresult
  cases hresult

end PhpRuntime.Text
