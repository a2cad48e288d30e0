import PhpRuntime.Lib.Splitting
import PhpRuntime.Text.QuotPrintRoundTrip

/-!
# The lines of a quoted-printable text

The line counter is the length of the line, so that every line is short as long as the counter
stays within 75. The four conditions for a soft line break leave out the bytes from 0xF5 on,
and before such a byte no line is broken.
-/

set_option autoImplicit false

namespace PhpRuntime.Text

open PhpRuntime.Lib.Splitting (pieces pieces_first pieces_of_none)

variable {cur rest : List UInt8} {lp : ℕ}

/-- `\r` and `\n` -/
def crlf : List UInt8 := [13, 10]

/-- The lengths of the lines, when the first one has `lp` characters already. -/
def lineLengths : ℕ → List UInt8 → List ℕ
  | lp, [] => [lp]
  | lp, [c] =>
    if breaksAt lp c 0 then [lp + 1, columnAfter lp c 0] else [columnAfter lp c 0]
  | lp, c :: next :: str =>
    if c = 13 ∧ next = 10 then lp :: lineLengths 0 str
    else if breaksAt lp c next then
      (lp + 1) :: lineLengths (columnAfter lp c next) (next :: str)
    else lineLengths (columnAfter lp c next) (next :: str)

/-! ## The counter is the length of the line -/

theorem pieces_crlf (h : 13 ∉ cur) :
    pieces crlf (cur ++ crlf ++ rest) = cur :: pieces crlf rest := by
  have hfirst := pieces_first (d := crlf) (s := cur ++ crlf ++ rest) (i := cur.length)
    (List.cons_ne_nil _ _) ?_ ?_
  · rw [List.append_assoc, List.take_left, ← List.length_append, ← List.append_assoc,
      List.drop_left] at hfirst
    rw [← hfirst, List.append_assoc]
  · rw [List.append_assoc, List.drop_left]
    exact List.prefix_append _ _
  · rintro j hj ⟨t, ht⟩
    have hhead : ((cur ++ crlf ++ rest).drop j).head? = some 13 := by
      rw [← ht]
      rfl
    rw [List.head?_drop, List.append_assoc, List.getElem?_append_left hj] at hhead
    exact h (List.mem_of_getElem? hhead)

theorem pieces_line (h : 13 ∉ cur) : pieces crlf cur = [cur] := by
  apply pieces_of_none
  rintro j ⟨t, ht⟩
  apply h
  apply List.mem_of_mem_drop (i := j)
  rw [← ht]
  exact List.mem_cons_self

theorem quotPrintHex_ne {n : ℕ} (h : n < 16) : quotPrintHex n ≠ 13 := by
  revert n
  decide

theorem not_mem_quotBody (c next : UInt8) : 13 ∉ quotBody c next := by
  unfold quotBody
  split
  · intro h
    rcases List.mem_cons.mp h with h | h
    · exact absurd h (by decide)
    rcases List.mem_cons.mp h with h | h
    · exact quotPrintHex_ne (high_lt c) h.symm
    · exact quotPrintHex_ne (low_lt c) (List.mem_singleton.mp h).symm
  · next hq =>
    rintro h
    rw [List.mem_singleton] at h
    subst h
    exact hq (Or.inl (by decide))

theorem not_mem_append {a b : List UInt8} (ha : 13 ∉ a) (hb : 13 ∉ b) : 13 ∉ a ++ b := by
  rw [List.mem_append, not_or]
  exact ⟨ha, hb⟩

theorem pieces_byte (hcur : 13 ∉ cur) (lp : ℕ) (c next : UInt8) (rest : List UInt8) :
    pieces crlf (cur ++ ((quotPrintByte lp c next).1 ++ rest)) =
      if breaksAt lp c next then (cur ++ [61]) :: pieces crlf (quotBody c next ++ rest)
      else pieces crlf (cur ++ quotBody c next ++ rest) := by
  rw [quotPrintByte_eq]
  dsimp only
  split
  · have hsoft : cur ++ (softBreak ++ quotBody c next ++ rest) =
        (cur ++ [61]) ++ crlf ++ (quotBody c next ++ rest) := by
      simp only [softBreak, crlf, List.append_assoc, List.cons_append, List.nil_append]
    rw [hsoft, pieces_crlf (not_mem_append hcur (by decide))]
  · rw [List.nil_append, List.append_assoc]

theorem map_length_pieces (cur : List UInt8) (hcur : 13 ∉ cur) (str : List UInt8) :
    (pieces crlf (cur ++ quotPrintEncodeLoop cur.length str)).map List.length =
      lineLengths cur.length str := by
  generalize hlp : cur.length = lp
  induction lp, str using quotPrintEncodeLoop.induct generalizing cur with
  | case1 lp =>
    rw [quotPrintEncodeLoop, List.append_nil, pieces_line hcur, ← hlp]
    rfl
  | case2 lp c =>
    have hbyte : pieces crlf (cur ++ ((quotPrintByte lp c 0).1 ++ [])) = _ :=
      pieces_byte hcur lp c 0 []
    have hbody := not_mem_quotBody c 0
    rw [List.append_nil] at hbyte
    rw [quotPrintEncodeLoop, hbyte, lineLengths]
    unfold columnAfter
    split
    · rw [List.append_nil, pieces_line hbody, Nat.zero_add, ← length_quotBody, ← hlp,
        ← List.length_singleton (a := (61 : UInt8)), ← List.length_append]
      rfl
    · rw [List.append_nil, pieces_line (not_mem_append hcur hbody), ← length_quotBody, ← hlp,
        ← List.length_append]
      rfl
  | case3 lp c next str hcrlf ih =>
    obtain ⟨rfl, rfl⟩ := hcrlf
    have hlines : pieces crlf (cur ++ crlf ++ quotPrintEncodeLoop 0 str) = _ := pieces_crlf hcur
    rw [List.append_assoc] at hlines
    rw [quotPrintEncodeLoop, if_pos ⟨rfl, rfl⟩, lineLengths, if_pos ⟨rfl, rfl⟩]
    refine (congrArg (List.map List.length) hlines).trans ?_
    rw [List.map_cons, hlp]
    exact congrArg _ (ih [] List.not_mem_nil rfl)
  | case4 lp c next str hcrlf ih =>
    have hbody := not_mem_quotBody c next
    rw [quotPrintEncodeLoop, if_neg hcrlf, lineLengths, if_neg hcrlf, pieces_byte hcur]
    have hcolumn : (quotPrintByte lp c next).2 = columnAfter lp c next := by
      rw [quotPrintByte_eq]
    rw [hcolumn] at ih ⊢
    unfold columnAfter at ih ⊢
    split
    · next hbreak =>
      rw [if_pos hbreak, Nat.zero_add] at ih
      rw [List.map_cons, Nat.zero_add, ih _ hbody (length_quotBody c next), List.length_append,
        hlp]
      rfl
    · next hbreak =>
      rw [if_neg hbreak] at ih
      exact ih _ (not_mem_append hcur hbody) (by rw [List.length_append, hlp, length_quotBody])

/-! ## Short lines -/

/-- Every byte from 0xF5 on is met with a counter of at most 72, or with 73 when the line ends
behind the byte. The first byte is met with the counter `lp`. -/
def LongBytesFit : ℕ → List UInt8 → Prop
  | _, [] => True
  | lp, [c] => 0xf4 < c → lp ≤ 73
  | lp, c :: next :: str =>
    if c = 13 ∧ next = 10 then LongBytesFit 0 str
    else (0xf4 < c → lp ≤ 72 ∨ (lp = 73 ∧ crlf <+: next :: str)) ∧
      LongBytesFit (columnAfter lp c next) (next :: str)

theorem quotWidth_pos (c next : UInt8) : 0 < quotWidth c next := by
  unfold quotWidth
  split <;> decide

theorem columnAfter_long {c : UInt8} (h : 0xf4 < c) (lp : ℕ) (next : UInt8) :
    ¬ breaksAt lp c next ∧ columnAfter lp c next = lp + 3 := by
  have hc : (0xf4 : UInt8).toNat < c.toNat := h
  have hquoted : isQuoted c next := by
    have hf4 : (0xf4 : UInt8).toNat = 0xf4 := rfl
    have h80 : (128 : UInt8).toNat = 128 := rfl
    right; right; left
    exact UInt8.le_iff_toNat_le.mpr (by omega)
  have hno : ¬ breaksAt lp c next := by
    unfold breaksAt breaksBefore
    rw [if_pos hquoted]
    simp only [UInt8.le_iff_toNat_le, not_or, not_and]
    have h7f : (0x7f : UInt8).toNat = 0x7f := rfl
    have hdf : (0xdf : UInt8).toNat = 0xdf := rfl
    have hef : (0xef : UInt8).toNat = 0xef := rfl
    have hf4 : (0xf4 : UInt8).toNat = 0xf4 := rfl
    omega
  refine ⟨hno, ?_⟩
  unfold columnAfter quotWidth
  rw [if_neg hno, if_pos hquoted]

theorem columnAfter_le {c : UInt8} (h : ¬ 0xf4 < c) {lp : ℕ} (next : UInt8) (hlp : lp ≤ 75) :
    columnAfter lp c next ≤ 75 := by
  have hc : ¬ (0xf4 : UInt8).toNat < c.toNat := h
  have h7f : (0x7f : UInt8).toNat = 0x7f := rfl
  have hdf : (0xdf : UInt8).toNat = 0xdf := rfl
  have hef : (0xef : UInt8).toNat = 0xef := rfl
  have hf4 : (0xf4 : UInt8).toNat = 0xf4 := rfl
  unfold columnAfter
  by_cases hbreak : breaksAt lp c next
  · rw [if_pos hbreak]
    unfold quotWidth
    split <;> decide
  rw [if_neg hbreak]
  unfold breaksAt PHP_QPRINT_MAXL at hbreak
  unfold quotWidth
  by_cases hq : isQuoted c next
  · rw [if_pos hq] at hbreak ⊢
    simp only [breaksBefore, PHP_QPRINT_MAXL, UInt8.le_iff_toNat_le, UInt8.lt_iff_toNat_lt, not_or,
      not_and] at hbreak
    omega
  · rw [if_neg hq] at hbreak ⊢
    omega

theorem exists_lineLength_ge (lp : ℕ) (str : List UInt8) :
    ∃ l ∈ lineLengths lp str, lp ≤ l := by
  induction lp, str using lineLengths.induct with
  | case1 lp => exact ⟨lp, List.mem_cons_self, Nat.le_refl _⟩
  | case2 lp c hbreak =>
    rw [lineLengths, if_pos hbreak]
    exact ⟨lp + 1, List.mem_cons_self, Nat.le_succ _⟩
  | case3 lp c hbreak =>
    rw [lineLengths, if_neg hbreak]
    refine ⟨_, List.mem_cons_self, ?_⟩
    rw [columnAfter, if_neg hbreak]
    exact Nat.le_add_right _ _
  | case4 lp c next str hcrlf ih =>
    rw [lineLengths, if_pos hcrlf]
    exact ⟨lp, List.mem_cons_self, Nat.le_refl _⟩
  | case5 lp c next str hcrlf hbreak ih =>
    rw [lineLengths, if_neg hcrlf, if_pos hbreak]
    exact ⟨lp + 1, List.mem_cons_self, Nat.le_succ _⟩
  | case6 lp c next str hcrlf hbreak ih =>
    obtain ⟨l, hl, hle⟩ := ih
    rw [lineLengths, if_neg hcrlf, if_neg hbreak]
    refine ⟨l, hl, ?_⟩
    rw [columnAfter, if_neg hbreak] at hle
    omega

theorem crlf_prefix_iff {c next : UInt8} {str : List UInt8} :
    crlf <+: c :: next :: str ↔ c = 13 ∧ next = 10 := by
  constructor
  · rintro ⟨t, ht⟩
    cases ht
    exact ⟨rfl, rfl⟩
  · rintro ⟨rfl, rfl⟩
    exact ⟨str, rfl⟩

theorem exists_lineLength_gt (lp : ℕ) {c : UInt8} {str : List UInt8}
    (h : ¬ crlf <+: c :: str) :
    ∃ l ∈ lineLengths lp (c :: str), lp < l := by
  cases str with
  | nil =>
    have hwidth := quotWidth_pos c 0
    rw [lineLengths]
    split
    · exact ⟨lp + 1, List.mem_cons_self, Nat.lt_succ_self _⟩
    · next hbreak =>
      refine ⟨_, List.mem_cons_self, ?_⟩
      rw [columnAfter, if_neg hbreak]
      omega
  | cons next str =>
    have hwidth := quotWidth_pos c next
    rw [crlf_prefix_iff] at h
    rw [lineLengths, if_neg h]
    split
    · exact ⟨lp + 1, List.mem_cons_self, Nat.lt_succ_self _⟩
    · next hbreak =>
      obtain ⟨l, hl, hle⟩ := exists_lineLength_ge (columnAfter lp c next) (next :: str)
      refine ⟨l, hl, ?_⟩
      rw [columnAfter, if_neg hbreak] at hle
      omega

theorem lineLengths_le_iff {lp : ℕ} {str : List UInt8}
    (hlp : lp ≤ 75 ∨ (lp = 76 ∧ (str = [] ∨ crlf <+: str))) :
    (∀ l ∈ lineLengths lp str, l ≤ 76) ↔ LongBytesFit lp str := by
  induction lp, str using lineLengths.induct with
  | case1 lp =>
    rw [lineLengths, LongBytesFit, List.forall_mem_singleton]
    exact iff_of_true (by omega) trivial
  | case2 lp c hbreak =>
    have hc : ¬ 0xf4 < c := fun hc => (columnAfter_long hc lp 0).1 hbreak
    have hle : lp ≤ 75 := by
      rcases hlp with hle | ⟨-, hnil | ⟨t, ht⟩⟩
      · exact hle
      · cases hnil
      · cases ht
    have hcolumn := columnAfter_le hc 0 hle
    rw [lineLengths, if_pos hbreak, LongBytesFit]
    simp only [List.forall_mem_cons, hc, false_implies, iff_true]
    exact ⟨by omega, by omega, fun l hl => absurd hl List.not_mem_nil⟩
  | case3 lp c hbreak =>
    have hle : lp ≤ 75 := by
      rcases hlp with hle | ⟨-, hnil | ⟨t, ht⟩⟩
      · exact hle
      · cases hnil
      · cases ht
    rw [lineLengths, if_neg hbreak, LongBytesFit, List.forall_mem_singleton]
    by_cases hc : 0xf4 < c
    · rw [(columnAfter_long hc lp 0).2]
      constructor
      · exact fun h _ => by omega
      · intro h
        have hfit := h hc
        omega
    · have hcolumn := columnAfter_le hc 0 hle
      exact iff_of_true (by omega) fun h => absurd h hc
  | case4 lp c next str hcrlf ih =>
    rw [lineLengths, LongBytesFit, if_pos hcrlf, if_pos hcrlf, List.forall_mem_cons,
      ih (Or.inl (Nat.zero_le _))]
    exact and_iff_right (by omega)
  | case5 lp c next str hcrlf hbreak ih =>
    have hc : ¬ 0xf4 < c := fun hc => (columnAfter_long hc lp next).1 hbreak
    have hle : lp ≤ 75 := by
      rcases hlp with hle | ⟨-, hnil | hpre⟩
      · exact hle
      · cases hnil
      · exact absurd (crlf_prefix_iff.mp hpre) hcrlf
    rw [lineLengths, LongBytesFit, if_neg hcrlf, if_neg hcrlf, if_pos hbreak,
      List.forall_mem_cons, ih (Or.inl (columnAfter_le hc next hle))]
    constructor
    · exact fun h => ⟨fun h' => absurd h' hc, h.2⟩
    · exact fun h => ⟨by omega, h.2⟩
  | case6 lp c next str hcrlf hbreak ih =>
    have hle : lp ≤ 75 := by
      rcases hlp with hle | ⟨-, hnil | hpre⟩
      · exact hle
      · cases hnil
      · exact absurd (crlf_prefix_iff.mp hpre) hcrlf
    rw [lineLengths, LongBytesFit, if_neg hcrlf, if_neg hcrlf, if_neg hbreak]
    by_cases hc : 0xf4 < c
    · obtain ⟨-, hcolumn⟩ := columnAfter_long hc lp next
      rw [hcolumn] at ih ⊢
      by_cases hfit : lp ≤ 72 ∨ (lp = 73 ∧ crlf <+: next :: str)
      · rw [ih (hfit.imp (fun h => by omega) fun h => ⟨by omega, Or.inr h.2⟩)]
        exact (and_iff_right fun _ => hfit).symm
      · refine iff_of_false (fun hall => ?_) fun h => hfit (h.1 hc)
        rw [not_or, not_and] at hfit
        rcases Nat.lt_or_ge lp 74 with hlt | hge
        · obtain ⟨l, hl, hgt⟩ := exists_lineLength_gt (lp + 3) (hfit.2 (by omega))
          have hl' := hall l hl
          omega
        · obtain ⟨l, hl, hge'⟩ := exists_lineLength_ge (lp + 3) (next :: str)
          have hl' := hall l hl
          omega
    · rw [ih (Or.inl (columnAfter_le hc next hle))]
      exact (and_iff_right fun h => absurd h hc).symm

/-- The lines of the text have at most 76 characters exactly when the bytes from 0xF5 on fit. -/
theorem lines_short_iff (str : List UInt8) :
    (∀ line ∈ pieces crlf (quotPrintEncode str), line.length ≤ 76) ↔ LongBytesFit 0 str := by
  have hlengths : (pieces crlf (quotPrintEncode str)).map List.length = lineLengths 0 str :=
    map_length_pieces [] List.not_mem_nil str
  rw [← lineLengths_le_iff (Or.inl (Nat.zero_le _)), ← hlengths, List.forall_mem_map]

/-- The text of 26 bytes 0xFF is one line of 78 characters. -/
theorem not_lines_short : ¬ ∀ line ∈ pieces crlf (quotPrintEncode (List.replicate 26 0xff)),
    line.length ≤ 76 := by
  have hlengths : (pieces crlf (quotPrintEncode (List.replicate 26 0xff))).map List.length =
      lineLengths 0 (List.replicate 26 0xff) :=
    map_length_pieces [] List.not_mem_nil (List.replicate 26 0xff)
  rw [← List.forall_mem_map (P := fun n => n ≤ 76), hlengths]
  decide

end PhpRuntime.Text
