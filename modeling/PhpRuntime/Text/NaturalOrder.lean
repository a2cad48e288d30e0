import Mathlib.Tactic.SplitIfs
import PhpRuntime.Text.Natural

/-!
# Natural order is a total preorder

The comparison gives the sign of comparing the keys of both strings, which are made of the runs of
digits and the other characters. The exception is an empty string, where the difference of the
lengths is returned as an `int`.
-/

set_option autoImplicit false

namespace PhpRuntime.Text

open Lib

variable {a b s t u w : List UInt8} {p q : ℕ} {c : UInt8} {foldCase : Bool}

/-! ## Reading -/

/-- What is read from a place on. -/
structure Reads (s : List UInt8) (p : ℕ) (rest : List UInt8) : Prop where
  drop : s.drop p = rest
  le : p ≤ s.length

theorem Reads.start (s : List UInt8) : Reads s 0 s := ⟨rfl, Nat.zero_le _⟩

theorem Reads.length (h : Reads s p t) : p + t.length = s.length := by
  have hle := h.le
  rw [← h.drop, List.length_drop]
  omega

theorem Reads.charAt (h : Reads s p t) : charAt s p = .ok (t.headD 0) := by
  rw [Text.charAt, if_pos h.le, ← h.drop, List.getD_eq_getElem?_getD, List.headD_eq_head?_getD,
    List.head?_drop]

theorem Reads.next (h : Reads s p t) (ht : t ≠ []) : Reads s (p + 1) (t.drop 1) := by
  have hlength := h.length
  have hpos := List.length_pos_iff.mpr ht
  refine ⟨?_, by omega⟩
  rw [← h.drop, List.drop_drop]

theorem Reads.eq_end (h : Reads s p t) : p = s.length ↔ t = [] := by
  have hlength := h.length
  rw [← List.length_eq_zero_iff]
  omega

theorem Reads.atDigit (h : Reads s p t) : atDigit s p = .ok (isdigit (t.headD 0)) := by
  rw [Text.atDigit]
  split_ifs with hend
  · rw [h.eq_end.mp hend]
    rfl
  · rw [h.charAt, ok_bind]

theorem dropZeros_length (t : List UInt8) :
    (dropZeros t).length ≤ t.length ∧ (t ≠ [] → dropZeros t ≠ []) := by
  fun_induction dropZeros t with
  | case1 c d t h ih =>
    refine ⟨Nat.le_trans ih.1 (Nat.le_succ _), fun _ => ih.2 (List.cons_ne_nil _ _)⟩
  | case2 c d t h => exact ⟨Nat.le_refl _, id⟩
  | case3 t h => exact ⟨Nat.le_refl _, id⟩

theorem skipZeros_eq (turns : ℕ) (h : Reads s p t) (hturns : t.length < turns) :
    ∃ p', skipZeros s turns p (t.headD 0) = .ok (p', (dropZeros t).headD 0) ∧
      Reads s p' (dropZeros t) := by
  induction turns generalizing p t with
  | zero => exact absurd hturns (Nat.not_lt_zero _)
  | succ turns ih =>
    have hlength := h.length
    rw [skipZeros]
    match t, h, hlength, hturns with
    | [], h, _, _ => exact ⟨p, rfl, h⟩
    | [c], h, hlength, _ =>
      rw [List.length_singleton] at hlength
      refine ⟨p, ?_, h⟩
      rw [if_neg (by omega)]
      rfl
    | c :: d :: t, h, hlength, hturns =>
      have hnext : Reads s (p + 1) (d :: t) := h.next (List.cons_ne_nil _ _)
      rw [List.length_cons, List.length_cons] at hlength hturns
      rw [dropZeros, List.headD_cons]
      by_cases hc : c = 48
      · have hin : c = 48 ∧ p + 1 < s.length := ⟨hc, by omega⟩
        rw [if_pos hin, hnext.charAt, ok_bind, List.headD_cons]
        by_cases hd : isdigit d
        · rw [if_pos hd, if_pos ⟨hc, hd⟩]
          exact ih hnext (by rw [List.length_cons]; omega)
        · rw [if_neg hd, if_neg fun hno => hd hno.2]
          exact ⟨p, rfl, h⟩
      · rw [if_neg fun hno => hc hno.1, if_neg fun hno => hc hno.1]
        exact ⟨p, rfl, h⟩

theorem skipSpaces_eq (turns : ℕ) (h : Reads s p t) (hturns : t.length < turns) :
    ∃ p', skipSpaces s turns p (t.headD 0) = .ok (p', (t.dropWhile isspace).headD 0) ∧
      Reads s p' (t.dropWhile isspace) := by
  induction turns generalizing p t with
  | zero => exact absurd hturns (Nat.not_lt_zero _)
  | succ turns ih =>
    rw [skipSpaces]
    cases t with
    | nil => exact ⟨p, rfl, h⟩
    | cons c t =>
      have hnext : Reads s (p + 1) t := h.next (List.cons_ne_nil _ _)
      rw [List.length_cons] at hturns
      rw [List.headD_cons, List.dropWhile_cons]
      by_cases hc : isspace c
      · rw [if_pos hc, if_pos hc, hnext.charAt, ok_bind]
        exact ih hnext (by omega)
      · rw [if_neg hc, if_neg hc]
        exact ⟨p, rfl, h⟩

/-! ## Runs of digits -/

theorem digits_cases (t : List UInt8) :
    (isdigit (t.headD 0) = false ∧ t.takeWhile isdigit = [] ∧ t.dropWhile isdigit = t) ∨
      ∃ c r, t = c :: r ∧ isdigit c = true ∧
        t.takeWhile isdigit = c :: r.takeWhile isdigit ∧
        t.dropWhile isdigit = r.dropWhile isdigit := by
  cases t with
  | nil => exact .inl ⟨rfl, rfl, rfl⟩
  | cons c r =>
    cases hc : isdigit c with
    | false =>
      refine .inl ⟨hc, ?_, ?_⟩
      · rw [List.takeWhile_cons, hc]
        rfl
      · rw [List.dropWhile_cons, hc]
        rfl
    | true =>
      refine .inr ⟨c, r, rfl, hc, ?_, ?_⟩
      · rw [List.takeWhile_cons, hc]
        rfl
      · rw [List.dropWhile_cons, hc]
        rfl

theorem takeWhile_digit (hc : isdigit c = true) (t : List UInt8) :
    (c :: t).takeWhile isdigit = c :: t.takeWhile isdigit := by
  rw [List.takeWhile_cons, hc]
  rfl

theorem lexCompare_codes (c d : UInt8) (u w : List UInt8) :
    lexCompare (codes (c :: u)) (codes (d :: w)) =
      if c < d then -1 else if d < c then 1 else lexCompare (codes u) (codes w) := by
  rw [codes, codes, List.map_cons, List.map_cons, lexCompare]
  simp only [UInt8.lt_iff_toNat_lt]
  rfl

/-- What `compare_left` compares. -/
def leftResult (u w : List UInt8) : ℤ :=
  lexCompare (codes (u.takeWhile isdigit)) (codes (w.takeWhile isdigit))

theorem compareLeft_eq (turns : ℕ) (hu : Reads a p u) (hw : Reads b q w)
    (hturns : u.length < turns) :
    ∃ p' q', compareLeft a b turns p q = .ok (leftResult u w, p', q') ∧
      (leftResult u w = 0 →
        Reads a p' (u.dropWhile isdigit) ∧ Reads b q' (w.dropWhile isdigit)) := by
  induction turns generalizing p q u w with
  | zero => exact absurd hturns (Nat.not_lt_zero _)
  | succ turns ih =>
    rw [compareLeft, hu.atDigit, hw.atDigit, ok_bind, ok_bind]
    obtain ⟨hud, hut, hur⟩ | ⟨c, u, rfl, hc, hut, hur⟩ := digits_cases u
    · obtain ⟨hwd, hwt, hwr⟩ | ⟨d, w, rfl, hd, hwt, hwr⟩ := digits_cases w
      · have hresult : leftResult u w = 0 := by
          rw [leftResult, hut, hwt]
          rfl
        rw [hud, hwd, hresult, hur, hwr]
        exact ⟨p, q, rfl, fun _ => ⟨hu, hw⟩⟩
      · have hresult : leftResult u (d :: w) = -1 := by
          rw [leftResult, hut, hwt]
          rfl
        rw [hud, List.headD_cons, hd, hresult]
        exact ⟨p, q, rfl, fun hno => by cases hno⟩
    · obtain ⟨hwd, hwt, hwr⟩ | ⟨d, w, rfl, hd, hwt, hwr⟩ := digits_cases w
      · have hresult : leftResult (c :: u) w = 1 := by
          rw [leftResult, hut, hwt]
          rfl
        rw [hwd, List.headD_cons, hc, hresult]
        exact ⟨p, q, rfl, fun hno => by cases hno⟩
      · have hresult : leftResult (c :: u) (d :: w) =
            if c < d then -1 else if d < c then 1 else leftResult u w := by
          rw [leftResult, hut, hwt, lexCompare_codes]
          rfl
        rw [List.headD_cons, List.headD_cons, hc, hd, hresult, hu.charAt, hw.charAt, hur, hwr]
        change ∃ p' q', (if c < d then _ else if d < c then _ else _) = _ ∧ _
        rw [List.length_cons] at hturns
        by_cases hlt : c < d
        · rw [if_pos hlt, if_pos hlt]
          exact ⟨p, q, rfl, fun hno => by cases hno⟩
        · rw [if_neg hlt, if_neg hlt]
          by_cases hgt : d < c
          · rw [if_pos hgt, if_pos hgt]
            exact ⟨p, q, rfl, fun hno => by cases hno⟩
          · rw [if_neg hgt, if_neg hgt]
            exact ih (hu.next (List.cons_ne_nil _ _)) (hw.next (List.cons_ne_nil _ _)) (by omega)

/-- What `compare_right` compares, with the bias of the digits so far. -/
def rightResult (bias : ℤ) (u w : List UInt8) : ℤ :=
  if u.length < w.length then -1
  else if w.length < u.length then 1
  else if bias ≠ 0 then bias
  else lexCompare (codes u) (codes w)

theorem rightResult_cons (bias : ℤ) (c d : UInt8) (u w : List UInt8) :
    rightResult bias (c :: u) (d :: w) =
      rightResult (if bias ≠ 0 then bias else if c < d then -1 else if d < c then 1 else 0) u w := by
  rw [rightResult, rightResult, List.length_cons, List.length_cons, lexCompare_codes]
  simp only [Nat.add_lt_add_iff_right]
  split_ifs <;> first | rfl | contradiction

theorem rightResult_nil_cons (bias : ℤ) (d : UInt8) (w : List UInt8) :
    rightResult bias [] (d :: w) = -1 := if_pos (Nat.succ_pos _)

theorem rightResult_cons_nil (bias : ℤ) (c : UInt8) (u : List UInt8) :
    rightResult bias (c :: u) [] = 1 := by
  have hlt : ¬ (c :: u).length < ([] : List UInt8).length := Nat.not_lt_zero _
  rw [rightResult, if_neg hlt]
  exact if_pos (Nat.succ_pos _)

theorem compareRight_eq (turns : ℕ) (bias : ℤ) (hu : Reads a p u) (hw : Reads b q w)
    (hturns : u.length < turns) :
    ∃ p' q', compareRight a b turns p q bias =
        .ok (rightResult bias (u.takeWhile isdigit) (w.takeWhile isdigit), p', q') ∧
      (rightResult bias (u.takeWhile isdigit) (w.takeWhile isdigit) = 0 →
        Reads a p' (u.dropWhile isdigit) ∧ Reads b q' (w.dropWhile isdigit)) := by
  induction turns generalizing p q u w bias with
  | zero => exact absurd hturns (Nat.not_lt_zero _)
  | succ turns ih =>
    rw [compareRight, hu.atDigit, hw.atDigit, ok_bind, ok_bind]
    obtain ⟨hud, hut, hur⟩ | ⟨c, u, rfl, hc, hut, hur⟩ := digits_cases u
    · obtain ⟨hwd, hwt, hwr⟩ | ⟨d, w, rfl, hd, hwt, hwr⟩ := digits_cases w
      · have hresult : rightResult bias [] [] = bias := by
          rw [rightResult]
          by_cases hbias : bias = 0
          · rw [hbias]
            rfl
          · simp [hbias]
        rw [hud, hwd, hut, hwt, hresult, hur, hwr]
        exact ⟨p, q, rfl, fun _ => ⟨hu, hw⟩⟩
      · rw [hud, List.headD_cons, hd, hut, hwt, rightResult_nil_cons]
        exact ⟨p, q, rfl, fun hno => by cases hno⟩
    · obtain ⟨hwd, hwt, hwr⟩ | ⟨d, w, rfl, hd, hwt, hwr⟩ := digits_cases w
      · rw [hwd, List.headD_cons, hc, hut, hwt, rightResult_cons_nil]
        exact ⟨p, q, rfl, fun hno => by cases hno⟩
      · rw [List.headD_cons, List.headD_cons, hc, hd, hut, hwt, rightResult_cons, hu.charAt,
          hw.charAt, hur, hwr]
        rw [List.length_cons] at hturns
        exact ih _ (hu.next (List.cons_ne_nil _ _)) (hw.next (List.cons_ne_nil _ _)) (by omega)

def runResult (u w : List UInt8) : ℤ :=
  if u.headD 0 = 48 ∨ w.headD 0 = 48 then leftResult u w
  else rightResult 0 (u.takeWhile isdigit) (w.takeWhile isdigit)

theorem codes_pos (t : List UInt8) : ∀ x ∈ codes (t.takeWhile isdigit), 0 < x := by
  intro x hx
  obtain ⟨c, hc, rfl⟩ := List.mem_map.mp hx
  have hdigit := List.mem_takeWhile_imp hc
  rw [isdigit_iff] at hdigit
  omega

theorem runKey_fraction (hc : c = 48) (u : List UInt8) (s : List ℕ) :
    runKey (c :: u) ++ s = 48 :: 0 :: (codes (c :: u) ++ 0 :: s) := by
  rw [runKey, List.headD_cons, if_pos hc, List.cons_append, List.cons_append, List.append_assoc,
    List.singleton_append]

theorem runKey_number (hc : c ≠ 48) (u : List UInt8) (s : List ℕ) :
    runKey (c :: u) ++ s = 48 :: 1 :: (c :: u).length :: (codes (c :: u) ++ s) := by
  rw [runKey, List.headD_cons, if_neg hc, List.cons_append, List.cons_append, List.cons_append]

theorem fraction_lt {d : UInt8} (hc : c = 48) (hd : isdigit d = true) (hne : d ≠ 48) : c < d := by
  rw [isdigit_iff] at hd
  have hd48 : d.toNat ≠ 48 := fun hno => hne (UInt8.toNat_inj.mp hno)
  rw [UInt8.lt_iff_toNat_lt, hc]
  change 48 < d.toNat
  omega

/-- **A run is compared by its key.** -/
theorem lexCompare_runKey (hu : isdigit (u.headD 0) = true) (hw : isdigit (w.headD 0) = true)
    (s t : List ℕ) :
    lexCompare (runKey (u.takeWhile isdigit) ++ s) (runKey (w.takeWhile isdigit) ++ t) =
      if runResult u w = 0 then lexCompare s t else runResult u w := by
  obtain ⟨hno, -, -⟩ | ⟨c, u, rfl, hc, -, -⟩ := digits_cases u
  · rw [hno] at hu
    cases hu
  obtain ⟨hno, -, -⟩ | ⟨d, w, rfl, hd, -, -⟩ := digits_cases w
  · rw [hno] at hw
    cases hw
  have hpos := codes_pos (c :: u)
  have hpos' := codes_pos (d :: w)
  rw [takeWhile_digit hc] at hpos
  rw [takeWhile_digit hd] at hpos'
  rw [runResult, leftResult, List.headD_cons, List.headD_cons, takeWhile_digit hc,
    takeWhile_digit hd]
  by_cases h : c = 48
  · have hleft : c = 48 ∨ d = 48 := Or.inl h
    rw [if_pos hleft, runKey_fraction h]
    by_cases h' : d = 48
    · rw [runKey_fraction h', lexCompare_cons_self, lexCompare_cons_self,
        lexCompare_terminated hpos hpos']
    · rw [runKey_number h', lexCompare_cons_self, lexCompare_cons_lt Nat.zero_lt_one,
        lexCompare_codes, if_pos (fraction_lt h hd h')]
      rfl
  · by_cases h' : d = 48
    · have hleft : c = 48 ∨ d = 48 := Or.inr h'
      have hlt := fraction_lt h' hc h
      rw [if_pos hleft, runKey_number h, runKey_fraction h', lexCompare_cons_self,
        lexCompare_cons_gt Nat.zero_lt_one, lexCompare_codes,
        if_neg (UInt8.not_lt.mpr (UInt8.le_of_lt hlt)), if_pos hlt]
      rfl
    · -- two numbers: the longer run is greater
      rw [if_neg (not_or.mpr ⟨h, h'⟩), runKey_number h, runKey_number h', lexCompare_cons_self,
        lexCompare_cons_self]
      generalize c :: u.takeWhile isdigit = u
      generalize d :: w.takeWhile isdigit = w
      rw [rightResult]
      obtain hlt | heq | hlt := Nat.lt_trichotomy u.length w.length
      · rw [lexCompare_cons_lt hlt, if_pos hlt]
        rfl
      · have hlength : (codes u).length = (codes w).length := by
          rw [codes, codes, List.length_map, List.length_map, heq]
        rw [heq, lexCompare_cons_self, lexCompare_append hlength, if_neg (Nat.lt_irrefl _),
          if_neg (Nat.lt_irrefl _), if_neg (not_not.mpr rfl)]
      · rw [lexCompare_cons_gt hlt, if_neg (Nat.not_lt.mpr (Nat.le_of_lt hlt)), if_pos hlt]
        rfl

theorem compareRuns_eq (hu : Reads a p u) (hw : Reads b q w)
    (hud : isdigit (u.headD 0) = true) (hwd : isdigit (w.headD 0) = true) :
    (runResult u w ≠ 0 ∧
      compareRuns a b p q (u.headD 0) (w.headD 0) = .ok (.inl (runResult u w))) ∨
    (runResult u w = 0 ∧ u.dropWhile isdigit = [] ∧ w.dropWhile isdigit = [] ∧
      compareRuns a b p q (u.headD 0) (w.headD 0) = .ok (.inl 0)) ∨
    (runResult u w = 0 ∧ ∃ p' q', Reads a p' (u.dropWhile isdigit) ∧
      Reads b q' (w.dropWhile isdigit) ∧
      compareRuns a b p q (u.headD 0) (w.headD 0) = .ok (.inr (p', q',
        (u.dropWhile isdigit).headD 0, (w.dropWhile isdigit).headD 0))) := by
  have hlength := hu.length
  obtain ⟨p', q', hrun, hplaces⟩ : ∃ p' q',
      compareDigits a b p q (u.headD 0) (w.headD 0) = .ok (runResult u w, p', q') ∧
      (runResult u w = 0 →
        Reads a p' (u.dropWhile isdigit) ∧ Reads b q' (w.dropWhile isdigit)) := by
    rw [compareDigits, runResult]
    split_ifs
    · exact compareLeft_eq _ hu hw (by omega)
    · exact compareRight_eq _ 0 hu hw (by omega)
  rw [compareRuns, if_pos ⟨hud, hwd⟩, hrun, ok_bind]
  dsimp only
  by_cases hresult : runResult u w = 0
  · obtain ⟨hu', hw'⟩ := hplaces hresult
    simp only [hresult, ne_eq, not_true_eq_false, if_false, hu'.eq_end, hw'.eq_end]
    by_cases hend : u.dropWhile isdigit = [] ∧ w.dropWhile isdigit = []
    · rw [if_pos hend]
      exact .inr (.inl ⟨trivial, hend.1, hend.2, rfl⟩)
    · rw [if_neg hend, hu'.charAt, hw'.charAt, ok_bind, ok_bind]
      exact .inr (.inr ⟨trivial, p', q', hu', hw', rfl⟩)
  · rw [if_pos hresult]
    exact .inl ⟨hresult, rfl⟩

/-! ## The comparison -/

def leadingRest (leading : Bool) (t : List UInt8) : List UInt8 :=
  if leading then dropZeros t else t

theorem skipLeading_eq (h : Reads s p t) (leading : Bool) :
    ∃ p', skipLeading s leading p (t.headD 0) = .ok (p', (leadingRest leading t).headD 0) ∧
      Reads s p' (leadingRest leading t) := by
  have hlength := h.length
  cases leading with
  | true => exact skipZeros_eq _ h (by omega)
  | false => exact ⟨p, rfl, h⟩

theorem leadingRest_length (leading : Bool) (t : List UInt8) :
    (leadingRest leading t).length ≤ t.length ∧ (t ≠ [] → leadingRest leading t ≠ []) := by
  cases leading with
  | true => exact dropZeros_length t
  | false => exact ⟨Nat.le_refl _, id⟩

theorem restKey_of_ne (foldCase : Bool) (ht : t ≠ []) :
    restKey foldCase t = turnKey foldCase (t.dropWhile isspace) ++
      restKey foldCase (turnRest (t.dropWhile isspace)) := by
  cases t with
  | nil => exact absurd rfl ht
  | cons c t => rw [restKey]

theorem restKey_nil (foldCase : Bool) : restKey foldCase [] = [] := by rw [restKey]

theorem restKey_ne_nil (foldCase : Bool) (ht : t ≠ []) : ∃ x k, restKey foldCase t = x :: k := by
  rw [restKey_of_ne foldCase ht, turnKey]
  refine List.exists_cons_of_ne_nil fun hno => ?_
  rw [List.append_eq_nil_iff, List.append_eq_nil_iff] at hno
  exact List.cons_ne_nil _ _ hno.1.2

theorem nextTurn_eq (hu : Reads a p u) (hw : Reads b q w) (r : Except Undefined ℤ)
    (hr : u.drop 1 ≠ [] → w.drop 1 ≠ [] →
      r = .ok (lexCompare (restKey foldCase (u.drop 1)) (restKey foldCase (w.drop 1)))) :
    (if folded foldCase (u.headD 0) < folded foldCase (w.headD 0) then .ok (-1)
      else if folded foldCase (w.headD 0) < folded foldCase (u.headD 0) then .ok 1
      else if a.length ≤ p + 1 ∧ b.length ≤ q + 1 then .ok 0
      else if a.length ≤ p + 1 then .ok (-1)
      else if b.length ≤ q + 1 then .ok 1
      else r) =
    .ok (lexCompare
      ((folded foldCase (u.headD 0)).toNat :: restKey foldCase (u.drop 1))
      ((folded foldCase (w.headD 0)).toNat :: restKey foldCase (w.drop 1))) := by
  have hend {s t : List UInt8} {p : ℕ} (h : Reads s p t) : s.length ≤ p + 1 ↔ t.drop 1 = [] := by
    have hlength := h.length
    rw [List.drop_eq_nil_iff]
    omega
  simp only [UInt8.lt_iff_toNat_lt, hend hu, hend hw]
  generalize (folded foldCase (u.headD 0)).toNat = x
  generalize (folded foldCase (w.headD 0)).toNat = y
  obtain hlt | rfl | hlt := Nat.lt_trichotomy x y
  · rw [if_pos hlt, lexCompare_cons_lt hlt]
  · rw [if_neg (Nat.lt_irrefl _), if_neg (Nat.lt_irrefl _), lexCompare_cons_self]
    by_cases hu' : u.drop 1 = []
    · by_cases hw' : w.drop 1 = []
      · rw [if_pos ⟨hu', hw'⟩, hu', hw', lexCompare_self]
      · obtain ⟨y, k, hkey⟩ := restKey_ne_nil foldCase hw'
        rw [if_neg fun hno => hw' hno.2, if_pos hu', hu', restKey_nil, hkey]
        rfl
    · rw [if_neg fun hno => hu' hno.1, if_neg hu']
      by_cases hw' : w.drop 1 = []
      · obtain ⟨x, k, hkey⟩ := restKey_ne_nil foldCase hu'
        rw [if_pos hw', hw', restKey_nil, hkey]
        rfl
      · rw [if_neg hw', hr hu' hw']
  · rw [if_neg (Nat.lt_asymm hlt), if_pos hlt, lexCompare_cons_gt hlt]

theorem compareRuns_char (p q : ℕ) {ca cb : UInt8} (h : ¬ (isdigit ca = true ∧ isdigit cb = true)) :
    compareRuns a b p q ca cb = .ok (.inr (p, q, ca, cb)) := by
  rw [compareRuns, if_neg h]

theorem dropWhile_char (ht : ¬ isdigit (t.headD 0) = true) : t.dropWhile isdigit = t := by
  obtain ⟨-, -, hdrop⟩ | ⟨c, r, rfl, hc, -, -⟩ := digits_cases t
  · exact hdrop
  · exact absurd hc ht

theorem turnKey_run (foldCase : Bool) (ht : isdigit (t.headD 0) = true) (k : List ℕ) :
    turnKey foldCase t ++ k = runKey (t.takeWhile isdigit) ++
      ((folded foldCase ((t.dropWhile isdigit).headD 0)).toNat :: k) := by
  rw [turnKey, if_pos ht, List.append_assoc, List.singleton_append]

theorem turnKey_char (foldCase : Bool) (ht : ¬ isdigit (t.headD 0) = true) (k : List ℕ) :
    turnKey foldCase t ++ k = (folded foldCase (t.headD 0)).toNat :: k := by
  rw [turnKey, if_neg ht, dropWhile_char ht, List.nil_append, List.singleton_append]

theorem runKey_head (t : List UInt8) : ∃ k, runKey t = 48 :: k := by
  rw [runKey]
  split_ifs
  · exact ⟨_, rfl⟩
  · exact ⟨_, rfl⟩

theorem isdigit_folded (foldCase : Bool) (c : UInt8) : isdigit (folded foldCase c) = isdigit c := by
  cases foldCase with
  | true => exact isdigit_toupper c
  | false => rfl

theorem folded_of_isdigit (foldCase : Bool) (hc : isdigit c = true) : folded foldCase c = c := by
  cases foldCase with
  | true => exact toupper_of_isdigit hc
  | false => rfl

theorem digit_cases (foldCase : Bool) {d : UInt8} (hc : isdigit c = true)
    (hd : ¬ isdigit d = true) :
    (folded foldCase c < folded foldCase d ∧ 48 < (folded foldCase d).toNat) ∨
      (folded foldCase d < folded foldCase c ∧ (folded foldCase d).toNat < 48) := by
  rw [← isdigit_folded foldCase d, isdigit_iff] at hd
  rw [folded_of_isdigit foldCase hc]
  rw [isdigit_iff] at hc
  rw [UInt8.lt_iff_toNat_lt, UInt8.lt_iff_toNat_lt]
  omega

/-- **The comparison is the one of the keys.** -/
theorem strnatcmpLoop_eq (turns : ℕ) (leading : Bool) (hu : Reads a p u) (hw : Reads b q w)
    (hune : u ≠ []) (hwne : w ≠ []) (hturns : u.length ≤ turns) :
    strnatcmpLoop a b foldCase turns leading p q =
      .ok (lexCompare (restKey foldCase (leadingRest leading u))
        (restKey foldCase (leadingRest leading w))) := by
  induction turns generalizing leading p q u w with
  | zero => exact absurd (List.eq_nil_of_length_eq_zero (Nat.le_zero.mp hturns)) hune
  | succ turns ih =>
    obtain ⟨p₁, hskip, hu₁⟩ := skipLeading_eq hu leading
    obtain ⟨q₁, hskip', hw₁⟩ := skipLeading_eq hw leading
    obtain ⟨hle, hne⟩ := leadingRest_length leading u
    obtain ⟨-, hne'⟩ := leadingRest_length leading w
    have hlength := hu₁.length
    have hlength' := hw₁.length
    obtain ⟨p₂, hspaces, hu₂⟩ := skipSpaces_eq (a.length + 1) hu₁ (by omega)
    obtain ⟨q₂, hspaces', hw₂⟩ := skipSpaces_eq (b.length + 1) hw₁ (by omega)
    have hrest := length_turnRest (leadingRest leading u)
    rw [strnatcmpLoop, hu.charAt, hw.charAt]
    simp only [ok_bind, hskip, hskip', hspaces, hspaces']
    rw [restKey_of_ne foldCase (hne hune), restKey_of_ne foldCase (hne' hwne)]
    rw [turnRest] at hrest ⊢
    rw [turnRest]
    have hgo {p q : ℕ}
        (hu : Reads a p (((leadingRest leading u).dropWhile isspace).dropWhile isdigit))
        (hw : Reads b q (((leadingRest leading w).dropWhile isspace).dropWhile isdigit)) :=
      nextTurn_eq hu hw
        (strnatcmpLoop a b foldCase turns false (p + 1) (q + 1)) fun hune hwne =>
          ih false (hu.next fun hno => hune (by rw [hno]; rfl))
            (hw.next fun hno => hwne (by rw [hno]; rfl)) hune hwne (by omega)
    generalize (leadingRest leading u).dropWhile isspace = u at hu₂ hgo ⊢
    generalize (leadingRest leading w).dropWhile isspace = w at hw₂ hgo ⊢
    by_cases hud : isdigit (u.headD 0) = true
    · by_cases hwd : isdigit (w.headD 0) = true
      · rw [turnKey_run _ hud, turnKey_run _ hwd, lexCompare_runKey hud hwd]
        obtain ⟨hresult, hruns⟩ | ⟨hresult, hu₃, hw₃, hruns⟩ |
          ⟨hresult, p₃, q₃, hu₃, hw₃, hruns⟩ := compareRuns_eq hu₂ hw₂ hud hwd
        · rw [hruns, ok_bind, if_neg hresult]
        · rw [hruns, ok_bind, if_pos hresult, hu₃, hw₃, lexCompare_self]
        · rw [hruns, ok_bind, if_pos hresult]
          exact hgo hu₃ hw₃
      · obtain ⟨k, hkey⟩ := runKey_head (u.takeWhile isdigit)
        rw [turnKey_run _ hud, turnKey_char _ hwd, hkey, List.cons_append,
          compareRuns_char _ _ fun hno => hwd hno.2, ok_bind]
        dsimp only
        obtain ⟨hlt, hkey⟩ | ⟨hlt, hkey⟩ := digit_cases foldCase hud hwd
        · rw [if_pos hlt, lexCompare_cons_lt hkey]
        · rw [if_neg (UInt8.not_lt.mpr (UInt8.le_of_lt hlt)), if_pos hlt, lexCompare_cons_gt hkey]
    · rw [compareRuns_char _ _ fun hno => hud hno.1, ok_bind, turnKey_char _ hud]
      by_cases hwd : isdigit (w.headD 0) = true
      · obtain ⟨k, hkey⟩ := runKey_head (w.takeWhile isdigit)
        rw [turnKey_run _ hwd, hkey, List.cons_append]
        dsimp only
        obtain ⟨hlt, hkey⟩ | ⟨hlt, hkey⟩ := digit_cases foldCase hwd hud
        · rw [if_neg (UInt8.not_lt.mpr (UInt8.le_of_lt hlt)), if_pos hlt, lexCompare_cons_gt hkey]
        · rw [if_pos hlt, lexCompare_cons_lt hkey]
      · rw [dropWhile_char hud, dropWhile_char hwd] at hgo
        rw [turnKey_char _ hwd, dropWhile_char hud, dropWhile_char hwd]
        exact hgo hu₂ hw₂

theorem strnatcmpEx_of_ne (foldCase : Bool) (ha : a ≠ []) (hb : b ≠ []) :
    strnatcmpEx a b foldCase =
      .ok (lexCompare (naturalKey foldCase a) (naturalKey foldCase b)) := by
  have hno : ¬ (a.length = 0 ∨ b.length = 0) := by
    rw [List.length_eq_zero_iff, List.length_eq_zero_iff]
    exact not_or.mpr ⟨ha, hb⟩
  rw [strnatcmpEx, if_neg hno,
    strnatcmpLoop_eq _ true (Reads.start a) (Reads.start b) ha hb (Nat.le_succ _)]
  rfl

/-- A string that is empty or has a length that is positive as an `int`, as all have that are not
longer than `INT_MAX`. -/
def PositiveLength (s : List UInt8) : Prop := s = [] ∨ 0 < toInt (s.length : ℤ)

theorem naturalKey_nil (foldCase : Bool) : naturalKey foldCase [] = [] := restKey_nil foldCase

theorem naturalKey_ne_nil (foldCase : Bool) (hs : s ≠ []) :
    ∃ x k, naturalKey foldCase s = x :: k :=
  restKey_ne_nil foldCase ((dropZeros_length s).2 hs)

theorem naturalKey_nul (foldCase : Bool) : naturalKey foldCase [0] = [0] := by
  have hrest : turnRest (([0] : List UInt8).dropWhile isspace) = [] := rfl
  rw [naturalKey, dropZeros.eq_def]
  dsimp only
  rw [restKey_of_ne foldCase (List.cons_ne_nil _ _), hrest, restKey_nil, List.append_nil]
  cases foldCase <;> rfl

theorem strnatcmpEx_nil_left (foldCase : Bool) (b : List UInt8) :
    strnatcmpEx [] b foldCase = .ok (toInt (0 - (b.length : ℤ))) := rfl

theorem strnatcmpEx_nil_right (foldCase : Bool) (a : List UInt8) :
    strnatcmpEx a [] foldCase = .ok (toInt (a.length : ℤ)) := by
  rw [strnatcmpEx, if_pos (Or.inr List.length_nil)]
  rfl

theorem toInt_neg {n : ℕ} (h : 0 < toInt n) : toInt (0 - (n : ℤ)) = -toInt n := by
  rw [toInt, Int.bmod_def] at h ⊢
  rw [toInt, Int.bmod_def]
  omega

theorem strnatcmpEx_eq (foldCase : Bool) (ha : PositiveLength a) (hb : PositiveLength b) :
    ∃ r, strnatcmpEx a b foldCase = .ok r ∧
      r.sign = lexCompare (naturalKey foldCase a) (naturalKey foldCase b) := by
  by_cases hane : a = []
  · subst hane
    refine ⟨_, strnatcmpEx_nil_left foldCase b, ?_⟩
    rw [naturalKey_nil]
    obtain rfl | hpos := hb
    · rw [naturalKey_nil]
      rfl
    · have hbne : b ≠ [] := by
        rintro rfl
        exact absurd hpos (by decide)
      obtain ⟨x, k, hkey⟩ := naturalKey_ne_nil foldCase hbne
      rw [hkey, toInt_neg hpos, Int.sign_neg, Int.sign_eq_one_of_pos hpos]
      rfl
  · by_cases hbne : b = []
    · subst hbne
      have hpos := ha.resolve_left hane
      obtain ⟨x, k, hkey⟩ := naturalKey_ne_nil foldCase hane
      refine ⟨_, strnatcmpEx_nil_right foldCase a, ?_⟩
      rw [naturalKey_nil, hkey, Int.sign_eq_one_of_pos hpos]
      rfl
    · exact ⟨_, strnatcmpEx_of_ne foldCase hane hbne, sign_lexCompare _ _⟩

theorem not_preorderOn_of_long {S : List UInt8 → Prop} {v : List UInt8} (foldCase : Bool)
    (hv : ¬ PositiveLength v) (hS : S v) (hnil : S []) (hzero : S [0]) :
    ¬ PreorderOn S fun a b => strnatcmpEx a b foldCase := by
  intro h
  obtain ⟨hne, hle⟩ := not_or.mp hv
  obtain ⟨x, k, hkey⟩ := naturalKey_ne_nil foldCase hne
  have hfirst := strnatcmpEx_of_ne foldCase (List.cons_ne_nil 0 []) hne
  have hzero_le : lexCompare (naturalKey foldCase [0]) (naturalKey foldCase v) ≤ 0 := by
    rw [naturalKey_nul, hkey]
    obtain hx | hx := Nat.eq_zero_or_pos x
    · rw [hx, lexCompare_cons_self]
      cases k
      · exact Int.le_refl 0
      · exact neg_one_nonpos
    · rw [lexCompare_cons_lt hx]
      exact neg_one_nonpos
  have hlast := h.trans [0] v [] _ _ _ hzero hS hnil hfirst (strnatcmpEx_nil_right foldCase v)
    (strnatcmpEx_nil_right foldCase [0]) hzero_le (Int.not_lt.mp hle)
  exact absurd hlast (by decide)

end PhpRuntime.Text
