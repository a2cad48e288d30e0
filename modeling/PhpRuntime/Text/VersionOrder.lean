import Mathlib.Data.List.TakeWhile
import Mathlib.Tactic.SplitIfs
import PhpRuntime.Lib.LexCompare
import PhpRuntime.Lib.Splitting
import PhpRuntime.Text.Version

/-!
# The order of versions

The comparison of two versions is the one of their keys, when no component begins with a `#` and
none is empty at the end. Where a version ends, its key has a mark that is less than a number and
greater than the names up to `rc`.
-/

set_option autoImplicit false

namespace PhpRuntime.Text

open Lib Lib.Splitting

variable {c d p q n v : List UInt8} {x : UInt8}

/-! ## The order of components -/

theorem specialOrder_cons (x : UInt8) (t : List UInt8) :
    specialOrder (x :: t) =
      if x = 100 then (if [101, 118].isPrefixOf t then 0 else -1)
      else if x = 97 then 1
      else if x = 98 then 2
      else if x = 82 then (if [67].isPrefixOf t then 3 else -1)
      else if x = 114 then (if [99].isPrefixOf t then 3 else -1)
      else if x = 35 then 4
      else if x = 112 then 5
      else -1 := by
  have hbeq {y : UInt8} (h : x ≠ y) : (y == x) = false := beq_eq_false_iff_ne.mpr h.symm
  simp only [specialOrder, specialForms, List.find?_cons, List.isPrefixOf]
  by_cases hd : x = 100
  · subst hd
    rw [if_pos rfl]
    cases List.isPrefixOf [101, 118] t <;> rfl
  by_cases ha : x = 97
  · subst ha
    cases List.isPrefixOf [108, 112, 104, 97] t <;> rfl
  by_cases hb : x = 98
  · subst hb
    cases List.isPrefixOf [101, 116, 97] t <;> rfl
  by_cases hR : x = 82
  · subst hR
    cases List.isPrefixOf [67] t <;> rfl
  by_cases hr : x = 114
  · subst hr
    cases List.isPrefixOf [99] t <;> rfl
  rw [if_neg hd, if_neg ha, if_neg hb, if_neg hR, if_neg hr]
  simp only [hbeq hd, hbeq ha, hbeq hb, hbeq hR, hbeq hr, Bool.false_and]
  by_cases hn : x = 35
  · subst hn
    rfl
  by_cases hp : x = 112
  · subst hp
    cases List.isPrefixOf [108] t <;> rfl
  rw [if_neg hn, if_neg hp]
  simp only [hbeq hn, hbeq hp, Bool.false_and]
  rfl

theorem specialOrder_le_three (hnumber : c.headD 0 ≠ 35) (hp : c.headD 0 ≠ 112) :
    -1 ≤ specialOrder c ∧ specialOrder c ≤ 3 := by
  cases c with
  | nil => decide
  | cons x t =>
    rw [List.headD_cons] at hnumber hp
    rw [specialOrder_cons, if_neg hnumber, if_neg hp]
    split_ifs <;> decide

theorem specialOrder_p (hp : c.headD 0 = 112) : specialOrder c = 5 := by
  cases c with
  | nil => exact absurd hp (by decide)
  | cons x t =>
    rw [List.headD_cons] at hp
    rw [specialOrder_cons, hp]
    rfl

theorem specialOrder_number (hnumber : c.headD 0 = 35) : specialOrder c = 4 := by
  cases c with
  | nil => exact absurd hnumber (by decide)
  | cons x t =>
    rw [List.headD_cons] at hnumber
    rw [specialOrder_cons, hnumber]
    rfl

/-- What a component is compared by: a number, or a name by its order, below or above them. -/
def componentKey (c : List UInt8) : List ℤ :=
  if isdigit (c.headD 0) then [5, strtol c]
  else if specialOrder c ≤ 3 then [specialOrder c]
  else [6]

theorem lexCompare_int_cons (x y : ℤ) (s t : List ℤ) :
    lexCompare (x :: s) (y :: t) = if (x - y).sign = 0 then lexCompare s t else (x - y).sign := by
  obtain h | rfl | h := lt_trichotomy x y
  · rw [lexCompare_cons_lt h, Int.sign_eq_neg_one_of_neg (by omega)]
    rfl
  · rw [lexCompare_cons_self, Int.sub_self]
    rfl
  · rw [lexCompare_cons_gt h, Int.sign_eq_one_of_pos (by omega)]
    rfl

theorem sign_sub_congr {x y x' y' : ℤ} (h : x < y ↔ x' < y') (h' : y < x ↔ y' < x') :
    (x - y).sign = (x' - y').sign := by
  obtain hxy | rfl | hxy := lt_trichotomy x y
  · rw [Int.sign_eq_neg_one_of_neg (by omega), Int.sign_eq_neg_one_of_neg (by omega)]
  · rw [show x' - y' = x - x by omega]
  · rw [Int.sign_eq_one_of_pos (by omega), Int.sign_eq_one_of_pos (by omega)]

theorem componentKey_name (hdigit : ¬ isdigit (c.headD 0)) (hnumber : c.headD 0 ≠ 35) :
    ∃ k, componentKey c = [k] ∧ (specialOrder c = k ∧ -1 ≤ k ∧ k ≤ 3 ∧ c.headD 0 ≠ 112 ∨
      specialOrder c = 5 ∧ k = 6 ∧ c.headD 0 = 112) := by
  rw [componentKey, if_neg hdigit]
  by_cases hp : c.headD 0 = 112
  · rw [specialOrder_p hp]
    exact ⟨6, rfl, .inr ⟨rfl, rfl, hp⟩⟩
  · obtain ⟨hlow, hhigh⟩ := specialOrder_le_three hnumber hp
    rw [if_pos hhigh]
    exact ⟨_, rfl, .inl ⟨rfl, hlow, hhigh, hp⟩⟩

theorem componentKey_number (hdigit : isdigit (c.headD 0) = true) (s : List ℤ) :
    componentKey c ++ s = 5 :: strtol c :: s := by
  rw [componentKey, if_pos hdigit, List.cons_append, List.singleton_append]

theorem specialOrder_numberForm : specialOrder numberForm = 4 := rfl

theorem compareComponents_numbers (hc : isdigit (c.headD 0) = true)
    (hd : isdigit (d.headD 0) = true) :
    compareComponents c d = (strtol c - strtol d).sign :=
  if_pos ⟨hc, hd⟩

theorem compareComponents_names (hc : ¬ isdigit (c.headD 0) = true)
    (hd : ¬ isdigit (d.headD 0) = true) :
    compareComponents c d = (specialOrder c - specialOrder d).sign :=
  (if_neg fun hno => hc hno.1).trans (if_pos ⟨hc, hd⟩)

theorem compareComponents_number_name (hc : isdigit (c.headD 0) = true)
    (hd : ¬ isdigit (d.headD 0) = true) :
    compareComponents c d = (4 - specialOrder d).sign :=
  (if_neg fun hno => hd hno.2).trans ((if_neg fun hno => hno.1 hc).trans (if_pos hc))

theorem compareComponents_name_number (hc : ¬ isdigit (c.headD 0) = true)
    (hd : isdigit (d.headD 0) = true) :
    compareComponents c d = (specialOrder c - 4).sign :=
  (if_neg fun hno => hc hno.1).trans ((if_neg fun hno => hno.2 hd).trans (if_neg hc))

/-- **A component is compared by its key.** -/
theorem lexCompare_componentKey (hc : c.headD 0 ≠ 35) (hd : d.headD 0 ≠ 35) (s t : List ℤ) :
    lexCompare (componentKey c ++ s) (componentKey d ++ t) =
      if compareComponents c d = 0 then lexCompare s t else compareComponents c d := by
  by_cases hcd : isdigit (c.headD 0) = true
  · by_cases hdd : isdigit (d.headD 0) = true
    · rw [compareComponents_numbers hcd hdd, componentKey_number hcd, componentKey_number hdd,
        lexCompare_cons_self, lexCompare_int_cons]
    · obtain ⟨k, hkey, horder⟩ := componentKey_name hdd hd
      have hsign : (5 - k).sign = (4 - specialOrder d).sign :=
        sign_sub_congr (by omega) (by omega)
      have hne : ¬ (4 - specialOrder d).sign = 0 := by
        rw [Int.sign_eq_zero_iff_zero]
        omega
      rw [compareComponents_number_name hcd hdd, componentKey_number hcd, hkey,
        List.singleton_append, lexCompare_int_cons, hsign, if_neg hne, if_neg hne]
  · obtain ⟨k, hkey, horder⟩ := componentKey_name hcd hc
    by_cases hdd : isdigit (d.headD 0) = true
    · have hsign : (k - 5).sign = (specialOrder c - 4).sign :=
        sign_sub_congr (by omega) (by omega)
      have hne : ¬ (specialOrder c - 4).sign = 0 := by
        rw [Int.sign_eq_zero_iff_zero]
        omega
      rw [compareComponents_name_number hcd hdd, componentKey_number hdd, hkey,
        List.singleton_append, lexCompare_int_cons, hsign, if_neg hne, if_neg hne]
    · obtain ⟨k', hkey', horder'⟩ := componentKey_name hdd hd
      have hsign : (k - k').sign = (specialOrder c - specialOrder d).sign :=
        sign_sub_congr (by omega) (by omega)
      rw [compareComponents_names hcd hdd, hkey, hkey', List.singleton_append,
        List.singleton_append, lexCompare_int_cons, hsign]

/-! ## Dots -/

theorem component_head (p : List UInt8) :
    (component p).headD 0 = if p.headD 0 = 46 then 0 else p.headD 0 := by
  cases p with
  | nil => rfl
  | cons x p =>
    rw [component, List.takeWhile_cons, List.headD_cons]
    by_cases hx : x = 46
    · rw [if_pos hx, hx]
      rfl
    · rw [if_neg hx, if_pos (bne_iff_ne.mpr hx)]
      rfl

theorem behindDot_cases (p : List UInt8) :
    (behindDot p = none ∧ component p = p ∧ 46 ∉ p) ∨
      ∃ n, behindDot p = some n ∧ p = component p ++ 46 :: n ∧ 46 ∉ component p := by
  have hsplit : component p ++ p.dropWhile (· != 46) = p := List.takeWhile_append_dropWhile
  have hcomponent : 46 ∉ component p := by
    intro hmem
    have hne := List.mem_takeWhile_imp hmem
    simp at hne
  rw [behindDot]
  cases hdrop : p.dropWhile (· != 46) with
  | nil =>
    rw [hdrop, List.append_nil] at hsplit
    rw [hsplit] at hcomponent
    exact .inl ⟨rfl, hsplit, hcomponent⟩
  | cons y n =>
    have hy : (y != 46) = false := by
      have hhead := List.head?_dropWhile_not (· != 46) p
      rw [hdrop] at hhead
      simpa using hhead
    rw [bne_eq_false_iff_eq] at hy
    rw [hdrop, hy] at hsplit
    exact .inr ⟨n, rfl, hsplit.symm, hcomponent⟩

def formKey (p : List UInt8) : List ℤ := (pieces [46] p).flatMap componentKey ++ [4]

theorem formKey_none (h : behindDot p = none) : formKey p = componentKey (component p) ++ [4] := by
  obtain ⟨-, hcomponent, hdot⟩ | ⟨n, hn, -, -⟩ := behindDot_cases p
  · rw [formKey, pieces_of_not_mem hdot, hcomponent, List.flatMap_singleton]
  · rw [h] at hn
    cases hn

theorem formKey_some (h : behindDot p = some n) :
    formKey p = componentKey (component p) ++ formKey n := by
  obtain ⟨hn, -, -⟩ | ⟨n', hn, hp, hdot⟩ := behindDot_cases p
  · rw [h] at hn
    cases hn
  · rw [h, Option.some.injEq] at hn
    subst hn
    have hpieces := pieces_append_cons hdot n
    rw [← hp] at hpieces
    rw [formKey, hpieces, List.flatMap_cons, List.append_assoc, formKey]

/-! ## The loop -/

theorem sign_sub_swap (x y : ℤ) : (y - x).sign = -(x - y).sign := by
  rw [← Int.sign_neg, Int.neg_sub]

theorem compareComponents_swap (c d : List UInt8) :
    compareComponents d c = -compareComponents c d := by
  by_cases hc : isdigit (c.headD 0) = true
  · by_cases hd : isdigit (d.headD 0) = true
    · rw [compareComponents_numbers hc hd, compareComponents_numbers hd hc, sign_sub_swap]
    · rw [compareComponents_number_name hc hd, compareComponents_name_number hd hc, sign_sub_swap]
  · by_cases hd : isdigit (d.headD 0) = true
    · rw [compareComponents_name_number hc hd, compareComponents_number_name hd hc, sign_sub_swap]
    · rw [compareComponents_names hc hd, compareComponents_names hd hc, sign_sub_swap]

theorem compareComponents_self (c : List UInt8) : compareComponents c c = 0 := by
  have hswap := compareComponents_swap c c
  omega

/-- The rest of a version without a `#` and with something behind the last dot. -/
structure PlainForm (p : List UInt8) : Prop where
  ne : p ≠ []
  number : 35 ∉ p
  dot : p.getLast? ≠ some 46

theorem PlainForm.behind (h : PlainForm p) (hn : behindDot p = some n) : PlainForm n := by
  obtain ⟨hnone, -, -⟩ | ⟨n', hn', hp, -⟩ := behindDot_cases p
  · rw [hn] at hnone
    cases hnone
  · rw [hn, Option.some.injEq] at hn'
    subst hn'
    have hne : n ≠ [] := by
      rintro rfl
      refine h.dot ?_
      rw [hp, List.getLast?_concat]
    refine ⟨hne, fun hmem => h.number ?_, fun hlast => h.dot ?_⟩
    · rw [hp]
      exact List.mem_append_right _ (List.mem_cons_of_mem _ hmem)
    · rw [hp, List.getLast?_append_of_ne_nil _ (List.cons_ne_nil _ _), List.getLast?_cons, hlast]
      rfl

theorem PlainForm.head (h : PlainForm p) : p.headD 0 ≠ 35 := by
  cases p with
  | nil => exact absurd rfl h.ne
  | cons x p =>
    rintro rfl
    exact h.number List.mem_cons_self

theorem length_behindDot (hn : behindDot p = some n) : n.length < p.length := by
  obtain ⟨hnone, -, -⟩ | ⟨n', hn', hp, -⟩ := behindDot_cases p
  · rw [hn] at hnone
    cases hnone
  · rw [hn, Option.some.injEq] at hn'
    subst hn'
    rw [hp, List.length_append, List.length_cons]
    omega

theorem component_head_cases (p : List UInt8) :
    isdigit ((component p).headD 0) = isdigit (p.headD 0) ∧
      ((component p).headD 0 = 112 ↔ p.headD 0 = 112) ∧
      ((component p).headD 0 = 35 ↔ p.headD 0 = 35) := by
  rw [component_head]
  split_ifs with hdot
  · rw [hdot]
    decide
  · exact ⟨rfl, Iff.rfl, Iff.rfl⟩

theorem compareComponents_numberForm (hdigit : ¬ isdigit (p.headD 0) = true)
    (hnumber : p.headD 0 ≠ 35) :
    compareComponents (component p) numberForm = if p.headD 0 = 112 then 1 else -1 := by
  obtain ⟨hd, hp, hn⟩ := component_head_cases p
  rw [← hd] at hdigit
  rw [compareComponents_names hdigit (by decide), specialOrder_numberForm]
  split_ifs with h112
  · rw [specialOrder_p (hp.mpr h112)]
    rfl
  · obtain ⟨hlow, hhigh⟩ := specialOrder_le_three (mt hn.mp hnumber) (mt hp.mp h112)
    exact Int.sign_eq_neg_one_of_neg (by omega)

theorem formKey_cases (p : List UInt8) : ∃ r, formKey p = componentKey (component p) ++ r := by
  cases h : behindDot p with
  | none => exact ⟨_, formKey_none h⟩
  | some n => exact ⟨_, formKey_some h⟩

theorem formKey_end (hnumber : p.headD 0 ≠ 35) :
    lexCompare (formKey p) [4] =
      if isdigit (p.headD 0) = true ∨ p.headD 0 = 112 then 1 else -1 := by
  obtain ⟨hd, hp, hn⟩ := component_head_cases p
  obtain ⟨r, hr⟩ := formKey_cases p
  rw [hr]
  simp only [← hd, ← hp]
  by_cases hdigit : isdigit ((component p).headD 0) = true
  · rw [if_pos (Or.inl hdigit), componentKey_number hdigit, lexCompare_cons_gt (by decide)]
  · obtain ⟨k, hkey, horder⟩ := componentKey_name hdigit (mt hn.mp hnumber)
    rw [hkey, List.singleton_append]
    obtain ⟨-, -, hk, h112⟩ | ⟨-, rfl, h112⟩ := horder
    · rw [if_neg (not_or.mpr ⟨hdigit, h112⟩), lexCompare_cons_lt (by omega)]
    · rw [if_pos (Or.inr h112), lexCompare_cons_gt (by decide)]

/-- What the function gives for the rest of a version, which does not begin with a number. -/
structure RestCompare (again : List UInt8 → List UInt8 → Except Undefined ℤ) : Prop where
  left : ∀ p, p ≠ [] → ¬ isdigit (p.headD 0) = true → p.headD 0 ≠ 35 →
    again p numberForm = .ok (if p.headD 0 = 112 then 1 else -1)
  right : ∀ p, p ≠ [] → ¬ isdigit (p.headD 0) = true → p.headD 0 ≠ 35 →
    again numberForm p = .ok (if p.headD 0 = 112 then -1 else 1)

variable {again : List UInt8 → List UInt8 → Except Undefined ℤ}

theorem RestCompare.some_none (h : RestCompare again) (hp : PlainForm p) :
    versionRest again 0 (some p) none = .ok (lexCompare (formKey p) [4]) := by
  rw [formKey_end hp.head]
  change (if isdigit (p.headD 0) then _ else _) = _
  by_cases hdigit : isdigit (p.headD 0) = true
  · rw [if_pos hdigit, if_pos (Or.inl hdigit)]
  · rw [if_neg hdigit, h.left p hp.ne hdigit hp.head]
    simp only [hdigit, Bool.false_eq_true, false_or]

theorem RestCompare.none_some (h : RestCompare again) (hp : PlainForm p) :
    versionRest again 0 none (some p) = .ok (lexCompare [4] (formKey p)) := by
  rw [lexCompare_swap, formKey_end hp.head]
  change (if isdigit (p.headD 0) then _ else _) = _
  by_cases hdigit : isdigit (p.headD 0) = true
  · rw [if_pos hdigit, if_pos (Or.inl hdigit)]
  · rw [if_neg hdigit, h.right p hp.ne hdigit hp.head]
    simp only [hdigit, Bool.false_eq_true, false_or]
    split_ifs <;> rfl

/-- **The loop compares the keys**, with what follows it. -/
theorem versionLoop_eq (h : RestCompare again) (turns : ℕ) (hp : PlainForm p) (hq : PlainForm q)
    (hturns : p.length < turns) :
    ∃ compare n1 n2, versionLoop turns p q = .ok (compare, n1, n2) ∧
      versionRest again compare n1 n2 = .ok (lexCompare (formKey p) (formKey q)) := by
  induction turns generalizing p q with
  | zero => exact absurd hturns (Nat.not_lt_zero _)
  | succ turns ih =>
    have hc : (component p).headD 0 ≠ 35 := mt (component_head_cases p).2.2.mp hp.head
    have hd : (component q).headD 0 ≠ 35 := mt (component_head_cases q).2.2.mp hq.head
    rw [versionLoop, if_neg (not_or.mpr ⟨hp.ne, hq.ne⟩)]
    by_cases hcompare : compareComponents (component p) (component q) = 0
    · dsimp only
      rw [if_neg (not_not.mpr hcompare)]
      cases hn : behindDot p with
      | none =>
        rw [formKey_none hn]
        cases hm : behindDot q with
        | none =>
          rw [formKey_none hm, lexCompare_componentKey hc hd, if_pos hcompare]
          exact ⟨0, none, none, rfl, rfl⟩
        | some m =>
          rw [formKey_some hm, lexCompare_componentKey hc hd, if_pos hcompare]
          exact ⟨0, none, some m, rfl, h.none_some (hq.behind hm)⟩
      | some n =>
        rw [formKey_some hn]
        cases hm : behindDot q with
        | none =>
          rw [formKey_none hm, lexCompare_componentKey hc hd, if_pos hcompare]
          exact ⟨0, some n, none, rfl, h.some_none (hp.behind hn)⟩
        | some m =>
          rw [formKey_some hm, lexCompare_componentKey hc hd, if_pos hcompare]
          have hlength := length_behindDot hn
          exact ih (hp.behind hn) (hq.behind hm) (by omega)
    · refine ⟨_, _, _, if_pos hcompare, ?_⟩
      obtain ⟨r, hr⟩ := formKey_cases p
      obtain ⟨r', hr'⟩ := formKey_cases q
      rw [hr, hr', lexCompare_componentKey hc hd, if_neg hcompare]
      exact if_pos hcompare

/-! ## Versions with an order -/

theorem versionLoop_differ (hp : p ≠ []) (hq : q ≠ [])
    (h : compareComponents (component p) (component q) ≠ 0) (turns : ℕ) :
    versionLoop (turns + 1) p q =
      .ok (compareComponents (component p) (component q), behindDot p, behindDot q) := by
  rw [versionLoop, if_neg (not_or.mpr ⟨hp, hq⟩)]
  exact if_pos h

theorem versionCompareAt_succ {a b : List UInt8} (ha : a ≠ []) (hb : b ≠ []) {depth : ℕ} {r : ℤ}
    (h : ∃ compare n1 n2,
      versionLoop ((versionForm a).length + 1) (versionForm a) (versionForm b) =
        .ok (compare, n1, n2) ∧
      versionRest (versionCompareAt depth) compare n1 n2 = .ok r) :
    versionCompareAt (depth + 1) a b = .ok r := by
  obtain ⟨compare, n1, n2, hloop, hrest⟩ := h
  rw [versionCompareAt, if_neg fun hno => ha hno.1, if_neg (not_or.mpr ⟨ha, hb⟩), hloop, ok_bind]
  exact hrest

theorem canonicalizeVersion_head (v : List UInt8) :
    (canonicalizeVersion v).headD 0 = v.headD 0 := by
  cases v <;> rfl

theorem canonicalizeVersion_ne_nil (hv : v ≠ []) : canonicalizeVersion v ≠ [] := by
  cases v with
  | nil => exact absurd rfl hv
  | cons x t => exact List.cons_ne_nil _ _

theorem versionForm_canonical (hv : v.headD 0 ≠ 35) : versionForm v = canonicalizeVersion v :=
  if_neg hv

theorem versionForm_numberForm : versionForm numberForm = numberForm := rfl

theorem component_numberForm : component numberForm = numberForm := rfl

theorem restCompare_at (depth : ℕ) : RestCompare (versionCompareAt (depth + 1)) := by
  have hnumberForm : numberForm ≠ [] := List.cons_ne_nil _ _
  refine ⟨fun p hp hdigit hnumber => ?_, fun p hp hdigit hnumber => ?_⟩ <;>
    have hne := canonicalizeVersion_ne_nil hp <;>
    rw [← canonicalizeVersion_head] at hdigit hnumber ⊢
  · refine versionCompareAt_succ hp hnumberForm ?_
    rw [canonicalizeVersion_head] at hnumber
    rw [versionForm_canonical hnumber, versionForm_numberForm]
    rw [← canonicalizeVersion_head] at hnumber
    have hcompare := compareComponents_numberForm hdigit hnumber
    have hdiffer : compareComponents (component (canonicalizeVersion p)) numberForm ≠ 0 := by
      rw [hcompare]
      split_ifs <;> decide
    refine ⟨_, _, _, versionLoop_differ hne hnumberForm hdiffer _, ?_⟩
    rw [component_numberForm, ← hcompare]
    exact if_pos hdiffer
  · refine versionCompareAt_succ hnumberForm hp ?_
    rw [canonicalizeVersion_head] at hnumber
    rw [versionForm_canonical hnumber, versionForm_numberForm]
    rw [← canonicalizeVersion_head] at hnumber
    have hcompare := compareComponents_swap (component (canonicalizeVersion p)) numberForm
    rw [compareComponents_numberForm hdigit hnumber] at hcompare
    have hvalue : compareComponents numberForm (component (canonicalizeVersion p)) =
        if (canonicalizeVersion p).headD 0 = 112 then -1 else 1 := by
      rw [hcompare]
      split_ifs <;> rfl
    have hdiffer : compareComponents numberForm (component (canonicalizeVersion p)) ≠ 0 := by
      rw [hvalue]
      split_ifs <;> decide
    refine ⟨_, _, _, versionLoop_differ hnumberForm hne hdiffer _, ?_⟩
    rw [component_numberForm, ← hvalue]
    exact if_pos hdiffer

/-- A version that is empty, or of which the canonical form has no `#` and no dot at its end. -/
def RegularVersion (v : List UInt8) : Prop := v = [] ∨ PlainForm (canonicalizeVersion v)

def versionKey (v : List UInt8) : List ℤ :=
  if v = [] then [] else formKey (canonicalizeVersion v)

theorem versionKey_ne_nil (hv : v ≠ []) : ∃ k r, versionKey v = k :: r := by
  rw [versionKey, if_neg hv, formKey]
  exact List.exists_cons_of_ne_nil (List.append_ne_nil_of_right_ne_nil _ (List.cons_ne_nil _ _))

theorem RegularVersion.plain (h : RegularVersion v) (hv : v ≠ []) :
    versionForm v = canonicalizeVersion v ∧ PlainForm (canonicalizeVersion v) := by
  have hplain := h.resolve_left hv
  have hhead := hplain.head
  rw [canonicalizeVersion_head] at hhead
  exact ⟨versionForm_canonical hhead, hplain⟩

theorem versionCompareAt_nil_left (depth : ℕ) {b : List UInt8} (hb : b ≠ []) :
    versionCompareAt (depth + 1) [] b = .ok (-1) := by
  rw [versionCompareAt, if_neg fun hno => hb hno.2, if_pos (Or.inl rfl)]
  rfl

theorem versionCompareAt_nil_right (depth : ℕ) {a : List UInt8} (ha : a ≠ []) :
    versionCompareAt (depth + 1) a [] = .ok 1 := by
  rw [versionCompareAt, if_neg fun hno => ha hno.1, if_pos (Or.inr rfl), if_pos ha]

/-- **Versions are compared by their keys.** -/
theorem versionCompare_eq {a b : List UInt8} (ha : RegularVersion a) (hb : RegularVersion b) :
    versionCompare a b = .ok (lexCompare (versionKey a) (versionKey b)) := by
  rw [versionCompare]
  by_cases hane : a = []
  · by_cases hbne : b = []
    · rw [hane, hbne]
      rfl
    · obtain ⟨k, r, hkey⟩ := versionKey_ne_nil hbne
      rw [hane, versionCompareAt_nil_left _ hbne, hkey]
      rfl
  · by_cases hbne : b = []
    · obtain ⟨k, r, hkey⟩ := versionKey_ne_nil hane
      rw [hbne, versionCompareAt_nil_right _ hane, hkey]
      rfl
    · obtain ⟨hform, hplain⟩ := ha.plain hane
      obtain ⟨hform', hplain'⟩ := hb.plain hbne
      refine versionCompareAt_succ hane hbne ?_
      rw [hform, hform', versionKey, versionKey, if_neg hane, if_neg hbne]
      exact versionLoop_eq (restCompare_at _) _ hplain hplain' (Nat.lt_succ_self _)

end PhpRuntime.Text
