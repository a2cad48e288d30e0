import PhpRuntime.Text.VersionOrder

/-!
# When versions are in a total preorder

A version of which the canonical form ends with a dot is less than itself. One with a `#` is equal
to different numbers in its place: names that are less than all others, and names that are greater
than all others, put two versions around it that are in the other order.
-/

set_option autoImplicit false

namespace PhpRuntime.Text

open Lib

variable {p q n s t u v : List UInt8} {d x : UInt8} {m turns : ℕ}
  {again : List UInt8 → List UInt8 → Except Undefined ℤ}

/-! ## A dot at the end -/

theorem component_append_dot (hs : 46 ∉ s) (t : List UInt8) :
    component (s ++ 46 :: t) = s ∧ behindDot (s ++ 46 :: t) = some t := by
  have hall : ∀ c ∈ s, (c != 46) = true := by
    intro c hc
    rw [bne_iff_ne]
    rintro rfl
    exact hs hc
  constructor
  · rw [component, List.takeWhile_append_of_pos hall, List.takeWhile_cons]
    exact List.append_nil s
  · rw [behindDot, List.dropWhile_append_of_pos hall, List.dropWhile_cons]
    rfl

theorem versionLoop_same (hp : p ≠ []) (hq : q ≠ [])
    (h : compareComponents (component p) (component q) = 0) (turns : ℕ) :
    versionLoop (turns + 1) p q =
      match behindDot p, behindDot q with
      | some p, some q => versionLoop turns p q
      | n1, n2 => .ok (0, n1, n2) := by
  rw [versionLoop, if_neg (not_or.mpr ⟨hp, hq⟩)]
  exact if_neg (not_not.mpr h)

theorem versionLoop_nil_left (turns : ℕ) (q : List UInt8) :
    versionLoop (turns + 1) [] q = .ok (0, some [], some q) := by
  rw [versionLoop, if_pos (Or.inl rfl)]

theorem versionLoop_nil_right (turns : ℕ) (p : List UInt8) :
    versionLoop (turns + 1) p [] = .ok (0, some p, some []) := by
  rw [versionLoop, if_pos (Or.inr rfl)]

theorem versionLoop_self (turns : ℕ) (hp : p.getLast? = some 46) (hturns : p.length < turns) :
    versionLoop turns p p = .ok (0, some [], some []) := by
  induction turns generalizing p with
  | zero => exact absurd hturns (Nat.not_lt_zero _)
  | succ turns ih =>
    have hne : p ≠ [] := by
      rintro rfl
      cases hp
    rw [versionLoop_same hne hne (compareComponents_self _)]
    obtain ⟨-, -, hdot⟩ | ⟨n, hn, hsplit, -⟩ := behindDot_cases p
    · exact absurd (List.mem_of_getLast? hp) hdot
    · have hlength := length_behindDot hn
      rw [hn]
      cases n with
      | nil =>
        obtain ⟨turns, rfl⟩ : ∃ k, turns = k + 1 := ⟨turns - 1, by omega⟩
        exact versionLoop_nil_left turns []
      | cons y n =>
        refine ih ?_ (by omega)
        rw [hsplit, List.getLast?_append_of_ne_nil _ (List.cons_ne_nil _ _),
          List.getLast?_cons_cons] at hp
        exact hp

theorem versionCompareAt_numberForm (depth : ℕ) :
    versionCompareAt (depth + 1) [] numberForm = .ok (-1) :=
  versionCompareAt_nil_left depth (List.cons_ne_nil _ _)

/-- **A version with a dot at its end is less than itself.** -/
theorem versionCompare_self_dot (hv : v ≠ []) (hdot : (versionForm v).getLast? = some 46) :
    versionCompare v v = .ok (-1) := by
  rw [versionCompare]
  refine versionCompareAt_succ hv hv ⟨_, _, _, versionLoop_self _ hdot (Nat.lt_succ_self _), ?_⟩
  exact versionCompareAt_numberForm (2 * v.length + 2 * v.length)

/-! ## Names below and above all others -/

def repeated (x : UInt8) : ℕ → List UInt8
  | 0 => [x]
  | m + 1 => x :: 46 :: repeated x m

theorem repeated_ne_nil (x : UInt8) (m : ℕ) : repeated x m ≠ [] := by
  cases m <;> exact List.cons_ne_nil _ _

theorem repeated_head (x : UInt8) (m : ℕ) : (repeated x m).headD 0 = x := by
  cases m <;> rfl

theorem component_repeated (hx : x ≠ 46) (m : ℕ) : component (repeated x m) = [x] := by
  have hdot : 46 ∉ [x] := by
    rw [List.mem_singleton]
    exact hx.symm
  cases m with
  | zero =>
    obtain ⟨-, hcomponent, -⟩ | ⟨n, -, hsplit, -⟩ := behindDot_cases [x]
    · exact hcomponent
    · have hmem : 46 ∈ [x] := by
        rw [hsplit]
        exact List.mem_append_right _ List.mem_cons_self
      exact absurd hmem hdot
  | succ m => exact (component_append_dot hdot (repeated x m)).1

theorem behindDot_repeated (hx : x ≠ 46) (m : ℕ) :
    behindDot (repeated x (m + 1)) = some (repeated x m) := by
  have hdot : 46 ∉ [x] := by
    rw [List.mem_singleton]
    exact hx.symm
  exact (component_append_dot hdot (repeated x m)).2

/-- What the function gives for the rest of a version and for nothing. -/
structure EndCompare (again : List UInt8 → List UInt8 → Except Undefined ℤ) : Prop
    extends RestCompare again where
  nothing : again [] numberForm = .ok (-1)

theorem endCompare_at (depth : ℕ) : EndCompare (versionCompareAt (depth + 1)) :=
  ⟨restCompare_at depth, versionCompareAt_numberForm depth⟩

theorem sign_of_nonpos {k : ℤ} (h : k ≤ 0) : k.sign = 0 ∨ k.sign = -1 := by
  obtain hneg | rfl := h.lt_or_eq
  · exact .inr (Int.sign_eq_neg_one_of_neg hneg)
  · exact .inl rfl

theorem specialOrder_bounds (c : List UInt8) : -1 ≤ specialOrder c ∧ specialOrder c ≤ 5 := by
  by_cases hnumber : c.headD 0 = 35
  · rw [specialOrder_number hnumber]
    decide
  · by_cases hp : c.headD 0 = 112
    · rw [specialOrder_p hp]
      decide
    · obtain ⟨hlow, hhigh⟩ := specialOrder_le_three hnumber hp
      exact ⟨hlow, hhigh.trans (by decide)⟩

theorem compareComponents_least (c : List UInt8) :
    compareComponents [122] c = 0 ∨ compareComponents [122] c = -1 := by
  have hname : ¬ isdigit (List.headD [122] 0) = true := Bool.false_ne_true
  by_cases hc : isdigit (c.headD 0) = true
  · rw [compareComponents_name_number hname hc]
    exact .inr rfl
  · rw [compareComponents_names hname hc]
    exact sign_of_nonpos (sub_nonpos.mpr (specialOrder_bounds c).1)

theorem compareComponents_greatest (c : List UInt8) :
    compareComponents c [112] = 0 ∨ compareComponents c [112] = -1 := by
  have hname : ¬ isdigit (List.headD [112] 0) = true := Bool.false_ne_true
  by_cases hc : isdigit (c.headD 0) = true
  · rw [compareComponents_number_name hc hname]
    exact .inr rfl
  · rw [compareComponents_names hc hname]
    exact sign_of_nonpos (sub_nonpos.mpr (specialOrder_bounds c).2)

theorem versionRest_ne {compare : ℤ} (h : compare ≠ 0) (n1 n2 : Option (List UInt8)) :
    versionRest again compare n1 n2 = .ok compare := if_pos h

theorem EndCompare.left_repeated (h : EndCompare again) (m : ℕ) :
    again (repeated 122 m) numberForm = .ok (-1) := by
  have hhead := repeated_head 122 m
  have hleft := h.left (repeated 122 m) (repeated_ne_nil _ _) (by rw [hhead]; decide)
    (by rw [hhead]; decide)
  rw [hleft, hhead]
  rfl

theorem EndCompare.right_repeated (h : EndCompare again) (m : ℕ) :
    again numberForm (repeated 112 m) = .ok (-1) := by
  have hhead := repeated_head 112 m
  have hright := h.right (repeated 112 m) (repeated_ne_nil _ _) (by rw [hhead]; decide)
    (by rw [hhead]; decide)
  rw [hright, hhead]
  rfl

theorem EndCompare.rest_left_repeated (h : EndCompare again) (m : ℕ) (n2 : Option (List UInt8)) :
    versionRest again 0 (some (repeated 122 m)) n2 = .ok (-1) := by
  have hdigit : isdigit ((repeated 122 m).headD 0) = false := by
    rw [repeated_head]
    rfl
  change (if isdigit ((repeated 122 m).headD 0) then _ else _) = _
  rw [hdigit]
  exact h.left_repeated m

theorem EndCompare.rest_right_repeated (h : EndCompare again) (m : ℕ) :
    versionRest again 0 none (some (repeated 112 m)) = .ok (-1) := by
  have hdigit : isdigit ((repeated 112 m).headD 0) = false := by
    rw [repeated_head]
    rfl
  change (if isdigit ((repeated 112 m).headD 0) then _ else _) = _
  rw [hdigit]
  exact h.right_repeated m

theorem versionLoop_least (h : EndCompare again) (turns m : ℕ) (q : List UInt8)
    (hturns : q.length < turns) (hm : q.length ≤ m) :
    ∃ compare n1 n2, versionLoop turns (repeated 122 m) q = .ok (compare, n1, n2) ∧
      versionRest again compare n1 n2 = .ok (-1) := by
  induction turns generalizing m q with
  | zero => exact absurd hturns (Nat.not_lt_zero _)
  | succ turns ih =>
    have hne := repeated_ne_nil 122 m
    have hcomponent := component_repeated (x := 122) (by decide) m
    by_cases hq : q = []
    · subst hq
      exact ⟨_, _, _, versionLoop_nil_right turns _, h.rest_left_repeated m _⟩
    · obtain hzero | hless := compareComponents_least (component q)
      · rw [versionLoop_same hne hq (by rw [hcomponent, hzero])]
        have hpos := List.length_pos_iff.mpr hq
        obtain ⟨m, rfl⟩ : ∃ k, m = k + 1 := ⟨m - 1, by omega⟩
        rw [behindDot_repeated (by decide)]
        cases hn : behindDot q with
        | none => exact ⟨_, _, _, rfl, h.rest_left_repeated m none⟩
        | some n =>
          have hlength := length_behindDot hn
          exact ih m n (by omega) (by omega)
      · have hdiffer : compareComponents (component (repeated 122 m)) (component q) ≠ 0 := by
          rw [hcomponent, hless]
          decide
        refine ⟨_, _, _, versionLoop_differ hne hq hdiffer turns, ?_⟩
        rw [versionRest_ne hdiffer, hcomponent, hless]

theorem versionLoop_greatest (h : EndCompare again) (turns m : ℕ) (q : List UInt8)
    (hturns : q.length < turns) (hm : q.length ≤ m) :
    ∃ compare n1 n2, versionLoop turns q (repeated 112 m) = .ok (compare, n1, n2) ∧
      versionRest again compare n1 n2 = .ok (-1) := by
  induction turns generalizing m q with
  | zero => exact absurd hturns (Nat.not_lt_zero _)
  | succ turns ih =>
    have hne := repeated_ne_nil 112 m
    have hcomponent := component_repeated (x := 112) (by decide) m
    by_cases hq : q = []
    · subst hq
      exact ⟨_, _, _, versionLoop_nil_left turns _, h.nothing⟩
    · obtain hzero | hless := compareComponents_greatest (component q)
      · rw [versionLoop_same hq hne (by rw [hcomponent, hzero])]
        have hpos := List.length_pos_iff.mpr hq
        obtain ⟨m, rfl⟩ : ∃ k, m = k + 1 := ⟨m - 1, by omega⟩
        rw [behindDot_repeated (by decide)]
        cases hn : behindDot q with
        | none => exact ⟨_, _, _, rfl, h.rest_right_repeated m⟩
        | some n =>
          have hlength := length_behindDot hn
          exact ih m n (by omega) (by omega)
      · have hdiffer : compareComponents (component q) (component (repeated 112 m)) ≠ 0 := by
          rw [hcomponent, hless]
          decide
        refine ⟨_, _, _, versionLoop_differ hq hne hdiffer turns, ?_⟩
        rw [versionRest_ne hdiffer, hcomponent, hless]

/-! ## What is written for a part of a version -/

theorem ne_dot_of_isalnum {c : UInt8} (hc : isalnum c = true) : c ≠ 46 := by
  rintro rfl
  cases hc

theorem canonicalizeLoop_cons (lp lq c : UInt8) :
    ∃ w l, (∀ s, canonicalizeLoop lp lq (c :: s) = w ++ canonicalizeLoop c l s) ∧
      (isdigit c = true → l = c) ∧ (35 ∈ w → c = 35 ∧ isdigit lp = true) := by
  have hdotUnless : 35 ∉ dotUnless lq := by
    rw [dotUnless]
    split_ifs
    · decide
    · exact List.not_mem_nil
  by_cases hspecial : isspecialver c = true
  · refine ⟨dotUnless lq, 46, fun s => ?_, fun hdigit => ?_, fun h => absurd h hdotUnless⟩
    · rw [canonicalizeLoop, if_pos hspecial]
    · obtain rfl | rfl | rfl := of_decide_eq_true hspecial <;> cases hdigit
  by_cases hchange : isndig lp ∧ isdig c ∨ isdig lp ∧ isndig c
  · refine ⟨dotUnless lq ++ [c], c, fun s => ?_, fun _ => rfl, fun h => ?_⟩
    · rw [canonicalizeLoop, if_neg hspecial, if_pos hchange, List.append_assoc,
        List.singleton_append]
    · obtain h | h := List.mem_append.mp h
      · exact absurd h hdotUnless
      · have hc := (List.mem_singleton.mp h).symm
        subst hc
        obtain ⟨-, hdig⟩ | ⟨hdig, -⟩ := hchange
        · cases hdig
        · exact ⟨rfl, (of_decide_eq_true hdig).1⟩
  by_cases halnum : isalnum c = true
  · refine ⟨[c], c, fun s => ?_, fun _ => rfl, fun h => ?_⟩
    · rw [canonicalizeLoop, if_neg hspecial, if_neg hchange, if_neg (not_not.mpr halnum),
        List.singleton_append]
    · rw [← List.mem_singleton.mp h] at halnum
      cases halnum
  · refine ⟨dotUnless lq, 46, fun s => ?_, fun hdigit => ?_, fun h => absurd h hdotUnless⟩
    · rw [canonicalizeLoop, if_neg hspecial, if_neg hchange, if_pos halnum]
    · exact absurd (isalnum_of_isdigit hdigit) halnum

theorem canonicalizeLoop_append {lp lq : UInt8} (hlast : (lp :: s).getLast? = some d)
    (hd : isdigit d = true) (hlq : isdigit lp = true → lq = lp) (t : List UInt8) :
    canonicalizeLoop lp lq (s ++ t) = canonicalizeLoop lp lq s ++ canonicalizeLoop d d t := by
  induction s generalizing lp lq with
  | nil =>
    rw [List.getLast?_singleton, Option.some.injEq] at hlast
    subst hlast
    rw [hlq hd]
    rfl
  | cons c s ih =>
    obtain ⟨w, l, hloop, hl, -⟩ := canonicalizeLoop_cons lp lq c
    rw [List.getLast?_cons_cons] at hlast
    rw [List.cons_append, hloop, hloop, ih hlast hl, List.append_assoc]

theorem exists_number {lp lq : UInt8} (h : 35 ∈ canonicalizeLoop lp lq s) :
    ∃ u d t, s = u ++ 35 :: t ∧ (lp :: u).getLast? = some d ∧ isdigit d = true ∧
      35 ∉ canonicalizeLoop lp lq u := by
  induction s generalizing lp lq with
  | nil => exact absurd h List.not_mem_nil
  | cons c s ih =>
    obtain ⟨w, l, hloop, -, hnumber⟩ := canonicalizeLoop_cons lp lq c
    by_cases hw : 35 ∈ w
    · obtain ⟨rfl, hdigit⟩ := hnumber hw
      exact ⟨[], lp, s, rfl, rfl, hdigit, List.not_mem_nil⟩
    · rw [hloop] at h
      obtain ⟨u, d, t, rfl, hlast, hd, hu⟩ := ih ((List.mem_append.mp h).resolve_left hw)
      refine ⟨c :: u, d, t, rfl, ?_, hd, ?_⟩
      · rw [List.getLast?_cons_cons, hlast]
      · rw [hloop, List.mem_append]
        exact not_or.mpr ⟨hw, hu⟩

theorem canonicalizeLoop_dot {c : UInt8} (hc : c ≠ 46) (t : List UInt8) :
    canonicalizeLoop c c (46 :: t) = 46 :: canonicalizeLoop 46 46 t := by
  have hchange : ¬ (isndig c = true ∧ isdig 46 = true ∨ isdig c = true ∧ isndig 46 = true) := by
    rintro (⟨-, h⟩ | ⟨-, h⟩) <;> cases h
  have hspecial : ¬ isspecialver 46 = true := Bool.false_ne_true
  have halnum : ¬ isalnum 46 = true := Bool.false_ne_true
  rw [canonicalizeLoop, if_neg hspecial, if_neg hchange, if_pos halnum, dotUnless, if_pos hc]
  rfl

theorem canonicalizeLoop_behind_dot {c : UInt8} (hc : isalnum c = true) (t : List UInt8) :
    canonicalizeLoop 46 46 (c :: t) = c :: canonicalizeLoop c c t := by
  have hspecial : ¬ isspecialver c = true := by
    intro hspecial
    obtain rfl | rfl | rfl := of_decide_eq_true hspecial <;> cases hc
  have hchange : ¬ (isndig 46 = true ∧ isdig c = true ∨ isdig 46 = true ∧ isndig c = true) := by
    rintro (⟨h, -⟩ | ⟨h, -⟩) <;> cases h
  rw [canonicalizeLoop, if_neg hspecial, if_neg hchange, if_neg (not_not.mpr hc)]

/-! ## Versions around one with a number sign -/

def numberThen (k x : UInt8) (m : ℕ) : List UInt8 := k :: 46 :: repeated x m

theorem numberThen_ne_nil (k x : UInt8) (m : ℕ) : numberThen k x m ≠ [] := List.cons_ne_nil _ _

theorem length_repeated (x : UInt8) (m : ℕ) : (repeated x m).length = 2 * m + 1 := by
  induction m with
  | zero => rfl
  | succ m ih =>
    rw [repeated, List.length_cons, List.length_cons, ih]
    omega

theorem mem_repeated {c : UInt8} (h : c ∈ repeated x m) : c = x ∨ c = 46 := by
  induction m with
  | zero => exact .inl (List.mem_singleton.mp h)
  | succ m ih =>
    rw [repeated, List.mem_cons, List.mem_cons] at h
    obtain h | h | h := h
    · exact .inl h
    · exact .inr h
    · exact ih h

theorem getLast?_repeated (x : UInt8) (m : ℕ) : (repeated x m).getLast? = some x := by
  induction m with
  | zero => rfl
  | succ m ih =>
    rw [repeated, List.getLast?_cons_cons, List.getLast?_cons, ih]
    rfl

theorem canonicalizeLoop_repeated (hx : isalnum x = true) (m : ℕ) :
    canonicalizeLoop 46 46 (repeated x m) = repeated x m := by
  have hdot := ne_dot_of_isalnum hx
  induction m with
  | zero =>
    rw [repeated, canonicalizeLoop_behind_dot hx]
    rfl
  | succ m ih => rw [repeated, canonicalizeLoop_behind_dot hx, canonicalizeLoop_dot hdot, ih]

theorem canonicalizeLoop_numberThen {k : UInt8} (hk : isalnum k = true) (hx : isalnum x = true)
    (m : ℕ) : canonicalizeLoop k k (46 :: repeated x m) = 46 :: repeated x m := by
  rw [canonicalizeLoop_dot (ne_dot_of_isalnum hk), canonicalizeLoop_repeated hx]

theorem versionLoop_append (p s t : List UInt8) (turns : ℕ)
    (hturns : (p ++ 46 :: s).length < turns) :
    ∃ turns', s.length < turns' ∧
      versionLoop turns (p ++ 46 :: s) (p ++ 46 :: t) = versionLoop turns' s t := by
  induction turns generalizing p with
  | zero => exact absurd hturns (Nat.not_lt_zero _)
  | succ turns ih =>
    have hne (r : List UInt8) : p ++ 46 :: r ≠ [] :=
      List.append_ne_nil_of_right_ne_nil _ (List.cons_ne_nil _ _)
    rw [List.length_append, List.length_cons] at hturns
    obtain ⟨-, -, hdot⟩ | ⟨n, -, hp, hdot⟩ := behindDot_cases p
    · obtain ⟨hs, hs'⟩ := component_append_dot hdot s
      obtain ⟨ht, ht'⟩ := component_append_dot hdot t
      rw [versionLoop_same (hne s) (hne t) (by rw [hs, ht, compareComponents_self]), hs', ht']
      exact ⟨turns, by omega, rfl⟩
    · have happend (r : List UInt8) : p ++ 46 :: r = component p ++ 46 :: (n ++ 46 :: r) := by
        conv => lhs; rw [hp]
        rw [List.append_assoc, List.cons_append]
      have hlength := congrArg List.length hp
      rw [List.length_append, List.length_cons] at hlength
      obtain ⟨hs, hs'⟩ := component_append_dot hdot (n ++ 46 :: s)
      obtain ⟨ht, ht'⟩ := component_append_dot hdot (n ++ 46 :: t)
      rw [← happend] at hs hs' ht ht'
      rw [versionLoop_same (hne s) (hne t) (by rw [hs, ht, compareComponents_self]), hs', ht']
      refine ih n ?_
      rw [List.length_append, List.length_cons]
      omega

theorem compareComponents_number_sign {c d : List UInt8} (hc : isdigit (c.headD 0) = true)
    (hd : d.headD 0 = 35) : compareComponents c d = 0 := by
  have hname : ¬ isdigit (d.headD 0) = true := by
    rw [hd]
    exact Bool.false_ne_true
  rw [compareComponents_number_name hc hname, specialOrder_number hd]
  rfl

theorem component_numberThen {k : UInt8} (hk : isdigit k = true) (x : UInt8) (m : ℕ) :
    component (numberThen k x m) = [k] ∧ behindDot (numberThen k x m) = some (repeated x m) := by
  refine component_append_dot (s := [k]) ?_ _
  rw [List.mem_singleton]
  exact (ne_dot_of_isalnum (isalnum_of_isdigit hk)).symm

theorem versionLoop_below (h : EndCompare again) {turns : ℕ} (hq : q.headD 0 = 35)
    (hturns : q.length < turns) (hm : q.length ≤ m) :
    ∃ compare n1 n2, versionLoop turns (numberThen 50 122 m) q = .ok (compare, n1, n2) ∧
      versionRest again compare n1 n2 = .ok (-1) := by
  obtain ⟨turns, rfl⟩ : ∃ k, turns = k + 1 := ⟨turns - 1, by omega⟩
  obtain ⟨hcomponent, hbehind⟩ := component_numberThen (k := 50) rfl 122 m
  have hne : q ≠ [] := by
    rintro rfl
    cases hq
  have hzero : compareComponents (component (numberThen 50 122 m)) (component q) = 0 := by
    rw [hcomponent]
    exact compareComponents_number_sign rfl ((component_head_cases q).2.2.mpr hq)
  rw [versionLoop_same (numberThen_ne_nil _ _ _) hne hzero, hbehind]
  cases hn : behindDot q with
  | none => exact ⟨_, _, _, rfl, h.rest_left_repeated m none⟩
  | some n =>
    have hlength := length_behindDot hn
    exact versionLoop_least h turns m n (by omega) (by omega)

theorem versionLoop_above (h : EndCompare again) {turns : ℕ} (hq : q.headD 0 = 35)
    (hturns : q.length < turns) (hm : q.length ≤ m) :
    ∃ compare n1 n2, versionLoop turns q (numberThen 49 112 m) = .ok (compare, n1, n2) ∧
      versionRest again compare n1 n2 = .ok (-1) := by
  obtain ⟨turns, rfl⟩ : ∃ k, turns = k + 1 := ⟨turns - 1, by omega⟩
  obtain ⟨hcomponent, hbehind⟩ := component_numberThen (k := 49) rfl 112 m
  have hne : q ≠ [] := by
    rintro rfl
    cases hq
  have hzero : compareComponents (component q) (component (numberThen 49 112 m)) = 0 := by
    rw [compareComponents_swap, hcomponent,
      compareComponents_number_sign rfl ((component_head_cases q).2.2.mpr hq)]
    rfl
  rw [versionLoop_same hne (numberThen_ne_nil _ _ _) hzero, hbehind]
  cases hn : behindDot q with
  | none => exact ⟨_, _, _, rfl, h.rest_right_repeated m⟩
  | some n =>
    have hlength := length_behindDot hn
    exact versionLoop_greatest h turns m n (by omega) (by omega)

theorem versionLoop_below_above (h : EndCompare again) (turns m : ℕ) :
    ∃ compare n1 n2,
      versionLoop (turns + 1) (numberThen 50 122 m) (numberThen 49 112 m) = .ok (compare, n1, n2) ∧
      versionRest again compare n1 n2 = .ok 1 := by
  obtain ⟨hcomponent, -⟩ := component_numberThen (k := 50) rfl 122 m
  obtain ⟨hcomponent', -⟩ := component_numberThen (k := 49) rfl 112 m
  have hone : compareComponents (component (numberThen 50 122 m))
      (component (numberThen 49 112 m)) = 1 := by
    rw [hcomponent, hcomponent']
    rfl
  have hdiffer : compareComponents (component (numberThen 50 122 m))
      (component (numberThen 49 112 m)) ≠ 0 := by
    rw [hone]
    exact one_ne_zero
  refine ⟨_, _, _, versionLoop_differ (numberThen_ne_nil _ _ _) (numberThen_ne_nil _ _ _)
    hdiffer turns, ?_⟩
  rw [versionRest_ne hdiffer, hone]

def Front (f : List UInt8) : Prop := f = [] ∨ ∃ p, f = p ++ [46]

theorem Front.versionLoop {f : List UInt8} (hf : Front f) (t : List UInt8)
    (hturns : (f ++ s).length < turns) :
    ∃ turns', s.length < turns' ∧
      versionLoop turns (f ++ s) (f ++ t) = versionLoop turns' s t := by
  obtain rfl | ⟨p, rfl⟩ := hf
  · exact ⟨turns, hturns, rfl⟩
  · rw [List.append_assoc, List.append_assoc, List.singleton_append, List.singleton_append]
    rw [List.append_assoc, List.singleton_append] at hturns
    exact versionLoop_append p s t turns hturns

theorem Front.versionCompare {f a b : List UInt8} {r : ℤ} (hf : Front f) (ha : a ≠ []) (hb : b ≠ [])
    (hfa : versionForm a = f ++ s) (hfb : versionForm b = f ++ t)
    (h : ∀ again turns, EndCompare again → s.length < turns →
      ∃ compare n1 n2, Text.versionLoop turns s t = .ok (compare, n1, n2) ∧
        versionRest again compare n1 n2 = .ok r) :
    versionCompare a b = .ok r := by
  rw [Text.versionCompare]
  refine versionCompareAt_succ ha hb ?_
  rw [hfa, hfb]
  obtain ⟨turns, hturns, hloop⟩ := hf.versionLoop t (Nat.lt_succ_self (f ++ s).length)
  rw [hloop]
  exact h _ turns (endCompare_at _) hturns

theorem exists_front (h : 35 ∈ canonicalizeVersion v) :
    ∃ f q, Front f ∧ 35 ∉ f ∧ versionForm v = f ++ q ∧ q.headD 0 = 35 ∧
      ∀ k x m, isalnum k = true → isalnum x = true → ∃ a, a ≠ [] ∧ a.headD 0 ≠ 35 ∧
        canonicalizeVersion a = f ++ numberThen k x m := by
  by_cases hhead : v.headD 0 = 35
  · refine ⟨[], v, .inl rfl, List.not_mem_nil, if_pos hhead, hhead, fun k x m hk hx => ?_⟩
    refine ⟨numberThen k x m, numberThen_ne_nil k x m, ?_, ?_⟩
    · rintro rfl
      cases hk
    · rw [numberThen, canonicalizeVersion, canonicalizeLoop_numberThen hk hx, List.nil_append]
  · cases v with
    | nil => exact absurd h List.not_mem_nil
    | cons c v =>
      rw [List.headD_cons] at hhead
      obtain h | h := List.mem_cons.mp h
      · exact absurd h.symm hhead
      obtain ⟨u, d, t, rfl, hlast, hd, hu⟩ := exists_number h
      have hd46 := ne_dot_of_isalnum (isalnum_of_isdigit hd)
      have hform (t : List UInt8) : canonicalizeVersion (c :: (u ++ t)) =
          c :: canonicalizeLoop c c u ++ canonicalizeLoop d d t := by
        rw [canonicalizeVersion, canonicalizeLoop_append hlast hd fun _ => rfl, List.cons_append]
      refine ⟨c :: canonicalizeLoop c c u ++ [46], 35 :: canonicalizeLoop 35 35 t, .inr ⟨_, rfl⟩,
        ?_, ?_, rfl, fun k x m hk hx => ⟨c :: (u ++ 46 :: numberThen k x m),
          List.cons_ne_nil _ _, hhead, ?_⟩⟩
      · rw [List.mem_append, List.mem_cons, List.mem_singleton]
        rintro ((h | h) | h)
        · exact hhead h.symm
        · exact hu h
        · cases h
      · have hloop : canonicalizeLoop d d (35 :: t) = 46 :: 35 :: canonicalizeLoop 35 35 t := by
          have hchange : isndig d = true ∧ isdig 35 = true ∨ isdig d = true ∧ isndig 35 = true :=
            .inr ⟨decide_eq_true ⟨hd, hd46⟩, rfl⟩
          have hspecial : ¬ isspecialver 35 = true := Bool.false_ne_true
          rw [canonicalizeLoop, if_neg hspecial, if_pos hchange, dotUnless, if_pos hd46]
          rfl
        rw [versionForm_canonical (v := c :: (u ++ 35 :: t)) hhead, hform, hloop, List.append_assoc,
          List.singleton_append]
      · rw [hform, canonicalizeLoop_dot hd46, numberThen, canonicalizeLoop_behind_dot hk,
          canonicalizeLoop_numberThen hk hx, List.append_assoc, List.singleton_append]

theorem plainForm_numberThen {f : List UInt8} {k : UInt8} (hf : 35 ∉ f) (hk : isalnum k = true)
    (hx : isalnum x = true) (m : ℕ) : PlainForm (f ++ numberThen k x m) := by
  refine ⟨List.append_ne_nil_of_right_ne_nil _ (numberThen_ne_nil k x m), ?_, ?_⟩
  · rw [List.mem_append, numberThen, List.mem_cons, List.mem_cons]
    rintro (h | rfl | h | h)
    · exact hf h
    · cases hk
    · cases h
    · obtain rfl | h := mem_repeated h
      · cases hx
      · cases h
  · rw [List.getLast?_append_of_ne_nil _ (numberThen_ne_nil k x m), numberThen,
      List.getLast?_cons_cons, List.getLast?_cons, getLast?_repeated]
    intro h
    rw [Option.some.injEq] at h
    subst h
    cases hx

/-- **Between two regular versions, in the wrong order,** is one with a `#`. -/
theorem exists_around (h : 35 ∈ canonicalizeVersion v) :
    ∃ a b, RegularVersion a ∧ RegularVersion b ∧ versionCompare a v = .ok (-1) ∧
      versionCompare v b = .ok (-1) ∧ versionCompare a b = .ok 1 := by
  obtain ⟨f, q, hf, hnumber, hv, hq, hothers⟩ := exists_front h
  have hne : v ≠ [] := by
    rintro rfl
    exact absurd h List.not_mem_nil
  obtain ⟨a, ha, hahead, hform⟩ := hothers 50 122 q.length rfl rfl
  obtain ⟨b, hb, hbhead, hform'⟩ := hothers 49 112 q.length rfl rfl
  refine ⟨a, b, .inr ?_, .inr ?_, ?_, ?_, ?_⟩
  · rw [hform]
    exact plainForm_numberThen hnumber rfl rfl _
  · rw [hform']
    exact plainForm_numberThen hnumber rfl rfl _
  all_goals rw [← versionForm_canonical hahead] at hform
  all_goals rw [← versionForm_canonical hbhead] at hform'
  · refine hf.versionCompare ha hne hform hv fun again turns hagain hturns => ?_
    rw [numberThen, List.length_cons, List.length_cons, length_repeated] at hturns
    exact versionLoop_below hagain hq (by omega) (le_refl _)
  · refine hf.versionCompare hne hb hv hform' fun again turns hagain hturns => ?_
    exact versionLoop_above hagain hq hturns (le_refl _)
  · refine hf.versionCompare ha hb hform hform' fun again turns hagain hturns => ?_
    obtain ⟨turns, rfl⟩ : ∃ k, turns = k + 1 := ⟨turns - 1, by omega⟩
    exact versionLoop_below_above hagain turns _

/-! ## The preorder -/

/-- The versions with a property are in a total preorder. -/
structure VersionPreorder (S : List UInt8 → Prop) : Prop
    extends PreorderOn S versionCompare where
  refl : ∀ a, S a → versionCompare a a = .ok 0
  negated : ∀ a b r, S a → S b → versionCompare a b = .ok r → versionCompare b a = .ok (-r)

theorem versionPreorder_of_regular {S : List UInt8 → Prop} (h : ∀ a, S a → RegularVersion a) :
    VersionPreorder S where
  toPreorderOn := by
    refine preorderOn_of_key versionKey fun a b ha hb => ?_
    exact ⟨_, versionCompare_eq (h a ha) (h b hb), sign_lexCompare _ _⟩
  refl := by
    intro a ha
    rw [versionCompare_eq (h a ha) (h a ha), lexCompare_self]
  negated := by
    intro a b r ha hb hr
    rw [versionCompare_eq (h a ha) (h b hb), Except.ok.injEq] at hr
    rw [versionCompare_eq (h b hb) (h a ha), lexCompare_swap, hr]

/-- **Exactly the regular versions are in a total preorder with each other.** -/
theorem versionPreorder_iff (v : List UInt8) :
    VersionPreorder (fun s => RegularVersion s ∨ s = v) ↔ RegularVersion v := by
  constructor
  · intro h
    by_contra hv
    obtain ⟨hne, hplain⟩ := not_or.mp hv
    by_cases hnumber : 35 ∈ canonicalizeVersion v
    · obtain ⟨a, b, ha, hb, hav, hvb, hab⟩ := exists_around hnumber
      have hle := h.trans a v b _ _ _ (.inl ha) (.inr rfl) (.inl hb) hav hvb hab
        (by decide) (by decide)
      exact absurd hle (by decide)
    · have hhead : v.headD 0 ≠ 35 := by
        rw [← canonicalizeVersion_head]
        intro hhead
        obtain ⟨c, p, hcp⟩ := List.exists_cons_of_ne_nil (canonicalizeVersion_ne_nil hne)
        rw [hcp] at hhead hnumber
        exact hnumber (hhead ▸ List.mem_cons_self)
      have hdot : (versionForm v).getLast? = some 46 := by
        by_contra hdot
        rw [versionForm_canonical hhead] at hdot
        exact hplain ⟨canonicalizeVersion_ne_nil hne, hnumber, hdot⟩
      have hself := versionCompare_self_dot hne hdot
      rw [h.refl v (.inr rfl), Except.ok.injEq] at hself
      cases hself
  · intro h
    refine versionPreorder_of_regular fun a ha => ?_
    obtain ha | rfl := ha
    · exact ha
    · exact h

/-- `1.` is less than itself. -/
theorem not_versionPreorder : ¬ VersionPreorder fun _ => True := by
  intro h
  have hrefl := h.refl [49, 46] trivial
  rw [versionCompare_self_dot (List.cons_ne_nil _ _) rfl, Except.ok.injEq] at hrefl
  cases hrefl

end PhpRuntime.Text
