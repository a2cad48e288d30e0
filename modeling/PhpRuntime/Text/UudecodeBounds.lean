import PhpRuntime.Text.Natural
import PhpRuntime.Text.Uuencode

/-!
# What `php_uudecode` reads and writes

The decoder with every read checked against the string and its `NUL`, and every write against
the buffer. A line is checked once, for its estimated length; the groups of four characters
that it is read in can go up to three characters further.
-/

set_option autoImplicit false

namespace PhpRuntime.Text

open PhpRuntime.Lib (ok_bind error_bind)

/-! ## The decoder with its accesses -/

/-- `*p++ = b` in a buffer of the given size. -/
def putByte (size : ℕ) (p : List UInt8) (b : UInt8) : Except Undefined (List UInt8) :=
  if p.length < size then .ok (p ++ [b]) else .error .outsideBuffer

/-- The loop `while (s < ee)`. -/
def uuDecodeGroupsIn (src : List UInt8) (size s ee : ℕ) (p : List UInt8) :
    Except Undefined (ℕ × List UInt8) :=
  if s < ee then do
    let c0 ← charAt src s
    let c1 ← charAt src (s + 1)
    let p ← putByte size p (UInt8.ofNat (uuDec c0 <<< 2 ||| uuDec c1 >>> 4))
    let c2 ← charAt src (s + 2)
    let p ← putByte size p (UInt8.ofNat (uuDec c1 <<< 4 ||| uuDec c2 >>> 2))
    let c3 ← charAt src (s + 3)
    let p ← putByte size p (UInt8.ofNat (uuDec c2 <<< 6 ||| uuDec c3))
    uuDecodeGroupsIn src size (s + 4) ee p
  else .ok (s, p)
termination_by ee - s

/-- The loop `while (s < e)`: `total_len`, what is written, and `s`, or `none` where it goes to
`err`. -/
def uuDecodeLoopIn (src : List UInt8) (size : ℕ) : ℕ → ℕ → ℕ → List UInt8 →
    Except Undefined (Option (ℕ × List UInt8 × ℕ))
  | 0, _, _, _ => .error .endless
  | turns + 1, s, totalLen, p =>
    if s < src.length then do
      let c ← charAt src s
      let len := uuDec c
      if len = 0 then .ok (some (totalLen, p, s + 1))
      else if src.length < len then .ok none
      else if src.length < s + 1 + uuLineLength len then .ok none
      else do
        let r ← uuDecodeGroupsIn src size (s + 1) (s + 1 + uuLineLength len) p
        if len < 45 then .ok (some (totalLen + len, r.2, r.1))
        else uuDecodeLoopIn src size turns (r.1 + 1) (totalLen + len) r.2
    else .ok (some (totalLen, p, s))

/-- The size of the buffer, `ceil(src_len * 0.75) * 1 + 1` -/
def uuDecodeAlloc (srcLen : ℕ) : ℕ := (3 * srcLen + 3) / 4 + 1

/-- `php_uudecode` for a string of `src_len` bytes: the number that is returned and as many
bytes of `*dest`, or `none` where it returns -1. -/
def uuDecodeIn (src : List UInt8) : Except Undefined (Option (ℕ × List UInt8)) := do
  let size := uuDecodeAlloc src.length
  let r ← uuDecodeLoopIn src size (src.length + 1) 0 0 []
  match r with
  | none => .ok none
  | some (totalLen, p, s) =>
    -- the length left is compared and not subtracted, so that it is at most 1
    let p ←
      if p.length < totalLen then do
        let c0 ← charAt src s
        let c1 ← charAt src (s + 1)
        putByte size p (UInt8.ofNat (uuDec c0 <<< 2 ||| uuDec c1 >>> 4))
      else .ok p
    -- the `NUL`
    if totalLen < size then .ok (some (totalLen, p.take totalLen)) else .error .outsideBuffer

/-! ## The lines -/

/-- The groups of four characters that a line of the estimated length is read in. -/
def uuGroups (left : ℕ) : ℕ := (left + 3) / 4

/-- The groups of every line that is decoded, from the one at `s` on, end at the `NUL` at the
latest. -/
def GroupsFit (src : List UInt8) : ℕ → ℕ → Prop
  | 0, _ => True
  | turns + 1, s =>
    let len := uuDec (src.getD s 0)
    if src.length ≤ s ∨ len = 0 ∨ src.length < len ∨ src.length < s + 1 + uuLineLength len then
      True
    else
      s + 4 * uuGroups (uuLineLength len) ≤ src.length ∧
        (45 ≤ len → GroupsFit src turns (s + 4 * uuGroups (uuLineLength len) + 2))

/-! ## One line -/

variable {src p : List UInt8} {size s ee turns totalLen : ℕ}

theorem charAt_inside (h : s ≤ src.length) : charAt src s = .ok (src.getD s 0) := if_pos h

theorem charAt_outside (h : ¬ s ≤ src.length) : charAt src s = .error .outsideString := if_neg h

theorem putByte_inside (h : p.length < size) (b : UInt8) : putByte size p b = .ok (p ++ [b]) :=
  if_pos h

/-- The three bytes of a group of four characters. -/
def uuGroupBytes (src : List UInt8) (s : ℕ) : List UInt8 :=
  [UInt8.ofNat (uuDec (src.getD s 0) <<< 2 ||| uuDec (src.getD (s + 1) 0) >>> 4),
    UInt8.ofNat (uuDec (src.getD (s + 1) 0) <<< 4 ||| uuDec (src.getD (s + 2) 0) >>> 2),
    UInt8.ofNat (uuDec (src.getD (s + 2) 0) <<< 6 ||| uuDec (src.getD (s + 3) 0))]

theorem uuDecodeGroupsIn_group (hlt : s < ee) (hread : s + 3 ≤ src.length)
    (hsize : p.length + 3 ≤ size) :
    uuDecodeGroupsIn src size s ee p =
      uuDecodeGroupsIn src size (s + 4) ee (p ++ uuGroupBytes src s) := by
  rw [uuDecodeGroupsIn, if_pos hlt, charAt_inside (by omega), ok_bind, charAt_inside (by omega),
    ok_bind, putByte_inside (by omega), ok_bind, charAt_inside (by omega), ok_bind,
    putByte_inside (by rw [List.length_append, List.length_singleton]; omega), ok_bind,
    charAt_inside hread, ok_bind,
    putByte_inside (by simp only [List.length_append, List.length_singleton]; omega), ok_bind]
  simp only [uuGroupBytes, List.append_assoc, List.cons_append, List.nil_append]

theorem uuDecodeGroupsIn_outside (hlt : s < ee) (hread : ¬ s + 3 ≤ src.length)
    (hsize : p.length + 3 ≤ size) :
    uuDecodeGroupsIn src size s ee p = .error .outsideString := by
  rw [uuDecodeGroupsIn, if_pos hlt]
  by_cases h0 : s ≤ src.length
  · rw [charAt_inside h0, ok_bind]
    by_cases h1 : s + 1 ≤ src.length
    · rw [charAt_inside h1, ok_bind, putByte_inside (by omega), ok_bind]
      by_cases h2 : s + 2 ≤ src.length
      · rw [charAt_inside h2, ok_bind,
          putByte_inside (by rw [List.length_append, List.length_singleton]; omega), ok_bind,
          charAt_outside hread, error_bind]
      · rw [charAt_outside h2, error_bind]
    · rw [charAt_outside h1, error_bind]
  · rw [charAt_outside h0, error_bind]

theorem uuDecodeGroupsIn_inside (left : ℕ) (hee : ee = s + left)
    (hread : s + 4 * uuGroups left ≤ src.length + 1)
    (hsize : p.length + 3 * uuGroups left ≤ size) :
    ∃ q, q.length = 3 * uuGroups left ∧
      uuDecodeGroupsIn src size s ee p = .ok (s + 4 * uuGroups left, p ++ q) ∧
      uuDecodeGroups left (src.drop s) = (q, src.drop (s + 4 * uuGroups left)) := by
  induction left using Nat.strong_induction_on generalizing s p with
  | h left ih =>
    unfold uuGroups at hread hsize ih ⊢
    rcases Nat.eq_zero_or_pos left with rfl | hpos
    · refine ⟨[], rfl, ?_, ?_⟩
      · rw [uuDecodeGroupsIn, if_neg (by omega), List.append_nil]
        rfl
      · rw [uuDecodeGroups, if_pos rfl]
        rfl
    have hgroups : (left + 3) / 4 = (left - 4 + 3) / 4 + 1 := by omega
    rw [uuDecodeGroupsIn_group (by omega) (by omega) (by omega)]
    rcases Nat.lt_or_ge left 4 with hshort | hlong
    · -- the last group, which may go past the end of the line
      have hone : (left + 3) / 4 = 1 := by omega
      have hzero : left - 4 = 0 := by omega
      refine ⟨uuGroupBytes src s, ?_, ?_, ?_⟩
      · rw [hone]
        rfl
      · rw [uuDecodeGroupsIn, if_neg (by omega), hone]
      · rw [uuDecodeGroups, if_neg (by omega), hzero, uuDecodeGroups, if_pos rfl, hone]
        simp only [uuGroupBytes, List.getD_eq_getElem?_getD, List.getElem?_drop, List.drop_drop]
        rfl
    · obtain ⟨q, hq, hin, hout⟩ := ih (left - 4) (by omega) (s := s + 4)
        (p := p ++ uuGroupBytes src s) (by omega) (by omega)
        (by
          rw [List.length_append, uuGroupBytes]
          simp only [List.length_cons, List.length_nil]
          omega)
      refine ⟨uuGroupBytes src s ++ q, ?_, ?_, ?_⟩
      · rw [List.length_append, hq, hgroups, uuGroupBytes]
        simp only [List.length_cons, List.length_nil]
        omega
      · rw [hin, List.append_assoc]
        congr 2
        omega
      · have hs : s + 4 * ((left + 3) / 4) = s + 4 + 4 * ((left - 4 + 3) / 4) := by omega
        rw [uuDecodeGroups, if_neg (by omega), List.drop_drop, hout, hs]
        simp only [uuGroupBytes, List.getD_eq_getElem?_getD, List.getElem?_drop]
        rfl

theorem uuDecodeGroupsIn_over (left : ℕ) (hee : ee = s + left) (hpos : 0 < left)
    (hread : src.length + 1 < s + 4 * uuGroups left)
    (hsize : p.length + 3 * uuGroups left ≤ size) :
    uuDecodeGroupsIn src size s ee p = .error .outsideString := by
  induction left using Nat.strong_induction_on generalizing s p with
  | h left ih =>
    unfold uuGroups at hread hsize ih
    by_cases hgroup : s + 3 ≤ src.length
    · rw [uuDecodeGroupsIn_group (by omega) hgroup (by omega)]
      apply ih (left - 4) (by omega) (by omega) (by omega) (by omega)
      rw [List.length_append, uuGroupBytes]
      simp only [List.length_cons, List.length_nil]
      omega
    · exact uuDecodeGroupsIn_outside (by omega) hgroup (by omega)

/-! ## All lines -/

theorem uuDec_lt (c : UInt8) : uuDec c < 64 := by
  unfold uuDec
  rw [BitVec.toNat_and]
  exact Nat.and_lt_two_pow (n := 6) _ (by decide)

theorem uuLineLength_bounds {len : ℕ} (h : len < 64) :
    4 * len ≤ 3 * uuLineLength len + 6 ∧ len ≤ 3 * uuGroups (uuLineLength len) ∧
      (0 < len → 0 < uuLineLength len) := by
  unfold uuGroups uuLineLength
  split
  · omega
  · refine ⟨by omega, by omega, by omega⟩

/-- What the loop leaves behind: no more bytes are promised than written, and the `NUL` goes
into the buffer. -/
def LeftInside (size : ℕ) : Option (ℕ × List UInt8 × ℕ) → Prop
  | none => True
  | some (totalLen, p, _) => totalLen ≤ p.length ∧ totalLen < size

/-- The invariant of the loop at `s`: enough turns are left, the bytes are at most three for
four characters, and the `NUL` has its place. -/
structure LineStart (src : List UInt8) (turns s totalLen : ℕ) (p : List UInt8) : Prop where
  turns_pos : 0 < turns
  length_lt : src.length < s + turns
  written : 4 * p.length ≤ 3 * s
  total_le : totalLen ≤ p.length
  total_fits : 4 * totalLen ≤ 3 * src.length + 3

theorem LineStart.next {len : ℕ} {q : List UInt8} (h : LineStart src (turns + 1) s totalLen p)
    (hlen : len < 64) (hline : s + 1 + uuLineLength len ≤ src.length) (hpos : 0 < len)
    (hq : q.length = 3 * uuGroups (uuLineLength len)) :
    LineStart src turns (s + 4 * uuGroups (uuLineLength len) + 2) (totalLen + len) (p ++ q) := by
  obtain ⟨hbytes, hgroups, hlength⟩ := uuLineLength_bounds hlen
  obtain ⟨-, hlt, hwritten, htotal, hfits⟩ := h
  have hlength' := hlength hpos
  constructor
  · omega
  · omega
  · rw [List.length_append]
    omega
  · rw [List.length_append]
    omega
  · omega

theorem LineStart.groups_fit {len : ℕ} (h : LineStart src (turns + 1) s totalLen p)
    (hline : s + 1 + uuLineLength len ≤ src.length) :
    p.length + 3 * uuGroups (uuLineLength len) ≤ uuDecodeAlloc src.length := by
  have hwritten := h.written
  unfold uuGroups uuDecodeAlloc
  omega

theorem LineStart.total_lt (h : LineStart src turns s totalLen p) :
    totalLen < uuDecodeAlloc src.length := by
  have hfits := h.total_fits
  unfold uuDecodeAlloc
  omega

theorem uuDecodeLoopIn_inside (h : LineStart src turns s totalLen p)
    (hfit : GroupsFit src turns s) :
    ∃ r, uuDecodeLoopIn src (uuDecodeAlloc src.length) turns s totalLen p = .ok r ∧
      LeftInside (uuDecodeAlloc src.length) r ∧
      uuDecodeLoop src.length turns (src.drop s) totalLen p =
        .ok (r.map fun x => (x.1, x.2.1, src.drop x.2.2)) := by
  induction turns generalizing s totalLen p with
  | zero => exact absurd h.turns_pos (Nat.lt_irrefl 0)
  | succ turns ih =>
    have hinside : LeftInside (uuDecodeAlloc src.length) (some (totalLen, p, s)) :=
      ⟨h.total_le, h.total_lt⟩
    rw [uuDecodeLoopIn]
    by_cases hs : s < src.length
    · have hdrop : src.drop s = src.getD s 0 :: src.drop (s + 1) := by
        rw [List.getD_eq_getElem?_getD, List.getElem?_eq_getElem hs, Option.getD_some]
        exact List.drop_eq_getElem_cons hs
      rw [GroupsFit] at hfit
      rw [if_pos hs, charAt_inside hs.le, ok_bind, hdrop, uuDecodeLoop]
      dsimp only at hfit ⊢
      generalize hlen : uuDec (src.getD s 0) = len at hfit ⊢
      have hlt : len < 64 := hlen ▸ uuDec_lt _
      by_cases h0 : len = 0
      · rw [if_pos h0, if_pos h0]
        exact ⟨_, rfl, hinside, rfl⟩
      rw [if_neg h0, if_neg h0]
      by_cases hsane : src.length < len
      · rw [if_pos hsane, if_pos (Int.ofNat_lt.mpr hsane)]
        exact ⟨_, rfl, trivial, rfl⟩
      rw [if_neg hsane, if_neg (fun hlt' => hsane (Int.ofNat_lt.mp hlt')), List.length_drop]
      by_cases hline : src.length < s + 1 + uuLineLength len
      · have hline' : src.length - (s + 1) < uuLineLength len := by omega
        rw [if_pos hline, if_pos hline']
        exact ⟨_, rfl, trivial, rfl⟩
      have hline' : ¬ src.length - (s + 1) < uuLineLength len := by omega
      rw [if_neg hline, if_neg hline']
      rw [if_neg (by omega)] at hfit
      have hread : s + 1 + 4 * uuGroups (uuLineLength len) ≤ src.length + 1 := by omega
      obtain ⟨q, hq, hin, hout⟩ := uuDecodeGroupsIn_inside (uuLineLength len) rfl hread
        (h.groups_fit (Nat.not_lt.mp hline))
      have hnext := h.next hlt (Nat.not_lt.mp hline) (Nat.pos_of_ne_zero h0) hq
      rw [hin, hout, ok_bind]
      dsimp only
      by_cases hlast : len < 45
      · rw [if_pos hlast, if_pos hlast]
        exact ⟨_, rfl, ⟨hnext.total_le, hnext.total_lt⟩, rfl⟩
      · have hs' : s + 1 + 4 * uuGroups (uuLineLength len) + 1 =
            s + 4 * uuGroups (uuLineLength len) + 2 := by omega
        rw [if_neg hlast, if_neg hlast, List.drop_drop, hs']
        exact ih hnext (hfit.2 (Nat.not_lt.mp hlast))
    · rw [if_neg hs, List.drop_eq_nil_of_le (Nat.not_lt.mp hs), uuDecodeLoop]
      refine ⟨_, rfl, hinside, ?_⟩
      rw [Option.map_some, List.drop_eq_nil_of_le (Nat.not_lt.mp hs)]

theorem uuDecodeLoopIn_outside (h : LineStart src turns s totalLen p)
    (hfit : ¬ GroupsFit src turns s) :
    uuDecodeLoopIn src (uuDecodeAlloc src.length) turns s totalLen p = .error .outsideString := by
  induction turns generalizing s totalLen p with
  | zero => exact absurd trivial hfit
  | succ turns ih =>
    rw [GroupsFit] at hfit
    rw [uuDecodeLoopIn]
    by_cases hs : s < src.length
    · rw [if_pos hs, charAt_inside hs.le, ok_bind]
      dsimp only
      generalize hlen : uuDec (src.getD s 0) = len at hfit ⊢
      have hlt : len < 64 := hlen ▸ uuDec_lt _
      by_cases hend : src.length ≤ s ∨ len = 0 ∨ src.length < len ∨
          src.length < s + 1 + uuLineLength len
      · rw [if_pos hend] at hfit
        exact absurd trivial hfit
      rw [if_neg hend, not_and_or] at hfit
      simp only [not_or, Nat.not_lt] at hend
      obtain ⟨-, h0, hsane, hline⟩ := hend
      rw [if_neg h0, if_neg (Nat.not_lt.mpr hsane), if_neg (Nat.not_lt.mpr hline)]
      by_cases hgroups : s + 4 * uuGroups (uuLineLength len) ≤ src.length
      · have hread : s + 1 + 4 * uuGroups (uuLineLength len) ≤ src.length + 1 := by omega
        obtain ⟨q, hq, hin, -⟩ := uuDecodeGroupsIn_inside (uuLineLength len) rfl hread
          (h.groups_fit hline)
        rcases hfit with hfit | hfit
        · exact absurd hgroups hfit
        rw [Classical.not_imp] at hfit
        have hs' : s + 1 + 4 * uuGroups (uuLineLength len) + 1 =
            s + 4 * uuGroups (uuLineLength len) + 2 := by omega
        rw [hin, ok_bind]
        dsimp only
        rw [if_neg (Nat.not_lt.mpr hfit.1), hs']
        exact ih (h.next hlt hline (Nat.pos_of_ne_zero h0) hq) hfit.2
      · rw [uuDecodeGroupsIn_over (uuLineLength len) rfl
          ((uuLineLength_bounds hlt).2.2 (Nat.pos_of_ne_zero h0)) (by omega)
          (h.groups_fit hline), error_bind]
    · rw [if_pos (Or.inl (Nat.not_lt.mp hs))] at hfit
      exact absurd trivial hfit

theorem lineStart_zero (src : List UInt8) : LineStart src (src.length + 1) 0 0 [] :=
  ⟨Nat.succ_pos _, by omega, Nat.le_refl _, Nat.le_refl _, Nat.zero_le _⟩

/-- When every access is inside, the result is that of `php_uudecode` without the checks. -/
theorem uuDecodeIn_inside (hfit : GroupsFit src (src.length + 1) 0) :
    ∃ r, uuDecodeIn src = .ok r ∧ uuDecode src src.length = .ok r := by
  obtain ⟨r, hin, hleft, hout⟩ := uuDecodeLoopIn_inside (lineStart_zero src) hfit
  unfold uuDecodeIn uuDecode
  rw [if_neg (by omega), Int.toNat_natCast, List.take_length]
  rw [List.drop_zero] at hout
  dsimp only
  rw [hin, hout, ok_bind, ok_bind]
  cases r with
  | none => exact ⟨_, rfl, rfl⟩
  | some r =>
    obtain ⟨totalLen, p, s⟩ := r
    obtain ⟨htotal, hnul⟩ := hleft
    refine ⟨some (totalLen, p.take totalLen), ?_, ?_⟩
    · dsimp only
      rw [if_neg (Nat.not_lt.mpr htotal), ok_bind, if_pos hnul]
    · dsimp only [Option.map_some]
      rw [if_neg (Nat.not_lt.mpr htotal)]

/-- `php_uudecode` reads the string and its `NUL` only exactly when the groups of every line
that is decoded end at the `NUL` at the latest; it never writes outside the buffer. -/
theorem uuDecodeIn_iff (src : List UInt8) :
    (∃ r, uuDecodeIn src = .ok r) ↔ GroupsFit src (src.length + 1) 0 := by
  constructor
  · rintro ⟨r, hr⟩
    by_contra hfit
    unfold uuDecodeIn at hr
    dsimp only at hr
    rw [uuDecodeLoopIn_outside (lineStart_zero src) hfit, error_bind] at hr
    cases hr
  · intro hfit
    obtain ⟨r, hr, -⟩ := uuDecodeIn_inside hfit
    exact ⟨r, hr⟩

/-- A line of one byte with one character is read to the second byte behind the `NUL`. -/
theorem not_uuDecodeIn : uuDecodeIn [33, 97] = .error .outsideString := by
  have hfit : ¬ GroupsFit [33, 97] 3 0 := by
    intro h
    rw [GroupsFit, if_neg (by decide)] at h
    exact absurd h.1 (by decide)
  unfold uuDecodeIn
  dsimp only
  rw [uuDecodeLoopIn_outside (lineStart_zero [33, 97]) hfit, error_bind]

end PhpRuntime.Text
