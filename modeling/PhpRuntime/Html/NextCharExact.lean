import Mathlib.Logic.Function.Iterate
import PhpRuntime.Html.NextChar

/-!
# The scanner is exact and resynchronises

A call succeeds where a well-formed sequence begins, and only there; a failure skips bytes
that no character begins with. The calls from the beginning of the string on end at its end.
-/

set_option autoImplicit false

namespace PhpRuntime.Html

open PhpRuntime.Lib.Utf8 (Trail WellFormed wellFormed_encode)

variable {str rest s : List UInt8} {pos v : ℕ}

/-! ## The sequences that the rest of a string begins with -/

def threeBytes (a b d : UInt8) : ℕ := a.toNat % 16 * 4096 + b.toNat % 64 * 64 + d.toNat % 64

def fourBytes (a b d e : UInt8) : ℕ :=
  a.toNat % 8 * 262144 + b.toNat % 64 * 4096 + d.toNat % 64 * 64 + e.toNat % 64

/-- The first bytes are in one of the four ranges of the well-formed sequences. -/
inductive Begins (rest : List UInt8) : Prop
  | one (ha : (byteAt rest 0).toNat < 0x80)
  | two (ha : 0xC2 ≤ (byteAt rest 0).toNat) (ha' : (byteAt rest 0).toNat < 0xE0)
      (hlen : 2 ≤ rest.length) (hb : utf8Trail (byteAt rest 1))
  | three (ha : 0xE0 ≤ (byteAt rest 0).toNat) (ha' : (byteAt rest 0).toNat < 0xF0)
      (hlen : 3 ≤ rest.length) (hb : utf8Trail (byteAt rest 1)) (hd : utf8Trail (byteAt rest 2))
      (hshort : 0x800 ≤ threeBytes (byteAt rest 0) (byteAt rest 1) (byteAt rest 2))
      (hs : threeBytes (byteAt rest 0) (byteAt rest 1) (byteAt rest 2) < 0xD800 ∨
        0xDFFF < threeBytes (byteAt rest 0) (byteAt rest 1) (byteAt rest 2))
  | four (ha : 0xF0 ≤ (byteAt rest 0).toNat) (ha' : (byteAt rest 0).toNat < 0xF5)
      (hlen : 4 ≤ rest.length) (hb : utf8Trail (byteAt rest 1)) (hd : utf8Trail (byteAt rest 2))
      (he : utf8Trail (byteAt rest 3))
      (hshort : 0x10000 ≤
        fourBytes (byteAt rest 0) (byteAt rest 1) (byteAt rest 2) (byteAt rest 3))
      (hmax : fourBytes (byteAt rest 0) (byteAt rest 1) (byteAt rest 2) (byteAt rest 3) ≤
        0x10FFFF)

theorem begins_of_prefix (hs : WellFormed s v) (h : s <+: rest) : Begins rest := by
  obtain ⟨tail, rfl⟩ := h
  cases hs with
  | one ha => exact .one ha
  | two ha ha' hb => exact .two ha ha' (by simp) hb
  | three ha ha' hb hd hshort hs => exact .three ha ha' (by simp) hb hd hshort hs
  | four ha ha' hb hd he hshort hmax => exact .four ha ha' (by simp) hb hd he hshort hmax

theorem begins_two (ha : 0xC2 ≤ (byteAt rest 0).toNat) (ha' : (byteAt rest 0).toNat < 0xE0)
    (h : Begins rest) : 2 ≤ rest.length ∧ utf8Trail (byteAt rest 1) := by
  cases h with
  | two _ _ hlen hb => exact ⟨hlen, hb⟩
  | one | three | four => omega

theorem begins_three (ha : 0xE0 ≤ (byteAt rest 0).toNat) (ha' : (byteAt rest 0).toNat < 0xF0)
    (h : Begins rest) : 3 ≤ rest.length ∧ utf8Trail (byteAt rest 1) ∧ utf8Trail (byteAt rest 2) ∧
      0x800 ≤ threeBytes (byteAt rest 0) (byteAt rest 1) (byteAt rest 2) ∧
      ¬ (0xD800 ≤ threeBytes (byteAt rest 0) (byteAt rest 1) (byteAt rest 2) ∧
        threeBytes (byteAt rest 0) (byteAt rest 1) (byteAt rest 2) ≤ 0xDFFF) := by
  cases h with
  | three _ _ hlen hb hd hshort hs => exact ⟨hlen, hb, hd, hshort, by omega⟩
  | one | two | four => omega

theorem begins_four (ha : 0xF0 ≤ (byteAt rest 0).toNat) (h : Begins rest) :
    4 ≤ rest.length ∧ utf8Trail (byteAt rest 1) ∧ utf8Trail (byteAt rest 2) ∧
      utf8Trail (byteAt rest 3) ∧ (byteAt rest 0).toNat < 0xF5 ∧
      0x10000 ≤ fourBytes (byteAt rest 0) (byteAt rest 1) (byteAt rest 2) (byteAt rest 3) ∧
      fourBytes (byteAt rest 0) (byteAt rest 1) (byteAt rest 2) (byteAt rest 3) ≤ 0x10FFFF := by
  cases h with
  | four _ ha' hlen hb hd he hshort hmax => exact ⟨hlen, hb, hd, he, ha', hshort, hmax⟩
  | one | two | three => omega

theorem prefix_one (h : 1 ≤ rest.length) : [byteAt rest 0] <+: rest := by
  match rest, h with
  | a :: tail, _ => exact ⟨tail, rfl⟩

theorem prefix_two (h : 2 ≤ rest.length) : [byteAt rest 0, byteAt rest 1] <+: rest := by
  match rest, h with
  | a :: b :: tail, _ => exact ⟨tail, rfl⟩

theorem prefix_three (h : 3 ≤ rest.length) :
    [byteAt rest 0, byteAt rest 1, byteAt rest 2] <+: rest := by
  match rest, h with
  | a :: b :: d :: tail, _ => exact ⟨tail, rfl⟩

theorem prefix_four (h : 4 ≤ rest.length) :
    [byteAt rest 0, byteAt rest 1, byteAt rest 2, byteAt rest 3] <+: rest := by
  match rest, h with
  | a :: b :: d :: e :: tail, _ => exact ⟨tail, rfl⟩

/-! ## One call -/

/-- What a call does with the rest of the string: it reads a character, or it skips bytes
that begin no character although nothing well formed begins here. -/
inductive Outcome (rest : List UInt8) (pos : ℕ) : NextChar → Prop
  | success {s : List UInt8} {v : ℕ} (hs : WellFormed s v) (hrest : s <+: rest) :
      Outcome rest pos ⟨v, pos + s.length, .SUCCESS⟩
  | failure {n : ℕ} (hpos : 1 ≤ n) (hle : n ≤ rest.length)
      (hskip : ∀ i, 0 < i → i < n → ¬ utf8Lead (byteAt rest i)) (hbad : ¬ Begins rest) :
      Outcome rest pos (mbFailure pos n)

theorem byteAt_drop (str : List UInt8) (pos k : ℕ) :
    byteAt (str.drop pos) k = byteAt str (pos + k) := by
  unfold byteAt
  rw [List.getD_eq_getElem?_getD, List.getElem?_drop, ← List.getD_eq_getElem?_getD]

theorem Outcome.skip_one (h : 1 ≤ rest.length) (hbad : ¬ Begins rest) :
    Outcome rest pos (mbFailure pos 1) :=
  .failure (Nat.le_refl _) h (fun i _ _ => by omega) hbad

theorem Outcome.skip_two (h : 2 ≤ rest.length) (hb : ¬ utf8Lead (byteAt rest 1))
    (hbad : ¬ Begins rest) : Outcome rest pos (mbFailure pos 2) := by
  refine .failure (by omega) h (fun i hi hi' => ?_) hbad
  obtain rfl : i = 1 := by omega
  exact hb

theorem Outcome.skip_three (h : 3 ≤ rest.length) (hb : ¬ utf8Lead (byteAt rest 1))
    (hd : ¬ utf8Lead (byteAt rest 2)) (hbad : ¬ Begins rest) :
    Outcome rest pos (mbFailure pos 3) := by
  refine .failure (by omega) h (fun i hi hi' => ?_) hbad
  obtain rfl | rfl : i = 1 ∨ i = 2 := by omega
  · exact hb
  · exact hd

theorem Outcome.skip_four (h : 4 ≤ rest.length) (hb : ¬ utf8Lead (byteAt rest 1))
    (hd : ¬ utf8Lead (byteAt rest 2)) (he : ¬ utf8Lead (byteAt rest 3)) (hbad : ¬ Begins rest) :
    Outcome rest pos (mbFailure pos 4) := by
  refine .failure (by omega) h (fun i hi hi' => ?_) hbad
  obtain rfl | rfl | rfl : i = 1 ∨ i = 2 ∨ i = 3 := by omega
  · exact hb
  · exact hd
  · exact he

theorem not_lead_of_trail {c : UInt8} (h : utf8Trail c) : ¬ utf8Lead c := by
  unfold utf8Trail at h
  unfold utf8Lead
  omega

theorem outcome_two (ha : 0xC2 ≤ (byteAt rest 0).toNat) (ha' : (byteAt rest 0).toNat < 0xE0)
    (hpos : 1 ≤ rest.length) :
    Outcome rest pos
      (if rest.length < 2 then mbFailure pos 1
      else if ¬ utf8Trail (byteAt rest 1) then
        mbFailure pos (if utf8Lead (byteAt rest 1) then 1 else 2)
      else if (byteAt rest 0).toNat % 32 * 64 + (byteAt rest 1).toNat % 64 < 0x80 then
        mbFailure pos 2
      else ⟨(byteAt rest 0).toNat % 32 * 64 + (byteAt rest 1).toNat % 64, pos + 2, .SUCCESS⟩) := by
  split
  · next hlen =>
    apply Outcome.skip_one hpos
    intro hbegins
    exact absurd (begins_two ha ha' hbegins).1 (Nat.not_le.mpr hlen)
  next hlen =>
  split
  · next hb =>
    have hbad : ¬ Begins rest := fun hbegins => hb (begins_two ha ha' hbegins).2
    split
    · exact .skip_one hpos hbad
    · next hlead => exact .skip_two (Nat.not_lt.mp hlen) hlead hbad
  next hb =>
  rw [not_not] at hb
  rw [if_neg (by omega)]
  exact .success (.two ha ha' hb) (prefix_two (Nat.not_lt.mp hlen))

theorem outcome_three (ha : 0xE0 ≤ (byteAt rest 0).toNat) (ha' : (byteAt rest 0).toNat < 0xF0)
    (hpos : 1 ≤ rest.length) :
    Outcome rest pos
      (if rest.length < 3 ∨ ¬ utf8Trail (byteAt rest 1) ∨ ¬ utf8Trail (byteAt rest 2) then
        if rest.length < 2 ∨ utf8Lead (byteAt rest 1) then mbFailure pos 1
        else if rest.length < 3 ∨ utf8Lead (byteAt rest 2) then mbFailure pos 2
        else mbFailure pos 3
      else if threeBytes (byteAt rest 0) (byteAt rest 1) (byteAt rest 2) < 0x800 then
        mbFailure pos 3
      else if 0xd800 ≤ threeBytes (byteAt rest 0) (byteAt rest 1) (byteAt rest 2) ∧
          threeBytes (byteAt rest 0) (byteAt rest 1) (byteAt rest 2) ≤ 0xdfff then
        mbFailure pos 3
      else ⟨threeBytes (byteAt rest 0) (byteAt rest 1) (byteAt rest 2), pos + 3, .SUCCESS⟩) := by
  split
  · next hshort =>
    have hbad : ¬ Begins rest := by
      intro hbegins
      obtain ⟨hlen, hb, hd, -⟩ := begins_three ha ha' hbegins
      rcases hshort with h | h | h
      · exact absurd hlen (Nat.not_le.mpr h)
      · exact h hb
      · exact h hd
    split
    · exact .skip_one hpos hbad
    next hone =>
    rw [not_or] at hone
    split
    · exact .skip_two (Nat.not_lt.mp hone.1) hone.2 hbad
    · next htwo =>
      rw [not_or] at htwo
      exact .skip_three (Nat.not_lt.mp htwo.1) hone.2 htwo.2 hbad
  next hwhole =>
  simp only [not_or, not_not, Nat.not_lt] at hwhole
  obtain ⟨hlen, hb, hd⟩ := hwhole
  split
  · next hshort =>
    refine .skip_three hlen (not_lead_of_trail hb) (not_lead_of_trail hd) fun hbegins => ?_
    exact absurd (begins_three ha ha' hbegins).2.2.2.1 (Nat.not_le.mpr hshort)
  next hshort =>
  split
  · next hs =>
    refine .skip_three hlen (not_lead_of_trail hb) (not_lead_of_trail hd) fun hbegins => ?_
    exact (begins_three ha ha' hbegins).2.2.2.2 hs
  · next hs =>
    refine .success (.three ha ha' hb hd (Nat.not_lt.mp hshort) ?_) (prefix_three hlen)
    unfold threeBytes at hs
    omega

theorem outcome_four (ha : 0xF0 ≤ (byteAt rest 0).toNat) (ha' : (byteAt rest 0).toNat < 0xF5)
    (hpos : 1 ≤ rest.length) :
    Outcome rest pos
      (if rest.length < 4 ∨ ¬ utf8Trail (byteAt rest 1) ∨ ¬ utf8Trail (byteAt rest 2) ∨
          ¬ utf8Trail (byteAt rest 3) then
        if rest.length < 2 ∨ utf8Lead (byteAt rest 1) then mbFailure pos 1
        else if rest.length < 3 ∨ utf8Lead (byteAt rest 2) then mbFailure pos 2
        else if rest.length < 4 ∨ utf8Lead (byteAt rest 3) then mbFailure pos 3
        else mbFailure pos 4
      else if fourBytes (byteAt rest 0) (byteAt rest 1) (byteAt rest 2) (byteAt rest 3) < 0x10000 ∨
          0x10FFFF < fourBytes (byteAt rest 0) (byteAt rest 1) (byteAt rest 2) (byteAt rest 3) then
        mbFailure pos 4
      else ⟨fourBytes (byteAt rest 0) (byteAt rest 1) (byteAt rest 2) (byteAt rest 3), pos + 4,
        .SUCCESS⟩) := by
  split
  · next hshort =>
    have hbad : ¬ Begins rest := by
      intro hbegins
      obtain ⟨hlen, hb, hd, he, -⟩ := begins_four ha hbegins
      rcases hshort with h | h | h | h
      · exact absurd hlen (Nat.not_le.mpr h)
      · exact h hb
      · exact h hd
      · exact h he
    split
    · exact .skip_one hpos hbad
    next hone =>
    rw [not_or] at hone
    split
    · exact .skip_two (Nat.not_lt.mp hone.1) hone.2 hbad
    next htwo =>
    rw [not_or] at htwo
    split
    · exact .skip_three (Nat.not_lt.mp htwo.1) hone.2 htwo.2 hbad
    · next hthree =>
      rw [not_or] at hthree
      exact .skip_four (Nat.not_lt.mp hthree.1) hone.2 htwo.2 hthree.2 hbad
  next hwhole =>
  simp only [not_or, not_not, Nat.not_lt] at hwhole
  obtain ⟨hlen, hb, hd, he⟩ := hwhole
  split
  · next hrange =>
    refine .skip_four hlen (not_lead_of_trail hb) (not_lead_of_trail hd) (not_lead_of_trail he)
      fun hbegins => ?_
    obtain ⟨-, -, -, -, -, hshort, hmax⟩ := begins_four ha hbegins
    omega
  · next hrange =>
    rw [not_or, Nat.not_lt, Nat.not_lt] at hrange
    exact .success (.four ha ha' hb hd he hrange.1 hrange.2) (prefix_four hlen)

theorem getNextChar_outcome (h : pos < str.length) :
    Outcome (str.drop pos) pos (getNextChar str pos) := by
  have hlen : (str.drop pos).length = str.length - pos := List.length_drop
  have h0 : byteAt str pos = byteAt (str.drop pos) 0 := (byteAt_drop str pos 0).symm
  unfold getNextChar
  dsimp only
  rw [← hlen, h0, ← byteAt_drop, ← byteAt_drop, ← byteAt_drop, join_two, join_three, join_four]
  have hpos : 1 ≤ (str.drop pos).length := by omega
  clear hlen h0 h
  generalize str.drop pos = rest at *
  rw [if_neg (by omega)]
  split
  · next ha => exact .success (.one ha) (prefix_one hpos)
  split
  · apply Outcome.skip_one hpos
    intro hbegins
    cases hbegins <;> omega
  next h80 hc2 =>
  split
  · next he0 =>
    exact outcome_two (Nat.not_lt.mp hc2) he0 hpos
  next he0 =>
  split
  · next hf0 =>
    exact outcome_three (Nat.not_lt.mp he0) hf0 hpos
  next hf0 =>
  split
  · next hf5 =>
    exact outcome_four (Nat.not_lt.mp hf0) hf5 hpos
  · next hf5 =>
    apply Outcome.skip_one hpos
    intro hbegins
    have h := (begins_four (Nat.not_lt.mp hf0) hbegins).2.2.2.2.1
    exact hf5 h

/-! ## The calls from the beginning of the string on -/

/-- A character of the string begins at a position. -/
def CharAt (str : List UInt8) (pos : ℕ) : Prop :=
  ∃ c : Char, String.utf8EncodeChar c <+: str.drop pos

theorem begins_of_charAt (h : CharAt str pos) : Begins (str.drop pos) := by
  obtain ⟨c, hc⟩ := h
  exact begins_of_prefix (wellFormed_encode c) hc

theorem charAt_lt (h : CharAt str pos) : pos < str.length := by
  obtain ⟨c, hc⟩ := h
  have hle := hc.length_le
  have hpos : 0 < (String.utf8EncodeChar c).length :=
    List.length_pos_of_ne_nil String.utf8EncodeChar_ne_nil
  rw [List.length_drop] at hle
  omega

theorem lead_of_begins (h : Begins rest) : utf8Lead (byteAt rest 0) := by
  unfold utf8Lead
  cases h <;> omega

theorem getNextChar_of_startsWith {c : Char} (h : String.utf8EncodeChar c <+: str.drop pos) :
    getNextChar str pos = ⟨c.toNat, pos + (String.utf8EncodeChar c).length, .SUCCESS⟩ := by
  have houtcome := getNextChar_outcome (charAt_lt ⟨c, h⟩)
  generalize getNextChar str pos = r at houtcome
  cases houtcome with
  | success hs hrest =>
    obtain ⟨d, rfl, rfl⟩ := hs.exists_char
    rw [Lib.Utf8.prefix_unique hrest h]
  | failure _ _ _ hbad => exact absurd (begins_of_charAt ⟨c, h⟩) hbad

theorem getNextChar_cursor (h : pos < str.length) :
    pos < (getNextChar str pos).cursor ∧ (getNextChar str pos).cursor ≤ str.length := by
  have houtcome := getNextChar_outcome h
  have hlen : (str.drop pos).length = str.length - pos := List.length_drop
  generalize getNextChar str pos = r at houtcome
  cases houtcome with
  | @success s v hs hrest =>
    have hle := hrest.length_le
    obtain ⟨c, -, rfl⟩ := hs.exists_char
    have hpos : 0 < (String.utf8EncodeChar c).length :=
      List.length_pos_of_ne_nil String.utf8EncodeChar_ne_nil
    dsimp only
    omega
  | failure hpos hle => exact ⟨by dsimp only [mbFailure]; omega, by dsimp only [mbFailure]; omega⟩

theorem exists_iterate_cursor (n : ℕ) (hpos : pos ≤ str.length) (hn : str.length - pos ≤ n) :
    ∃ k ≤ n, (fun p => (getNextChar str p).cursor)^[k] pos = str.length ∧
      ∀ j < k, (fun p => (getNextChar str p).cursor)^[j] pos < str.length := by
  induction n generalizing pos with
  | zero => exact ⟨0, Nat.le_refl _, by dsimp only [Nat.iterate]; omega, fun j hj => by omega⟩
  | succ n ih =>
    rcases Nat.lt_or_ge pos str.length with hlt | hge
    · have hcursor := getNextChar_cursor hlt
      obtain ⟨k, hk, hend, hbefore⟩ := ih hcursor.2 (by omega)
      refine ⟨k + 1, by omega, hend, fun j hj => ?_⟩
      cases j with
      | zero => exact hlt
      | succ j => exact hbefore j (by omega)
    · exact ⟨0, by omega, by dsimp only [Nat.iterate]; omega, fun j hj => by omega⟩

/-- The scanner reads the well-formed sequences and nothing else, and its failures skip
nothing that could begin one. -/
structure ScansUtf8 (str : List UInt8) : Prop where
  status_iff : ∀ pos ≤ str.length,
    (getNextChar str pos).status = .SUCCESS ↔ CharAt str pos
  reads : ∀ pos (c : Char), String.utf8EncodeChar c <+: str.drop pos →
    getNextChar str pos = ⟨c.toNat, pos + (String.utf8EncodeChar c).length, .SUCCESS⟩
  skips : ∀ pos < str.length, (getNextChar str pos).status = .FAILURE →
    pos + 1 ≤ (getNextChar str pos).cursor ∧ (getNextChar str pos).cursor ≤ str.length ∧
      ∀ i, pos < i → i < (getNextChar str pos).cursor →
        ¬ utf8Lead (byteAt str i) ∧ ¬ CharAt str i
  terminates : ∃ n ≤ str.length, (fun pos => (getNextChar str pos).cursor)^[n] 0 = str.length ∧
    ∀ m < n, (fun pos => (getNextChar str pos).cursor)^[m] 0 < str.length

theorem scansUtf8 (str : List UInt8) : ScansUtf8 str where
  status_iff pos hpos := by
    constructor
    · intro hstatus
      rcases Nat.lt_or_ge pos str.length with hlt | hge
      · have houtcome := getNextChar_outcome hlt
        generalize getNextChar str pos = r at houtcome hstatus
        cases houtcome with
        | success hs hrest =>
          obtain ⟨c, -, rfl⟩ := hs.exists_char
          exact ⟨c, hrest⟩
        | failure => exact Status.noConfusion hstatus
      · have hend : getNextChar str pos = mbFailure pos 1 := if_pos (by omega)
        rw [hend] at hstatus
        exact Status.noConfusion hstatus
    · rintro ⟨c, hc⟩
      rw [getNextChar_of_startsWith hc]
  reads _ _ h := getNextChar_of_startsWith h
  skips pos hlt hstatus := by
    have hcursor := getNextChar_cursor hlt
    refine ⟨hcursor.1, hcursor.2, fun i hi hi' => ?_⟩
    have hlead : ¬ utf8Lead (byteAt str i) := by
      have houtcome := getNextChar_outcome hlt
      generalize getNextChar str pos = r at houtcome hstatus hi'
      cases houtcome with
      | success => exact Status.noConfusion hstatus
      | @failure n hpos hle hskip hbad =>
        have hn : i < pos + n := hi'
        have h := hskip (i - pos) (by omega) (by omega)
        rwa [byteAt_drop, Nat.add_sub_cancel' (Nat.le_of_lt hi)] at h
    refine ⟨hlead, fun hchar => hlead ?_⟩
    have h := lead_of_begins (begins_of_charAt hchar)
    rwa [byteAt_drop] at h
  terminates := exists_iterate_cursor str.length (Nat.zero_le _) (Nat.sub_le _ _)

end PhpRuntime.Html
