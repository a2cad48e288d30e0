import PhpRuntime.Text.StrtrTables
import PhpRuntime.Lib.Replacement

/-!
# `strtr` with an array is the naive replacement

With a pattern that is not longer than the subject, each turn of the loop skips places where no
pattern is, or puts the longest pattern at the place. Without one the length of the shortest
pattern is `SIZE_MAX`, and the first turn reads in front of the subject.
-/

set_option autoImplicit false

namespace PhpRuntime.Text

open PhpRuntime.Lib (ok_bind)
open PhpRuntime.Lib.Replacement

variable {text : List UInt8} {ps : List Patnrepl} {d : Ppres} {pos : ℕ}

/-! ### Sizes -/

theorem toSize_eq {x : ℤ} {n : ℕ} (h : x = n) (hn : n ≤ SIZE_MAX) : toSize x = n := by
  rw [SIZE_MAX] at hn
  rw [toSize, h]
  omega

theorem readText_eq {start len : ℕ} (h : start + len ≤ text.length) :
    readText text start len = .ok ((text.drop start).take len) := if_pos h

theorem readText_error {start len : ℕ} (h : text.length < start + len) :
    readText text start len = .error .outsideString := if_neg (not_le.mpr h)

/-! ### Matches -/

theorem block_of_prefix {p s : List UInt8} (h : p <+: s) (j len : ℕ) (hj : j + len ≤ p.length) :
    (s.drop j).take len = (p.drop j).take len := by
  obtain ⟨t, rfl⟩ := h
  rw [List.drop_append_of_le_length (by omega), List.take_append_of_le_length]
  rw [List.length_drop]
  omega

def PatternAt (text : List UInt8) (p : Patnrepl) (j : ℕ) : Prop := p.pat <+: text.drop j

theorem PatternAt.le {p : Patnrepl} {j : ℕ} (h : PatternAt text p j) (hj : j ≤ text.length) :
    j + p.pat.length ≤ text.length := by
  have hle := List.IsPrefix.length_le h
  rw [List.length_drop] at hle
  omega

/-- **A shift skips no match.** -/
theorem not_patternAt_of_shift (hd : Prepared ps d) (hpos : pos + d.m ≤ text.length) {s : ℕ}
    (hs : s < d.shift.getD (strtrHash ((text.drop (pos + d.m - d.B)).take d.B) &&& shiftMask).toNat
      0) {p : Patnrepl} (hp : p ∈ ps) : ¬ PatternAt text p (pos + s) := by
  intro hmatch
  have hB := hd.B_le
  have hm := hd.m_le p hp
  have hBpos := hd.B_pos
  have hshift := hd.shift_le (strtrHash ((text.drop (pos + d.m - d.B)).take d.B) &&& shiftMask).toNat
    (by
      rw [UInt16.toNat_and, shiftTabSize]
      exact Nat.lt_succ_of_le Nat.and_le_right)
  -- the block at the end of the window is in the pattern
  have hblock := block_of_prefix hmatch (d.m - d.B - s) d.B (by omega)
  rw [List.drop_drop, show pos + s + (d.m - d.B - s) = pos + d.m - d.B by omega] at hblock
  have hsafe := hd.shift_safe p hp (d.m - d.B - s) (Nat.sub_le _ _)
  rw [shiftIndex, ← hblock] at hsafe
  omega

def Candidate (text : List UInt8) (d : Ppres) (pos : ℕ) (prefixH : UInt16) (i : ℕ) : Prop :=
  d.prefixHash.getD i 0 = prefixH ∧ PatternAt text (patternAt d.patterns i) pos

theorem findPattern_spec (hpos : pos ≤ text.length) (hlen : text.length ≤ SIZE_MAX)
    (prefixH : UInt16) (n i : ℕ) :
    (∃ j, i ≤ j ∧ j < i + n ∧ Candidate text d pos prefixH j ∧
        (∀ k, i ≤ k → k < j → ¬ Candidate text d pos prefixH k) ∧
        findPattern text d pos prefixH n i = .ok (some (patternAt d.patterns j))) ∨
      (∀ k, i ≤ k → k < i + n → ¬ Candidate text d pos prefixH k) ∧
        findPattern text d pos prefixH n i = .ok none := by
  induction n generalizing i with
  | zero => exact Or.inr ⟨fun k hk hlt => by omega, rfl⟩
  | succ n ih =>
    -- the index `i` is passed over
    have hnext (hi : ¬ Candidate text d pos prefixH i)
        (heq : findPattern text d pos prefixH (n + 1) i =
          findPattern text d pos prefixH n (i + 1)) :
        (∃ j, i ≤ j ∧ j < i + (n + 1) ∧ Candidate text d pos prefixH j ∧
            (∀ k, i ≤ k → k < j → ¬ Candidate text d pos prefixH k) ∧
            findPattern text d pos prefixH (n + 1) i = .ok (some (patternAt d.patterns j))) ∨
          (∀ k, i ≤ k → k < i + (n + 1) → ¬ Candidate text d pos prefixH k) ∧
            findPattern text d pos prefixH (n + 1) i = .ok none := by
      have hall (j : ℕ) (hj : ∀ k, i + 1 ≤ k → k < j → ¬ Candidate text d pos prefixH k) :
          ∀ k, i ≤ k → k < j → ¬ Candidate text d pos prefixH k := by
        intro k hk hkj
        rcases Nat.eq_or_lt_of_le hk with rfl | hlt
        · exact hi
        · exact hj k hlt hkj
      rw [heq]
      rcases ih (i + 1) with ⟨j, hij, hjn, hj, hbefore, hfound⟩ | ⟨hnone, hfound⟩
      · exact Or.inl ⟨j, by omega, by omega, hj, hall j hbefore, hfound⟩
      · exact Or.inr ⟨hall _ fun k hk hkn => hnone k hk (by omega), hfound⟩
    by_cases hprefix : d.prefixHash.getD i 0 ≠ prefixH
    · exact hnext (fun h => hprefix h.1) (by rw [findPattern, if_pos hprefix])
    have hsize : toSize (text.length - pos) = text.length - pos := toSize_eq (by omega) (by omega)
    by_cases hlong : text.length - pos < (patternAt d.patterns i).pat.length
    · refine hnext (fun h => ?_) ?_
      · have hle := h.2.le hpos
        omega
      · rw [findPattern, if_neg hprefix]
        exact if_pos (hsize.trans_lt hlong)
    · have hread : readText text pos (patternAt d.patterns i).pat.length =
          .ok ((text.drop pos).take (patternAt d.patterns i).pat.length) :=
        readText_eq (by omega)
      have hiff : (text.drop pos).take (patternAt d.patterns i).pat.length =
          (patternAt d.patterns i).pat ↔ PatternAt text (patternAt d.patterns i) pos := by
        rw [PatternAt, List.prefix_iff_eq_take]
        exact eq_comm
      have hstep : findPattern text d pos prefixH (n + 1) i =
          if (text.drop pos).take (patternAt d.patterns i).pat.length =
              (patternAt d.patterns i).pat then .ok (some (patternAt d.patterns i))
          else findPattern text d pos prefixH n (i + 1) := by
        rw [findPattern, if_neg hprefix]
        change (if toSize _ < (patternAt d.patterns i).pat.length then _
          else readText text pos (patternAt d.patterns i).pat.length >>= fun bytes => _) = _
        rw [hsize, if_neg hlong, hread, ok_bind]
        rfl
      by_cases hmatch : PatternAt text (patternAt d.patterns i) pos
      · rw [if_pos (hiff.mpr hmatch)] at hstep
        exact Or.inl ⟨i, le_rfl, by omega, ⟨not_not.mp hprefix, hmatch⟩,
          fun k hk hki => by omega, hstep⟩
      · rw [if_neg (mt hiff.mp hmatch)] at hstep
        exact hnext (fun h => hmatch h.2) hstep

/-- The longest pattern at a place, of equal ones the first. -/
structure LongestAt (text : List UInt8) (sorted : List Patnrepl) (j i : ℕ) : Prop where
  lt : i < sorted.length
  patternAt : PatternAt text (patternAt sorted i) j
  before : ∀ k < i, ¬ PatternAt text (Text.patternAt sorted k) j
  longest : ∀ k < sorted.length, PatternAt text (Text.patternAt sorted k) j →
    (Text.patternAt sorted k).pat.length ≤ (Text.patternAt sorted i).pat.length

theorem patternAt_mem {sorted : List Patnrepl} {j : ℕ} (hj : j < sorted.length) :
    patternAt sorted j ∈ sorted := by
  rw [patternAt, List.getD_eq_getElem _ _ hj]
  exact List.getElem_mem hj

theorem candidate_of_patternAt (hd : Prepared ps d) {k : ℕ} (hk : k < d.patterns.length)
    (hmatch : PatternAt text (patternAt d.patterns k) pos) :
    Candidate text d pos (strtrHash ((text.drop pos).take d.Bp)) k ∧
      suffixIndex d.B d.m (patternAt d.patterns k) =
        (strtrHash ((text.drop (pos + d.m - d.B)).take d.B) &&& shiftMask &&& hashMask).toNat := by
  have hm := hd.m_le _ (hd.perm.mem_iff.mp (patternAt_mem hk))
  have hB := hd.B_le
  have hBp := hd.Bp_le
  have hfront := block_of_prefix hmatch 0 d.Bp (by omega)
  have hblock := block_of_prefix hmatch (d.m - d.B) d.B (by omega)
  rw [List.drop_zero, List.drop_zero] at hfront
  rw [List.drop_drop, ← Nat.add_sub_assoc hB] at hblock
  have hmask : shiftMask &&& hashMask = hashMask := rfl
  refine ⟨⟨?_, hmatch⟩, ?_⟩
  · rw [hd.prefixHash k hk, hfront]
  · rw [suffixIndex, suffixHash, UInt16.and_assoc, hmask, hblock]

theorem tries_spec (hd : Prepared ps d) (hpos : pos ≤ text.length)
    (hlen : text.length ≤ SIZE_MAX) {h2 : ℕ}
    (hh2 : h2 = (strtrHash ((text.drop (pos + d.m - d.B)).take d.B) &&& shiftMask &&&
      hashMask).toNat) :
    ∃ r, findPattern text d pos (strtrHash ((text.drop pos).take d.Bp))
        (d.hash.getD (h2 + 1) 0 - d.hash.getD h2 0).toNat (d.hash.getD h2 0).toNat = .ok r ∧
      (r = none → ∀ k < d.patterns.length, ¬ PatternAt text (patternAt d.patterns k) pos) ∧
      ∀ p, r = some p → ∃ i, p = patternAt d.patterns i ∧ LongestAt text d.patterns pos i := by
  have hh2lt : h2 < hashTabSize := by
    rw [hh2, UInt16.toNat_and _ hashMask, hashTabSize]
    exact Nat.lt_succ_of_le Nat.and_le_right
  obtain ⟨r, hr, hrlen, hrange⟩ := hd.hash h2 (le_of_lt hh2lt)
  obtain ⟨r', hr', hrlen', hrange'⟩ := hd.hash (h2 + 1) hh2lt
  -- the stretch of the patterns with this hash
  have hbucket (j : ℕ) (hj : j < d.patterns.length) :
      suffixIndex d.B d.m (patternAt d.patterns j) = h2 ↔ r ≤ j ∧ j < r' := by
    rw [← hrange' j hj, ← not_lt, ← hrange j hj]
    omega
  have hin (k : ℕ) (hk : k < d.patterns.length)
      (hmatch : PatternAt text (patternAt d.patterns k) pos) :
      (r ≤ k ∧ k < r') ∧ Candidate text d pos (strtrHash ((text.drop pos).take d.Bp)) k := by
    obtain ⟨hcand, hindex⟩ := candidate_of_patternAt hd hk hmatch
    exact ⟨(hbucket k hk).mp (by rw [hindex, hh2]), hcand⟩
  have hcount : ((r' : ℤ) - r).toNat = r' - r := by omega
  rw [hr, hr', hcount, Int.toNat_natCast]
  rcases findPattern_spec hpos hlen (strtrHash ((text.drop pos).take d.Bp)) (r' - r) r with
    ⟨j, hrj, hjr', hcand, hbefore, hfound⟩ | ⟨hnone, hfound⟩
  · have hj : j < d.patterns.length := by omega
    -- the patterns in front of this one do not match
    have hfirst (k : ℕ) (hk : k < j) : ¬ PatternAt text (patternAt d.patterns k) pos := by
      intro hmatch
      obtain ⟨hrange, hcandk⟩ := hin k (by omega) hmatch
      exact hbefore k hrange.1 hk hcandk
    refine ⟨_, hfound, fun h => (by cases h), fun p hp => ?_⟩
    cases hp
    refine ⟨j, rfl, hj, hcand.2, hfirst, fun k hk hmatch => ?_⟩
    rcases lt_trichotomy k j with hkj | rfl | hjk
    · exact absurd hmatch (hfirst k hkj)
    · exact le_rfl
    · refine hd.sorted.long j k hjk hk ?_
      rw [(hbucket j hj).mpr ⟨hrj, by omega⟩, (hbucket k hk).mpr (hin k hk hmatch).1]
  · refine ⟨_, hfound, fun _ k hk hmatch => ?_, fun p hp => by cases hp⟩
    obtain ⟨hrange, hcand⟩ := hin k hk hmatch
    exact hnone k hrange.1 (by omega) hcand

/-! ### The loop -/

/-- A rule that replaces the longest pattern at each place of the subject. -/
structure RuleFor (text : List UInt8) (sorted : List Patnrepl)
    (rule : List UInt8 → Option (ℕ × List UInt8)) : Prop where
  none : ∀ j ≤ text.length, (∀ k < sorted.length, ¬ PatternAt text (patternAt sorted k) j) →
    rule (text.drop j) = none
  some : ∀ j ≤ text.length, ∀ i, LongestAt text sorted j i →
    rule (text.drop j) = some ((patternAt sorted i).pat.length, (patternAt sorted i).repl)

/-- What is copied, what is to be copied and what is to be searched make up the result. -/
structure Scanned (text : List UInt8) (rule : List UInt8 → Option (ℕ × List UInt8))
    (pos nextwpos : ℕ) (result : List UInt8) : Prop where
  pos_le : pos ≤ text.length
  nextwpos_le : nextwpos ≤ pos
  whole : result ++ (text.drop nextwpos).take (pos - nextwpos) ++
    replaceAll rule (text.drop pos) = replaceAll rule text

variable {rule : List UInt8 → Option (ℕ × List UInt8)} {nextwpos : ℕ} {result : List UInt8}

theorem Scanned.skip (h : Scanned text rule pos nextwpos result) {s : ℕ}
    (hs : pos + s ≤ text.length) (hnone : ∀ j < s, rule (text.drop (pos + j)) = none) :
    Scanned text rule (pos + s) nextwpos result := by
  have hskip := replaceAll_skip (s := text.drop pos) (i := s)
    (by rw [List.length_drop]; omega)
    (fun j hj => by rw [List.drop_drop]; exact hnone j hj)
  have hnext := h.nextwpos_le
  have htake : (text.drop nextwpos).take (pos + s - nextwpos) =
      (text.drop nextwpos).take (pos - nextwpos) ++ (text.drop pos).take s := by
    have hsum : pos + s - nextwpos = pos - nextwpos + s := by omega
    rw [hsum, List.take_add, List.drop_drop, Nat.add_sub_cancel' hnext]
  refine ⟨hs, by omega, ?_⟩
  rw [← h.whole, hskip, List.drop_drop, htake]
  simp only [List.append_assoc]

theorem Scanned.replace (h : Scanned text rule pos nextwpos result) {sorted : List Patnrepl}
    {i : ℕ} (hrule : RuleFor text sorted rule) (hi : LongestAt text sorted pos i)
    (hne : (patternAt sorted i).pat ≠ []) :
    Scanned text rule (pos + (patternAt sorted i).pat.length)
      (pos + (patternAt sorted i).pat.length)
      (result ++ (text.drop nextwpos).take (pos - nextwpos) ++ (patternAt sorted i).repl) := by
  have hpos : 0 < (patternAt sorted i).pat.length := List.length_pos_of_ne_nil hne
  have hle := hi.patternAt.le h.pos_le
  have hrest := replaceAll_some (hrule.some pos h.pos_le i hi)
    (List.ne_nil_of_length_pos (by rw [List.length_drop]; omega)) hpos
  refine ⟨hle, le_rfl, ?_⟩
  rw [← h.whole, hrest, List.drop_drop, Nat.sub_self, List.take_zero, List.append_nil]
  simp only [List.append_assoc]

theorem doReplLoop_shift {lastpos n shift : ℕ} {block : List UInt8} (hpos : pos ≤ lastpos)
    (hblock : readText text (toSize (pos + d.m - d.B)) d.B = .ok block)
    (hshift : d.shift.getD (strtrHash block &&& shiftMask).toNat 0 = shift) (hs : 0 < shift) :
    doReplLoop text d lastpos (n + 1) pos nextwpos result =
      doReplLoop text d lastpos n (toSize (pos + shift)) nextwpos result := by
  rw [doReplLoop, if_pos hpos, hblock, ok_bind]
  dsimp only
  rw [hshift]
  exact if_pos hs

theorem doReplLoop_tries {lastpos n : ℕ} {block front : List UInt8} {found : Option Patnrepl}
    (hpos : pos ≤ lastpos)
    (hblock : readText text (toSize (pos + d.m - d.B)) d.B = .ok block)
    (hshift : d.shift.getD (strtrHash block &&& shiftMask).toNat 0 = 0)
    (hfront : readText text pos d.Bp = .ok front)
    (hfound : findPattern text d pos (strtrHash front)
      (d.hash.getD ((strtrHash block &&& shiftMask &&& hashMask).toNat + 1) 0 -
        d.hash.getD (strtrHash block &&& shiftMask &&& hashMask).toNat 0).toNat
      (d.hash.getD (strtrHash block &&& shiftMask &&& hashMask).toNat 0).toNat = .ok found) :
    doReplLoop text d lastpos (n + 1) pos nextwpos result =
      found.elim (doReplLoop text d lastpos n (toSize (pos + 1)) nextwpos result) fun pnr =>
        readText text nextwpos (toSize (pos - nextwpos)) >>= fun copied =>
          doReplLoop text d lastpos n (toSize (pos + pnr.pat.length))
            (toSize (pos + pnr.pat.length)) (result ++ copied ++ pnr.repl) := by
  rw [doReplLoop, if_pos hpos, hblock, ok_bind]
  dsimp only
  rw [hshift, if_neg (lt_irrefl 0), hfront, ok_bind, hfound, ok_bind]
  cases found with
  | none => rfl
  | some pnr => rfl

/-- **The loop.** -/
theorem doReplLoop_spec (hd : Prepared ps d) (hne : ∀ p ∈ ps, p.pat ≠ [])
    (hrule : RuleFor text d.patterns rule) (hlen : text.length < SIZE_MAX)
    (hm : d.m ≤ text.length) (n pos nextwpos : ℕ) (result : List UInt8)
    (hn : text.length < pos + n) (h : Scanned text rule pos nextwpos result) :
    ∃ nextwpos' result',
      doReplLoop text d (text.length - d.m) n pos nextwpos result = .ok (nextwpos', result') ∧
        nextwpos' ≤ text.length ∧ result' ++ text.drop nextwpos' = replaceAll rule text := by
  have hB := hd.B_le
  have hBpos := hd.B_pos
  have hBp := hd.Bp_le
  induction n generalizing pos nextwpos result with
  | zero => exact absurd h.pos_le (by omega)
  | succ n ih =>
    have hle := h.pos_le
    have hnext := h.nextwpos_le
    by_cases hlast : pos ≤ text.length - d.m
    · have hstart : toSize (pos + d.m - d.B) = pos + d.m - d.B :=
        toSize_eq (by omega) (by omega)
      have hblock : readText text (toSize (pos + d.m - d.B)) d.B =
          .ok ((text.drop (pos + d.m - d.B)).take d.B) := by
        rw [hstart]
        exact readText_eq (by omega)
      cases hshift : d.shift.getD
          (strtrHash ((text.drop (pos + d.m - d.B)).take d.B) &&& shiftMask).toNat 0 with
      | succ s =>
        -- no pattern is at the places that are skipped
        have hbound := hd.shift_le
          (strtrHash ((text.drop (pos + d.m - d.B)).take d.B) &&& shiftMask).toNat
          (by
            rw [UInt16.toNat_and, shiftTabSize]
            exact Nat.lt_succ_of_le Nat.and_le_right)
        rw [hshift] at hbound
        have hend : pos + (s + 1) ≤ text.length := by omega
        have hsize : toSize (pos + (s + 1 : ℕ)) = pos + (s + 1) :=
          toSize_eq (Nat.cast_add _ _).symm (by omega)
        rw [doReplLoop_shift hlast hblock hshift (Nat.succ_pos s), hsize]
        refine ih _ _ _ (by omega) (h.skip hend fun j hj => ?_)
        refine hrule.none _ (by omega) fun k hk => ?_
        exact not_patternAt_of_shift hd (by omega) (by rw [hshift]; exact hj)
          (hd.perm.mem_iff.mp (patternAt_mem hk))
      | zero =>
        have hfront : readText text pos d.Bp = .ok ((text.drop pos).take d.Bp) :=
          readText_eq (by omega)
        obtain ⟨found, hfound, hnone, hsome⟩ := tries_spec hd hle (le_of_lt hlen) rfl
        rw [doReplLoop_tries hlast hblock hshift hfront hfound]
        cases found with
        | none =>
          have hsize : toSize (pos + 1) = pos + 1 :=
            toSize_eq (Nat.cast_succ _).symm (by omega)
          rw [Option.elim_none, hsize]
          have hmpos : d.m ≠ 0 := by omega
          refine ih _ _ _ (by omega) (h.skip (by omega) fun j hj => ?_)
          rw [Nat.lt_one_iff.mp hj]
          exact hrule.none _ hle (hnone rfl)
        | some p =>
          obtain ⟨i, rfl, hi⟩ := hsome p rfl
          have hplen := hi.patternAt.le hle
          have hpne := hne _ (hd.perm.mem_iff.mp (patternAt_mem hi.lt))
          have hppos := List.length_pos_of_ne_nil hpne
          have hsize : toSize (pos + (patternAt d.patterns i).pat.length) =
              pos + (patternAt d.patterns i).pat.length :=
            toSize_eq (Nat.cast_add _ _).symm (by omega)
          have hcopy : toSize (pos - nextwpos) = pos - nextwpos :=
            toSize_eq (by omega) (by omega)
          rw [Option.elim_some, hsize, hcopy, readText_eq (by omega), ok_bind]
          exact ih _ _ _ (by omega) (h.replace hrule hi hpne)
    · -- no pattern fits into the rest
      have hrest : replaceAll rule (text.drop pos) = text.drop pos := by
        refine replaceAll_of_none fun j hj => ?_
        rw [List.length_drop] at hj
        rw [List.drop_drop]
        refine hrule.none _ (by omega) fun k hk hmatch => ?_
        have hfits := hmatch.le (by omega)
        have hmp := hd.m_le _ (hd.perm.mem_iff.mp (patternAt_mem hk))
        omega
      refine ⟨nextwpos, result, ?_, by omega, ?_⟩
      · rw [doReplLoop, if_neg hlast]
      · rw [← h.whole, hrest, List.append_assoc]
        congr 1
        conv_lhs => rw [← List.take_append_drop (pos - nextwpos) (text.drop nextwpos)]
        rw [List.drop_drop, Nat.add_sub_cancel' hnext]

end PhpRuntime.Text
