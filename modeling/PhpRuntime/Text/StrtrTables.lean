import PhpRuntime.Text.Strtr
import Mathlib.Data.List.Nodup
import Mathlib.Data.List.GetD

/-!
# The tables of `strtr`

What the tables say: a shift never goes beyond a pattern, and the patterns of each suffix hash
are one stretch of the sorted array, the longer ones first.
-/

set_option autoImplicit false

namespace PhpRuntime.Text

open PhpRuntime.Lib

variable {ps : List Patnrepl} {p : Patnrepl} {B m : ℕ}

/-! ### Lists as arrays -/

theorem getD_set {α : Type} {l : List α} {i : ℕ} {x d : α} (h : i < l.length) (j : ℕ) :
    (l.set i x).getD j d = if j = i then x else l.getD j d := by
  have helems := congrFun (HeapSort.elems_set (d := d) (x := x) h) j
  rw [HeapSort.elems, Function.update_apply] at helems
  exact helems

/-! ### The minimum -/

theorem minLength_le (hp : p ∈ ps) : minLength ps ≤ p.pat.length := by
  have hall (start : ℕ) :
      let m := ps.foldl (fun m p => if p.pat.length < m then p.pat.length else m) start
      m ≤ start ∧ ∀ p ∈ ps, m ≤ p.pat.length := by
    clear hp
    induction ps generalizing start with
    | nil => exact ⟨le_rfl, fun p hp => by cases hp⟩
    | cons q ps ih =>
      obtain ⟨hstart, hps⟩ := ih (if q.pat.length < start then q.pat.length else start)
      refine ⟨le_trans hstart (by split_ifs <;> omega), fun p hp => ?_⟩
      rcases List.mem_cons.mp hp with rfl | hp
      · exact le_trans hstart (by split_ifs <;> omega)
      · exact hps p hp
  exact (hall SIZE_MAX).2 p hp

theorem minLength_pos (h : ∀ p ∈ ps, p.pat ≠ []) : 0 < minLength ps := by
  have hall (start : ℕ) (hstart : 0 < start) :
      0 < ps.foldl (fun m p => if p.pat.length < m then p.pat.length else m) start := by
    induction ps generalizing start with
    | nil => exact hstart
    | cons q ps ih =>
      have hq : 0 < q.pat.length := List.length_pos_of_ne_nil (h q List.mem_cons_self)
      refine ih (fun p hp => h p (List.mem_cons_of_mem _ hp)) _ ?_
      dsimp only
      split_ifs
      · exact hq
      · exact hstart
  exact hall SIZE_MAX (by rw [SIZE_MAX]; omega)

/-! ### The shifts -/

theorem shiftIndex_lt (B : ℕ) (p : Patnrepl) (j : ℕ) : shiftIndex B p j < shiftTabSize := by
  rw [shiftIndex, UInt16.toNat_and, shiftTabSize]
  exact Nat.lt_succ_of_le Nat.and_le_right

def Lowered (t t' : List ℕ) : Prop :=
  t'.length = t.length ∧ ∀ x, t'.getD x 0 ≤ t.getD x 0

theorem Lowered.trans {t t' t'' : List ℕ} (h : Lowered t t') (h' : Lowered t' t'') :
    Lowered t t'' :=
  ⟨h'.1.trans h.1, fun x => le_trans (h'.2 x) (h.2 x)⟩

theorem lowered_blocks (index value : ℕ → ℕ) (js : List ℕ) (t : List ℕ)
    (hindex : ∀ j, index j < t.length) :
    let t' := js.foldl (fun t j => t.set (index j) (min (t.getD (index j) 0) (value j))) t
    Lowered t t' ∧ ∀ j ∈ js, t'.getD (index j) 0 ≤ value j := by
  induction js generalizing t with
  | nil => exact ⟨⟨rfl, fun x => le_rfl⟩, fun j hj => by cases hj⟩
  | cons j js ih =>
    have hstep : Lowered t (t.set (index j) (min (t.getD (index j) 0) (value j))) := by
      refine ⟨List.length_set, fun x => ?_⟩
      rw [getD_set (hindex j)]
      split_ifs with hx
      · rw [hx]
        exact min_le_left _ _
      · exact le_rfl
    obtain ⟨hlow, hall⟩ := ih (t.set (index j) (min (t.getD (index j) 0) (value j)))
      fun i => by
        rw [List.length_set]
        exact hindex i
    refine ⟨hstep.trans hlow, fun i hi => ?_⟩
    rcases List.mem_cons.mp hi with rfl | hi
    · refine le_trans (hlow.2 _) ?_
      rw [getD_set (hindex i), if_pos rfl]
      exact min_le_right _ _
    · exact hall i hi

/-- **The shifts are safe**: a block of a pattern allows no shift beyond the window in which it is
in its place, and no shift is longer than the window. -/
theorem populateShift_spec (ps : List Patnrepl) (B m : ℕ) :
    (∀ x < shiftTabSize, (populateShift ps B m).getD x 0 ≤ m - B + 1) ∧
      ∀ p ∈ ps, ∀ j ≤ m - B, (populateShift ps B m).getD (shiftIndex B p j) 0 ≤ m - j - B := by
  have hall (t : List ℕ) (ht : t.length = shiftTabSize) :
      let t' := ps.foldl (fun shift p =>
        (List.range (m - B + 1)).foldl (fun shift j =>
          shift.set (shiftIndex B p j) (min (shift.getD (shiftIndex B p j) 0) (m - j - B))) shift) t
      Lowered t t' ∧ ∀ p ∈ ps, ∀ j ≤ m - B, t'.getD (shiftIndex B p j) 0 ≤ m - j - B := by
    induction ps generalizing t with
    | nil => exact ⟨⟨rfl, fun x => le_rfl⟩, fun p hp => by cases hp⟩
    | cons q ps ih =>
      have hq := lowered_blocks (shiftIndex B q) (fun j => m - j - B) (List.range (m - B + 1)) t
        fun j => by
          rw [ht]
          exact shiftIndex_lt B q j
      obtain ⟨hlow, hps⟩ := ih _ (hq.1.1.trans ht)
      refine ⟨hq.1.trans hlow, fun p hp j hj => ?_⟩
      rcases List.mem_cons.mp hp with rfl | hp
      · exact le_trans (hlow.2 _) (hq.2 j (List.mem_range.mpr (Nat.lt_succ_of_le hj)))
      · exact hps p hp j hj
  obtain ⟨hlow, hps⟩ := hall (List.replicate shiftTabSize (m - B + 1)) List.length_replicate
  refine ⟨fun x hx => ?_, hps⟩
  refine le_trans (hlow.2 x) (le_of_eq ?_)
  rw [List.getD_eq_getElem _ _ (by rwa [List.length_replicate]), List.getElem_replicate]

/-! ### The sorted patterns -/

def suffixIndex (B m : ℕ) (p : Patnrepl) : ℕ := (suffixHash B m p).toNat

theorem suffixIndex_lt (B m : ℕ) (p : Patnrepl) : suffixIndex B m p < hashTabSize := by
  rw [suffixIndex, suffixHash, UInt16.toNat_and, hashTabSize]
  exact Nat.lt_succ_of_le Nat.and_le_right

theorem compareHashSuffix_pos (B m : ℕ) (a b : Patnrepl) :
    0 < compareHashSuffix B m a b ↔
      suffixIndex B m b < suffixIndex B m a ∨
        suffixIndex B m a = suffixIndex B m b ∧ a.pat.length < b.pat.length := by
  have hlt (a b : Patnrepl) : suffixHash B m a < suffixHash B m b ↔
      suffixIndex B m a < suffixIndex B m b := UInt16.lt_iff_toNat_lt
  rw [compareHashSuffix]
  simp only [hlt]
  split_ifs <;> omega

theorem isOrder_compareHashSuffix (B m : ℕ) :
    HeapSort.IsOrder fun a b => decide (0 < compareHashSuffix B m a b) := by
  constructor
  · intro a b c hab hbc
    rw [decide_eq_false_iff_not, compareHashSuffix_pos] at hab hbc ⊢
    omega
  · intro a b hab
    rw [decide_eq_true_iff, compareHashSuffix_pos] at hab
    rw [decide_eq_false_iff_not, compareHashSuffix_pos]
    omega

def patternAt (sorted : List Patnrepl) (i : ℕ) : Patnrepl := sorted.getD i ⟨[], []⟩

/-- In order of the suffix hash, and with the same hash the longer pattern first. -/
structure Sorted (B m : ℕ) (sorted : List Patnrepl) : Prop where
  hash : ∀ i j, i < j → j < sorted.length →
    suffixIndex B m (patternAt sorted i) ≤ suffixIndex B m (patternAt sorted j)
  long : ∀ i j, i < j → j < sorted.length →
    suffixIndex B m (patternAt sorted i) = suffixIndex B m (patternAt sorted j) →
      (patternAt sorted j).pat.length ≤ (patternAt sorted i).pat.length

theorem strtrHeapsort_spec (B m : ℕ) (ps : List Patnrepl) :
    Sorted B m (strtrHeapsort B m ps) ∧ (strtrHeapsort B m ps).Perm ps := by
  obtain ⟨hsorted, hperm⟩ :=
    HeapSort.heapsort_spec (isOrder_compareHashSuffix B m) (⟨[], []⟩ : Patnrepl) ps
  have hle (i j : ℕ) (hij : i < j) (hj : j < (strtrHeapsort B m ps).length) :
      ¬ (suffixIndex B m (patternAt (strtrHeapsort B m ps) j) <
            suffixIndex B m (patternAt (strtrHeapsort B m ps) i) ∨
          suffixIndex B m (patternAt (strtrHeapsort B m ps) i) =
              suffixIndex B m (patternAt (strtrHeapsort B m ps) j) ∧
            (patternAt (strtrHeapsort B m ps) i).pat.length <
              (patternAt (strtrHeapsort B m ps) j).pat.length) := by
    have hgt := hsorted i j hij (by rwa [← hperm.length_eq])
    rw [decide_eq_false_iff_not, compareHashSuffix_pos] at hgt
    exact hgt
  refine ⟨⟨fun i j hij hj => ?_, fun i j hij hj heq => ?_⟩, hperm⟩
  · have h := hle i j hij hj
    omega
  · have h := hle i j hij hj
    omega

/-! ### The table of the patterns -/

variable {sorted : List Patnrepl} {entries : List ℤ}

/-- The entry of `h` is the first of the indices below `i` with this hash, or -1. -/
def FirstAt (B m : ℕ) (sorted : List Patnrepl) (i : ℕ) (x : ℤ) (h : ℕ) : Prop :=
  (∃ j : ℕ, j < i ∧ suffixIndex B m (patternAt sorted j) = h ∧ x = j ∧
      ∀ k < j, suffixIndex B m (patternAt sorted k) < h) ∨
    x = -1 ∧ ∀ j < i, suffixIndex B m (patternAt sorted j) ≠ h

/-- The entry of `h` divides the patterns with a smaller hash from the others. -/
def Divides (B m : ℕ) (sorted : List Patnrepl) (x : ℤ) (h : ℕ) : Prop :=
  ∃ r : ℕ, x = r ∧ r ≤ sorted.length ∧
    ∀ j < sorted.length, suffixIndex B m (patternAt sorted j) < h ↔ j < r

theorem FirstAt.succ {i : ℕ} {x : ℤ} {h : ℕ} (hx : FirstAt B m sorted i x h)
    (hi : suffixIndex B m (patternAt sorted i) = h →
      ∃ j < i, suffixIndex B m (patternAt sorted j) = h) :
    FirstAt B m sorted (i + 1) x h := by
  rcases hx with ⟨j, hj, hjh, hxj, hbefore⟩ | ⟨hx, hnone⟩
  · exact Or.inl ⟨j, Nat.lt_succ_of_lt hj, hjh, hxj, hbefore⟩
  · refine Or.inr ⟨hx, fun j hj hjh => ?_⟩
    rcases Nat.lt_succ_iff_lt_or_eq.mp hj with hlt | rfl
    · exact hnone j hlt hjh
    · obtain ⟨k, hk, hkh⟩ := hi hjh
      exact hnone k hk hkh

theorem firstEntries_spec (hs : Sorted B m sorted) (rest : List Patnrepl) (i : ℕ) (lastH : UInt16)
    (entries : List ℤ) (hi : i ≤ sorted.length) (hrest : sorted.drop i = rest) (hlen : hashTabSize < entries.length)
    (hlast : i = 0 ∧ lastH = 65535 ∨
      0 < i ∧ lastH = suffixHash B m (patternAt sorted (i - 1)))
    (hfirst : ∀ h < hashTabSize, FirstAt B m sorted i (entries.getD h 0) h) :
    (firstEntries B m rest i lastH entries).length = entries.length ∧
      ∀ h < hashTabSize, FirstAt B m sorted sorted.length
        ((firstEntries B m rest i lastH entries).getD h 0) h := by
  induction rest generalizing i lastH entries with
  | nil =>
    have hend : i = sorted.length := le_antisymm hi (List.drop_eq_nil_iff.mp hrest)
    rw [hend] at hfirst
    exact ⟨rfl, hfirst⟩
  | cons p rest ih =>
    have hin : i < sorted.length := by
      have hlength := congrArg List.length hrest
      rw [List.length_drop, List.length_cons] at hlength
      omega
    have hp : p = patternAt sorted i := by
      rw [List.drop_eq_getElem_cons hin, List.cons.injEq] at hrest
      rw [patternAt, List.getD_eq_getElem _ _ hin]
      exact hrest.1.symm
    have hdrop : sorted.drop (i + 1) = rest := by
      rw [List.drop_eq_getElem_cons hin, List.cons.injEq] at hrest
      exact hrest.2
    have hprev : i + 1 - 1 = i := rfl
    have hindex := suffixIndex_lt B m p
    rw [firstEntries]
    by_cases hne : suffixHash B m p ≠ lastH
    · -- the first pattern with this hash
      have hbefore : ∀ k < i, suffixIndex B m (patternAt sorted k) < suffixIndex B m p := by
        intro k hk
        rcases hlast with ⟨rfl, -⟩ | ⟨hpos, hlast⟩
        · exact absurd hk (Nat.not_lt_zero k)
        · have hle := hs.hash (i - 1) i (by omega) hin
          have hne' : suffixIndex B m (patternAt sorted (i - 1)) ≠ suffixIndex B m p := by
            intro heq
            exact hne ((UInt16.toNat_inj.mp heq).symm.trans hlast.symm)
          rw [← hp] at hle
          rcases Nat.lt_or_eq_of_le (Nat.le_sub_one_of_lt hk) with hlt | rfl
          · have hk' := hs.hash k (i - 1) hlt (by omega)
            omega
          · omega
      have hset (h : ℕ) := getD_set (x := (i : ℤ)) (d := 0)
        (show suffixIndex B m p < entries.length by omega) h
      rw [if_pos hne]
      have hrec := ih (i + 1) (suffixHash B m p) (entries.set (suffixIndex B m p) i) hin
        hdrop (by rwa [List.length_set]) (Or.inr ⟨Nat.succ_pos _, by rw [hprev, ← hp]⟩) ?_
      · rw [List.length_set] at hrec
        exact hrec
      · intro h hh
        rw [hset]
        by_cases heq : h = suffixIndex B m p
        · rw [if_pos heq]
          exact Or.inl ⟨i, Nat.lt_succ_self i, by rw [← hp, heq], rfl, by rwa [heq]⟩
        · rw [if_neg heq]
          exact (hfirst h hh).succ fun hih => absurd (by rw [← hih, ← hp]) heq
    · have heq : suffixHash B m p = lastH := not_not.mp hne
      rw [if_neg hne]
      have hbig : lastH ≠ 65535 := by
        intro h65535
        rw [suffixIndex, heq, h65535, hashTabSize] at hindex
        exact absurd hindex (by decide)
      have hpos : 0 < i ∧ lastH = suffixHash B m (patternAt sorted (i - 1)) :=
        hlast.resolve_left fun h => hbig h.2
      refine ih (i + 1) lastH entries hin hdrop hlen (Or.inr ⟨Nat.succ_pos _, ?_⟩) fun h hh => ?_
      · rw [hprev, ← hp, heq]
      · refine (hfirst h hh).succ fun hih => ⟨i - 1, by omega, ?_⟩
        rw [← hih, suffixIndex, suffixIndex, ← hp, heq, hpos.2]

theorem FirstAt.divides (hs : Sorted B m sorted) {x : ℤ} {h : ℕ}
    (hx : FirstAt B m sorted sorted.length x h) (hne : x ≠ -1) : Divides B m sorted x h := by
  rcases hx with ⟨j, hj, hjh, hxj, hbefore⟩ | ⟨hx, -⟩
  · refine ⟨j, hxj, le_of_lt hj, fun k hk => ⟨fun hlt => ?_, hbefore k⟩⟩
    by_contra hjk
    rcases Nat.lt_or_eq_of_le (not_lt.mp hjk) with hjk | rfl
    · have hle := hs.hash j k hjk hk
      omega
    · omega
  · exact absurd hx hne

theorem fillEntries_spec (hs : Sorted B m sorted) (i : ℕ) (hi : i ≤ hashTabSize)
    (hlen : hashTabSize < entries.length)
    (hdiv : ∀ h, i ≤ h → h ≤ hashTabSize → Divides B m sorted (entries.getD h 0) h)
    (hfirst : ∀ h < i, FirstAt B m sorted sorted.length (entries.getD h 0) h) :
    ∀ h ≤ hashTabSize, Divides B m sorted ((fillEntries i entries).getD h 0) h := by
  induction i generalizing entries with
  | zero => exact fun h hh => hdiv h (Nat.zero_le _) hh
  | succ i ih =>
    have hset (h : ℕ) := getD_set (x := entries.getD (i + 1) 0) (d := 0)
      (show i < entries.length by omega) h
    rw [fillEntries]
    by_cases hminus : entries.getD i 0 = -1
    · -- no pattern has this hash, and the next entry will do
      have hnone : ∀ j < sorted.length, suffixIndex B m (patternAt sorted j) ≠ i := by
        rcases hfirst i (Nat.lt_succ_self i) with ⟨j, -, -, hx, -⟩ | ⟨-, hnone⟩
        · rw [hminus] at hx
          omega
        · exact hnone
      obtain ⟨r, hr, hle, hiff⟩ := hdiv (i + 1) le_rfl hi
      rw [if_pos hminus]
      refine ih (by omega) (by rwa [List.length_set]) (fun h hih hh => ?_) fun h hh => ?_
      · rw [hset]
        by_cases heq : h = i
        · rw [if_pos heq, heq]
          refine ⟨r, hr, hle, fun j hj => ?_⟩
          rw [← hiff j hj]
          have hne := hnone j hj
          omega
        · rw [if_neg heq]
          exact hdiv h (by omega) hh
      · rw [hset, if_neg (by omega)]
        exact hfirst h (Nat.lt_succ_of_lt hh)
    · rw [if_neg hminus]
      refine ih (by omega) hlen (fun h hih hh => ?_) fun h hh => hfirst h (Nat.lt_succ_of_lt hh)
      rcases Nat.lt_or_eq_of_le hih with hlt | rfl
      · exact hdiv h hlt hh
      · exact (hfirst i (Nat.lt_succ_self i)).divides hs hminus

/-! ### What is prepared -/

/-- What the tables say about the patterns. -/
structure Prepared (ps : List Patnrepl) (d : Ppres) : Prop where
  m_pos : 0 < d.m
  m_le : ∀ p ∈ ps, d.m ≤ p.pat.length
  B_pos : 0 < d.B
  B_le : d.B ≤ d.m
  Bp_le : d.Bp ≤ d.m
  shift_le : ∀ x < shiftTabSize, d.shift.getD x 0 ≤ d.m - d.B + 1
  shift_safe : ∀ p ∈ ps, ∀ j ≤ d.m - d.B, d.shift.getD (shiftIndex d.B p j) 0 ≤ d.m - j - d.B
  sorted : Sorted d.B d.m d.patterns
  perm : d.patterns.Perm ps
  hash : ∀ h ≤ hashTabSize, Divides d.B d.m d.patterns (d.hash.getD h 0) h
  prefixHash : ∀ i < d.patterns.length,
    d.prefixHash.getD i 0 = strtrHash ((patternAt d.patterns i).pat.take d.Bp)

/-- **The preparation.** -/
theorem prepared_strtrArrayPrepare (h : ∀ p ∈ ps, p.pat ≠ []) {B Bp : ℕ} (hB : 0 < B) :
    Prepared ps (strtrArrayPrepare ps B Bp) := by
  have hpos := minLength_pos h
  obtain ⟨hle, hsafe⟩ := populateShift_spec ps (min B (minLength ps)) (minLength ps)
  obtain ⟨hsorted, hperm⟩ := strtrHeapsort_spec (min B (minLength ps)) (minLength ps) ps
  refine ⟨hpos, fun p hp => minLength_le hp, lt_min hB hpos, min_le_right _ _, min_le_right _ _,
    hle, hsafe, hsorted, hperm, ?_, fun i hi => ?_⟩
  · have hlen : hashTabSize < (List.replicate (hashTabSize + 1) (-1 : ℤ)).length := by
      rw [List.length_replicate]
      exact Nat.lt_succ_self _
    obtain ⟨hlength, hfirst⟩ := firstEntries_spec hsorted _ 0 65535 _ (Nat.zero_le _) List.drop_zero
      hlen
      (Or.inl ⟨rfl, rfl⟩) fun h hh => Or.inr ⟨by
        rw [List.getD_eq_getElem _ _ (lt_trans hh hlen), List.getElem_replicate],
        fun j hj => absurd hj (Nat.not_lt_zero j)⟩
    have hin : hashTabSize < (firstEntries (min B (minLength ps)) (minLength ps)
        (strtrHeapsort (min B (minLength ps)) (minLength ps) ps) 0 65535
        (List.replicate (hashTabSize + 1) (-1))).length := by
      rw [hlength]
      exact hlen
    have hset (h : ℕ) := getD_set (x := (ps.length : ℤ)) (d := 0) hin h
    refine fillEntries_spec hsorted hashTabSize le_rfl ?_ (fun h hlow hhigh => ?_) fun h hh => ?_
    · rwa [List.length_set]
    · rw [hset, if_pos (le_antisymm hhigh hlow), le_antisymm hhigh hlow]
      refine ⟨ps.length, rfl, le_of_eq hperm.length_eq.symm, fun j hj => ?_⟩
      rw [hperm.length_eq] at hj
      exact iff_of_true (suffixIndex_lt _ _ _) hj
    · rw [hset, if_neg (ne_of_lt hh)]
      exact hfirst h hh
  · change (List.map _ _).getD i 0 = _
    rw [List.getD_eq_getElem _ _ (by rwa [List.length_map]), List.getElem_map, patternAt,
      List.getD_eq_getElem _ _ hi]
    rfl

end PhpRuntime.Text
