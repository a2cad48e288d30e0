import PhpRuntime.Text.StrReplace
import PhpRuntime.Lib.Replacement
import Mathlib.Data.List.GetD

/-!
# `php_str_to_str_ex` is the naive replacement

The search finds the leftmost occurrence, and so each pass of the function goes through the
replacements of the haystack from the left. Its buffer is the size of the result, and its
integers are right as long as the result and the counter keep within the `int`.
-/

set_option autoImplicit false

namespace PhpRuntime.Text

open PhpRuntime.Lib (ok_bind error_bind)
open PhpRuntime.Lib.Replacement

/-! ### The search -/

/-- `r` is the first place from `p` on that has a property, if there is one. -/
def Leftmost (P : ℕ → Prop) (p : ℕ) : Option ℕ → Prop
  | some r => p ≤ r ∧ P r ∧ ∀ j, p ≤ j → j < r → ¬ P j
  | none => ∀ j, p ≤ j → ¬ P j

theorem Leftmost.skip {P : ℕ → Prop} {p q : ℕ} {r : Option ℕ} (h : Leftmost P q r) (hpq : p ≤ q)
    (hskip : ∀ j, p ≤ j → j < q → ¬ P j) : Leftmost P p r := by
  have hall (j : ℕ) (hj : p ≤ j) (hq : q ≤ j → ¬ P j) : ¬ P j := by
    rcases lt_or_ge j q with hlt | hge
    · exact hskip j hj hlt
    · exact hq hge
  cases r with
  | none => exact fun j hj => hall j hj fun hq => h j hq
  | some r =>
    exact ⟨le_trans hpq h.1, h.2.1, fun j hj hlt => hall j hj fun hq => h.2.2 j hq hlt⟩

variable {haystack needle s : List UInt8}

theorem memchr_leftmost (s : List UInt8) (c : UInt8) (n : ℕ) :
    Leftmost (fun j => j < n ∧ s[j]? = some c) 0 (memchr s c n) := by
  cases h : memchr s c n with
  | none =>
    rintro j - ⟨hj, heq⟩
    rw [memchr, List.findIdx?_eq_none_iff] at h
    have hmem : c ∈ s.take n := by
      rw [List.mem_iff_getElem?]
      exact ⟨j, by rw [List.getElem?_take_of_lt hj, heq]⟩
    simpa using h c hmem
  | some i =>
    rw [memchr, List.findIdx?_eq_some_iff_getElem] at h
    obtain ⟨hi, heq, hbefore⟩ := h
    have hin : i < n ∧ i < s.length := by
      rw [List.length_take] at hi
      omega
    refine ⟨Nat.zero_le _, ⟨hin.1, ?_⟩, ?_⟩
    · rw [List.getElem?_eq_getElem hin.2]
      rw [List.getElem_take] at heq
      exact congrArg some (beq_iff_eq.mp heq)
    · rintro j - hlt ⟨-, hj⟩
      have hne := hbefore j hlt
      rw [List.getElem_take] at hne
      rw [List.getElem?_eq_getElem (by omega), Option.some.injEq] at hj
      exact hne (beq_iff_eq.mpr hj)

theorem head_of_prefix (hne : needle ≠ []) (h : needle <+: s) : s[0]? = some (needle.headD 0) := by
  obtain ⟨t, rfl⟩ := h
  cases needle with
  | nil => exact absurd rfl hne
  | cons c needle => rfl

theorem tests_iff (hne : needle ≠ []) (hlen : needle.length ≤ s.length) :
    needle.getD (needle.length - 1) 0 = s.getD (needle.length - 1) 0 ∧
        needle.take (needle.length - 1) = s.take (needle.length - 1) ↔
      needle <+: s := by
  have hpos : 0 < needle.length := List.length_pos_of_ne_nil hne
  have hsplit (t : List UInt8) (ht : needle.length ≤ t.length) :
      t.take needle.length = t.take (needle.length - 1) ++ [t.getD (needle.length - 1) 0] := by
    have hlast : needle.length - 1 < t.length := by omega
    have hsucc : needle.length = needle.length - 1 + 1 := by omega
    conv => lhs; rw [hsucc]
    rw [List.take_succ_eq_append_getElem hlast, List.getD_eq_getElem _ _ hlast]
  rw [List.prefix_iff_eq_take, hsplit s hlen]
  have hneedle := hsplit needle le_rfl
  rw [List.take_length] at hneedle
  constructor
  · rintro ⟨hlast, htake⟩
    rw [← hlast, ← htake]
    exact hneedle
  · intro heq
    have hparts := List.append_inj' (hneedle.symm.trans heq) rfl
    exact ⟨(List.cons.inj hparts.2).1, hparts.1⟩

theorem memnstrLoop_leftmost (hne : needle ≠ []) (hlen : needle.length ≤ haystack.length)
    (n p : ℕ) (hn : haystack.length < p + n + needle.length) :
    Leftmost (fun j => needle <+: haystack.drop j) p
      (memnstrLoop haystack needle (haystack.length - needle.length) n p) := by
  have hpos : 0 < needle.length := List.length_pos_of_ne_nil hne
  have htoo (j : ℕ) (hj : haystack.length - needle.length < j) :
      ¬ needle <+: haystack.drop j := by
    intro hpre
    have hle := hpre.length_le
    rw [List.length_drop] at hle
    omega
  induction n generalizing p with
  | zero => exact fun j hj => htoo j (by omega)
  | succ n ih =>
    rw [memnstrLoop]
    by_cases hp : p ≤ haystack.length - needle.length
    · have hfound := memchr_leftmost (haystack.drop p) (needle.headD 0)
        (haystack.length - needle.length - p + 1)
      have hstart (j : ℕ) (hpj : p ≤ j) (hj : j ≤ haystack.length - needle.length)
          (hpre : needle <+: haystack.drop j) :
          j - p < haystack.length - needle.length - p + 1 ∧
            (haystack.drop p)[j - p]? = some (needle.headD 0) := by
        have hhead := head_of_prefix hne hpre
        rw [List.getElem?_drop] at hhead ⊢
        rw [show p + (j - p) = j + 0 by omega]
        exact ⟨by omega, hhead⟩
      rw [if_pos hp]
      cases hm : memchr (haystack.drop p) (needle.headD 0)
          (haystack.length - needle.length - p + 1) with
      | none =>
        rw [hm] at hfound
        intro j hj hpre
        rcases le_or_gt j (haystack.length - needle.length) with hle | hgt
        · exact hfound (j - p) (Nat.zero_le _) (hstart j hj hle hpre)
        · exact htoo j hgt hpre
      | some i =>
        rw [hm] at hfound
        obtain ⟨-, ⟨hi, -⟩, hbefore⟩ := hfound
        have hskip (j : ℕ) (hj : p ≤ j) (hlt : j < p + i) : ¬ needle <+: haystack.drop j :=
          fun hpre => hbefore (j - p) (Nat.zero_le _) (by omega) (hstart j hj (by omega) hpre)
        have htests := tests_iff (s := haystack.drop (p + i)) hne
          (by rw [List.length_drop]; omega)
        have hlast : (haystack.drop (p + i)).getD (needle.length - 1) 0 =
            haystack.getD (p + i + (needle.length - 1)) 0 := by
          rw [List.getD_eq_getElem?_getD, List.getElem?_drop, ← List.getD_eq_getElem?_getD]
        rw [hlast] at htests
        dsimp only
        by_cases hpre : needle <+: haystack.drop (p + i)
        · rw [if_pos (htests.mpr hpre)]
          exact ⟨Nat.le_add_right _ _, hpre, hskip⟩
        · rw [if_neg (mt htests.mp hpre)]
          refine (ih (p + i + 1) (by omega)).skip (by omega) fun j hj hlt => ?_
          rcases Nat.lt_succ_iff_lt_or_eq.mp hlt with hlt | rfl
          · exact hskip j hj hlt
          · exact hpre
    · rw [if_neg hp]
      exact fun j hj => htoo j (by omega)

/-- **The search finds the leftmost occurrence.** -/
theorem memnstr_leftmost (haystack : List UInt8) (hne : needle ≠ []) :
    Leftmost (fun j => needle <+: haystack.drop j) 0 (memnstr haystack needle) := by
  rw [memnstr]
  by_cases hone : needle.length = 1
  · rw [if_pos hone]
    obtain ⟨c, rfl⟩ := List.length_eq_one_iff.mp hone
    have hiff (j : ℕ) : [c] <+: haystack.drop j ↔ j < haystack.length ∧ haystack[j]? = some c := by
      constructor
      · intro hpre
        have hhead := head_of_prefix hne hpre
        rw [List.getElem?_drop, Nat.add_zero] at hhead
        exact ⟨(List.getElem?_eq_some_iff.mp hhead).1, hhead⟩
      · rintro ⟨hj, heq⟩
        rw [List.getElem?_eq_getElem hj, Option.some.injEq] at heq
        rw [List.drop_eq_getElem_cons hj, heq, List.cons_prefix_cons]
        exact ⟨rfl, List.nil_prefix⟩
    simp only [hiff]
    exact memchr_leftmost haystack c haystack.length
  · rw [if_neg hone]
    by_cases hlen : haystack.length < needle.length
    · rw [if_pos hlen]
      intro j _ hpre
      have hle := hpre.length_le
      rw [List.length_drop] at hle
      omega
    · rw [if_neg hlen]
      exact memnstrLoop_leftmost hne (not_lt.mp hlen) _ _ (by
        omega)

/-! ### A pass over the matches -/

/-- The outcome of a pass: it ends as `P` says, or it runs into something when `bad` holds. -/
def Ends {α : Type} (bad : Prop) (P : α → Prop) (r : Except Undefined α) : Prop :=
  (∃ a, r = .ok a ∧ P a) ∨ (bad ∧ ∃ e, r = .error e)

theorem Ends.bind {α β : Type} {bad : Prop} {P : α → Prop} {Q : β → Prop}
    {r : Except Undefined α} {k : α → Except Undefined β} (h : Ends bad P r)
    (hk : ∀ a, P a → Ends bad Q (k a)) : Ends bad Q (r >>= k) := by
  rcases h with ⟨a, rfl, ha⟩ | ⟨hbad, e, rfl⟩
  · exact hk a ha
  · exact Or.inr ⟨hbad, e, rfl⟩

theorem ends_ok {α : Type} {bad : Prop} {P : α → Prop} {a : α} (h : P a) :
    Ends bad P (.ok a) :=
  Or.inl ⟨a, rfl, h⟩

theorem Ends.exists_iff {α : Type} {Q : Prop} {R : α → Prop} {r : Except Undefined α}
    (h : Ends (¬ Q) (fun a => R a ∧ Q) r) : (∃ a, r = .ok a ∧ R a) ↔ Q := by
  rcases h with ⟨a, rfl, ha, hq⟩ | ⟨hq, e, rfl⟩
  · exact iff_of_true ⟨a, rfl, ha⟩ hq
  · refine iff_of_false ?_ hq
    rintro ⟨a, ha, -⟩
    cases ha

/-- The needle, folded, is at a place of the haystack. -/
def MatchAt (fold : UInt8 → UInt8) (haystack needle : List UInt8) (j : ℕ) : Prop :=
  needle.map fold <+: (haystack.drop j).map fold

variable {fold : UInt8 → UInt8}

theorem MatchAt.le {j : ℕ} (h : MatchAt fold haystack needle j) (hne : needle ≠ []) :
    j + needle.length ≤ haystack.length := by
  have hpos : 0 < needle.length := List.length_pos_of_ne_nil hne
  have hle := List.IsPrefix.length_le h
  rw [List.length_map, List.length_map, List.length_drop] at hle
  omega

theorem ends_forEachMatch {σ : Type} (fold : UInt8 → UInt8) (haystack : List UInt8)
    {search : σ → List UInt8} {body : ℕ → ℕ → σ → Except Undefined σ} (bad : Prop)
    (P : ℕ → σ → Prop) (hne : needle ≠ [])
    (hsearch : ∀ p s, P p s → (search s).drop p = (haystack.drop p).map fold)
    (hbody : ∀ p r s, P p s → p ≤ r → MatchAt fold haystack needle r →
      (∀ j, p ≤ j → j < r → ¬ MatchAt fold haystack needle j) →
      Ends bad (P (r + needle.length)) (body p r s))
    (n p : ℕ) (s : σ) (hn : haystack.length < p + n) (hp : p ≤ haystack.length) (hP : P p s) :
    Ends bad (fun q => q.1 ≤ haystack.length ∧ P q.1 q.2 ∧
        ∀ j, q.1 ≤ j → ¬ MatchAt fold haystack needle j)
      (forEachMatch search (needle.map fold) body n p s) := by
  have hpos : 0 < needle.length := List.length_pos_of_ne_nil hne
  have hne' : needle.map fold ≠ [] := fun h => hne (List.map_eq_nil_iff.mp h)
  induction n generalizing p s with
  | zero => omega
  | succ n ih =>
    have hfound := memnstr_leftmost ((search s).drop p) hne'
    have hat (i : ℕ) : needle.map fold <+: ((search s).drop p).drop i ↔
        MatchAt fold haystack needle (p + i) := by
      rw [hsearch p s hP, ← List.map_drop, List.drop_drop, MatchAt]
    rw [forEachMatch]
    cases hm : memnstr ((search s).drop p) (needle.map fold) with
    | none =>
      rw [hm] at hfound
      refine ends_ok ⟨hp, hP, fun j hj hmatch => ?_⟩
      refine hfound (j - p) (Nat.zero_le _) ((hat (j - p)).mpr ?_)
      rwa [Nat.add_sub_cancel' hj]
    | some i =>
      rw [hm] at hfound
      obtain ⟨-, hmatch, hbefore⟩ := hfound
      have hmatch' := (hat i).mp hmatch
      have hle := hmatch'.le hne
      refine Ends.bind (hbody p (p + i) s hP (Nat.le_add_right _ _) hmatch' ?_) fun s' hs' => ?_
      · intro j hj hlt hj'
        refine hbefore (j - p) (Nat.zero_le _) (by omega) ((hat (j - p)).mpr ?_)
        rwa [Nat.add_sub_cancel' hj]
      · rw [List.length_map]
        exact ih _ s' (by omega) hle hs'

/-! ### The passes -/

section Passes

variable {str : List UInt8} {replaceCount : Option ℤ} {p r : ℕ}

theorem replaceAll_match (str : List UInt8) (hne : needle ≠ []) (hpr : p ≤ r) (hr : MatchAt fold haystack needle r)
    (hbefore : ∀ j, p ≤ j → j < r → ¬ MatchAt fold haystack needle j) :
    replaceAll (needleRule fold needle str) (haystack.drop p) =
        (haystack.drop p).take (r - p) ++ (str ++
          replaceAll (needleRule fold needle str) (haystack.drop (r + needle.length))) ∧
      countAll (needleRule fold needle str) (haystack.drop p) =
        countAll (needleRule fold needle str) (haystack.drop (r + needle.length)) + 1 := by
  have hpos : 0 < needle.length := List.length_pos_of_ne_nil hne
  have hle := hr.le hne
  have hin : r - p < (haystack.drop p).length := by
    rw [List.length_drop]
    omega
  have hskip : ∀ j < r - p, needleRule fold needle str ((haystack.drop p).drop j) = none := by
    intro j hj
    rw [List.drop_drop]
    exact needleRule_neg (hbefore (p + j) (Nat.le_add_right _ _) (by omega))
  have hpick : needleRule fold needle str ((haystack.drop p).drop (r - p)) =
      some (needle.length, str) := by
    rw [List.drop_drop, Nat.add_sub_cancel' hpr]
    exact needleRule_pos hr
  have hrest : (haystack.drop p).drop (r - p + needle.length) =
      haystack.drop (r + needle.length) := by
    rw [List.drop_drop]
    congr 1
    omega
  have htext := replaceAll_first hin hskip hpick hpos
  have hcount := countAll_first hin hskip hpick hpos
  rw [hrest] at htext hcount
  exact ⟨htext, hcount⟩

theorem replaceAll_end (str : List UInt8) (h : ∀ j, p ≤ j → ¬ MatchAt fold haystack needle j) :
    replaceAll (needleRule fold needle str) (haystack.drop p) = haystack.drop p ∧
      countAll (needleRule fold needle str) (haystack.drop p) = 0 := by
  have hnone : ∀ j < (haystack.drop p).length,
      needleRule fold needle str ((haystack.drop p).drop j) = none := by
    intro j _
    rw [List.drop_drop]
    exact needleRule_neg (h (p + j) (Nat.le_add_right _ _))
  exact ⟨replaceAll_of_none hnone, countAll_of_none hnone⟩

/-- The counter can grow by `k`. -/
def Counts (replaceCount : Option ℤ) (k : ℕ) : Prop :=
  ∀ c, replaceCount = some c → c + k ≤ INT_MAX

/-- The counter is an `int`. -/
def IsInt (replaceCount : Option ℤ) : Prop :=
  ∀ c, replaceCount = some c → -INT_MAX - 1 ≤ c ∧ c ≤ INT_MAX

/-- `k` of the replacements are counted, and what is left from `p` on makes up all of them. -/
structure Counted (rule : List UInt8 → Option (ℕ × List UInt8)) (haystack : List UInt8)
    (replaceCount : Option ℤ) (p : ℕ) (count : Option ℤ) (k : ℕ) : Prop where
  all : k + countAll rule (haystack.drop p) = countAll rule haystack
  count : count = replaceCount.map (· + (k : ℤ))
  fits : Counts replaceCount k

theorem ends_increment {k n : ℕ} (hint : IsInt replaceCount) (hk : k < n) :
    Ends (¬ Counts replaceCount n)
      (fun count => count = replaceCount.map (· + ((k + 1 : ℕ) : ℤ)) ∧
        Counts replaceCount (k + 1))
      (increment (replaceCount.map (· + (k : ℤ)))) := by
  cases replaceCount with
  | none => exact ends_ok ⟨rfl, fun c hc => by cases hc⟩
  | some c =>
    have hc := hint c rfl
    have hsum : c + (k : ℤ) + 1 = c + ((k + 1 : ℕ) : ℤ) := by omega
    change Ends _ _ (intValue (c + (k : ℤ) + 1) >>= fun n => .ok (some n))
    rw [hsum]
    rcases le_or_gt (c + ((k + 1 : ℕ) : ℤ)) INT_MAX with hle | hgt
    · have hvalue : intValue (c + ((k + 1 : ℕ) : ℤ)) = .ok (c + ((k + 1 : ℕ) : ℤ)) := by
        rw [intValue, if_pos ⟨by omega, hle⟩]
      rw [hvalue, ok_bind]
      refine ends_ok ⟨rfl, fun c' hc' => ?_⟩
      rw [Option.some.injEq] at hc'
      rwa [← hc']
    · rw [intValue_error hgt]
      refine Or.inr ⟨fun hcounts => ?_, _, rfl⟩
      have hall := hcounts c rfl
      omega

theorem Counted.match {count : Option ℤ} {k : ℕ}
    (h : Counted (needleRule fold needle str) haystack replaceCount p count k) (hne : needle ≠ [])
    (hint : IsInt replaceCount) (hpr : p ≤ r) (hr : MatchAt fold haystack needle r)
    (hbefore : ∀ j, p ≤ j → j < r → ¬ MatchAt fold haystack needle j) :
    Ends (¬ Counts replaceCount (countAll (needleRule fold needle str) haystack))
      (fun count => Counted (needleRule fold needle str) haystack replaceCount
        (r + needle.length) count (k + 1))
      (increment count) := by
  have hall := h.all
  rw [(replaceAll_match _ hne hpr hr hbefore).2] at hall
  have hcount := ends_increment (n := countAll (needleRule fold needle str) haystack) hint
    (show k < _ by omega)
  rw [← h.count] at hcount
  rcases hcount with ⟨count', heq, hcount', hfits⟩ | hbad
  · rw [heq]
    exact ends_ok ⟨by omega, hcount', hfits⟩
  · exact Or.inr hbad

theorem Counted.start (rule : List UInt8 → Option (ℕ × List UInt8)) (haystack : List UInt8)
    (hint : IsInt replaceCount) : Counted rule haystack replaceCount 0 replaceCount 0 := by
  refine ⟨Nat.zero_add _, ?_, fun c hc => ?_⟩
  · cases replaceCount with
    | none => rfl
    | some c => exact congrArg some (add_zero c).symm
  · have hle := (hint c hc).2
    rwa [Nat.cast_zero, add_zero]

def IsReplacement (rule : List UInt8 → Option (ℕ × List UInt8)) (haystack : List UInt8)
    (replaceCount : Option ℤ) (r : Replaced) : Prop :=
  r.newStr = replaceAll rule haystack ∧ r.newLength = (replaceAll rule haystack).length ∧
    r.replaceCount = replaceCount.map (· + (countAll rule haystack : ℤ))

theorem countMatches_eq (str : List UInt8) (hne : needle ≠ []) (haystack : List UInt8) :
    countMatches (haystack.map fold) (needle.map fold) =
      .ok (countAll (needleRule fold needle str) haystack) := by
  let P (p count : ℕ) : Prop :=
    count + countAll (needleRule fold needle str) (haystack.drop p) =
      countAll (needleRule fold needle str) haystack
  have hbody (p r s : ℕ) (hP : P p s) (hpr : p ≤ r) (hmatch : MatchAt fold haystack needle r)
      (hbefore : ∀ j, p ≤ j → j < r → ¬ MatchAt fold haystack needle j) :
      Ends False (P (r + needle.length)) (.ok (s + 1)) := by
    apply ends_ok
    have hP' : s + countAll _ (haystack.drop p) = _ := hP
    rw [(replaceAll_match _ hne hpr hmatch hbefore).2] at hP'
    omega
  have hpass := ends_forEachMatch fold haystack False P hne
    (fun p s _ => (List.map_drop).symm) hbody ((haystack.map fold).length + 1) 0 0
    (by rw [List.length_map]; omega) (Nat.zero_le _) (Nat.zero_add _)
  rcases hpass with ⟨⟨p, count⟩, hpass, -, hcount, hend⟩ | ⟨hfalse, -⟩
  · change count + _ = _ at hcount
    rw [(replaceAll_end _ hend).2, Nat.add_zero] at hcount
    rw [countMatches, hpass, ok_bind]
    exact congrArg _ hcount
  · exact hfalse.elim

theorem ends_replaceInPlace (hne : needle ≠ []) (hint : IsInt replaceCount)
    (hlen : needle.length = str.length) {dup : Option (List UInt8)}
    (hdup : (dup = none ∧ fold = id) ∨ dup = some (haystack.map fold)) :
    Ends (¬ Counts replaceCount (countAll (needleRule fold needle str) haystack))
      (fun r => IsReplacement (needleRule fold needle str) haystack replaceCount r ∧
        Counts replaceCount (countAll (needleRule fold needle str) haystack))
      (replaceInPlace haystack (needle.map fold) str dup replaceCount) := by
  let rule := needleRule fold needle str
  let P (p : ℕ) (s : List UInt8 × Option ℤ) : Prop :=
    s.1.take p ++ replaceAll rule (haystack.drop p) = replaceAll rule haystack ∧
      s.1.drop p = haystack.drop p ∧ s.1.length = haystack.length ∧
      ∃ k, Counted rule haystack replaceCount p s.2 k
  refine Ends.bind (ends_forEachMatch fold haystack _ P hne ?_ ?_ (haystack.length + 1) 0 (haystack, replaceCount)
    (by omega) (Nat.zero_le _) ?_) ?_
  · rintro p s ⟨-, hdrop, -⟩
    rcases hdup with ⟨rfl, rfl⟩ | rfl
    · rw [List.map_id]
      exact hdrop
    · exact (List.map_drop).symm
  · rintro p r s ⟨htext, hdrop, hlength, k, hk⟩ hpr hmatch hbefore
    have hle := hmatch.le hne
    have htake : s.1.take r = s.1.take p ++ (haystack.drop p).take (r - p) := by
      rw [← hdrop, ← List.take_add, Nat.add_sub_cancel' hpr]
    have hroom : ¬ s.1.length < r + str.length := by omega
    rw [overwrite, if_neg hroom, ok_bind]
    refine Ends.bind (hk.match hne hint hpr hmatch hbefore) fun count hcount => ends_ok ?_
    have hfront : (s.1.take r ++ str).length = r + needle.length := by
      rw [List.length_append, List.length_take]
      omega
    refine ⟨?_, ?_, ?_, k + 1, hcount⟩
    · rw [(replaceAll_match _ hne hpr hmatch hbefore).1] at htext
      rw [← htext, List.take_left' hfront, htake]
      simp only [List.append_assoc]
      rfl
    · have hsum : r + needle.length = p + (r + needle.length - p) := by omega
      rw [List.drop_left' hfront, ← hlen, hsum, ← List.drop_drop, hdrop, List.drop_drop]
    · simp only [List.length_append, List.length_take, List.length_drop]
      omega
  · exact ⟨by rw [List.take_zero, List.drop_zero, List.nil_append], rfl, rfl, 0,
      Counted.start rule haystack hint⟩
  · rintro ⟨p, newStr, count⟩ ⟨hp, ⟨htext, hdrop, hlength, k, hk⟩, hend⟩
    have hrest : replaceAll rule (haystack.drop p) = haystack.drop p ∧
        countAll rule (haystack.drop p) = 0 := replaceAll_end _ hend
    have hall := hk.all
    rw [hrest.2, Nat.add_zero] at hall
    have hstr : newStr = replaceAll rule haystack := by
      rw [← htext, hrest.1, ← hdrop, List.take_append_drop]
    refine ends_ok ⟨⟨hstr, ?_, ?_⟩, ?_⟩
    · rw [← hstr]
      exact congrArg _ hlength.symm
    · rw [← hall]
      exact hk.count
    · rw [← hall]
      exact hk.fits

/-- The buffer of the second pass, and what is left of the haystack, make up the result. -/
structure Copied (rule : List UInt8 → Option (ℕ × List UInt8)) (haystack : List UInt8)
    (alloced : ℕ) (replaceCount : Option ℤ) (p : ℕ) (w : Output) : Prop where
  text : w.bytes ++ replaceAll rule (haystack.drop p) = replaceAll rule haystack
  alloced : w.alloced = alloced
  counted : ∃ k, Counted rule haystack replaceCount p w.replaceCount k

theorem write_eq {w : Output} {t : List UInt8} (h : w.bytes.length + t.length ≤ w.alloced) :
    w.write t = .ok { w with bytes := w.bytes ++ t } := by
  rw [Output.write, if_neg (not_lt.mpr h)]

theorem ends_copyMatches (hne : needle ≠ []) (hint : IsInt replaceCount) {alloced : ℕ}
    (hroom : (replaceAll (needleRule fold needle str) haystack).length < alloced) :
    Ends (¬ Counts replaceCount (countAll (needleRule fold needle str) haystack))
      (fun q => q.1 ≤ haystack.length ∧
        Copied (needleRule fold needle str) haystack alloced replaceCount q.1 q.2 ∧
        ∀ j, q.1 ≤ j → ¬ MatchAt fold haystack needle j)
      (copyMatches haystack (haystack.map fold) (needle.map fold) str alloced replaceCount) := by
  let rule := needleRule fold needle str
  refine ends_forEachMatch fold haystack _ (Copied rule haystack alloced replaceCount) hne
    (fun p s _ => (List.map_drop).symm) ?_ (haystack.length + 1) 0 _ (by omega) (Nat.zero_le _) ?_
  · rintro p r w ⟨htext, halloced, k, hk⟩ hpr hmatch hbefore
    rw [(replaceAll_match _ hne hpr hmatch hbefore).1] at htext
    have hlength := congrArg List.length htext
    simp only [List.length_append] at hlength
    have hroom' : (replaceAll rule haystack).length < alloced := hroom
    rw [write_eq (by omega), ok_bind, write_eq, ok_bind]
    · refine Ends.bind (hk.match hne hint hpr hmatch hbefore) fun count hcount => ends_ok ?_
      refine ⟨?_, halloced, k + 1, hcount⟩
      rw [← htext]
      simp only [List.append_assoc]
      rfl
    · simp only [List.length_append]
      omega
  · exact ⟨by rw [List.drop_zero, List.nil_append], rfl, 0, Counted.start rule haystack hint⟩

theorem finishCopy_iff {alloced : ℕ} {w : Output}
    (hw : Copied (needleRule fold needle str) haystack alloced replaceCount p w)
    (hend : ∀ j, p ≤ j → ¬ MatchAt fold haystack needle j)
    (hroom : (replaceAll (needleRule fold needle str) haystack).length < alloced) :
    (∃ r, finishCopy haystack p w = .ok r ∧
        IsReplacement (needleRule fold needle str) haystack replaceCount r) ↔
      ((replaceAll (needleRule fold needle str) haystack).length : ℤ) < INT_MAX := by
  obtain ⟨htext, halloced, k, hk⟩ := hw
  have hrest := replaceAll_end str hend
  have hall := hk.all
  have hlong : w.bytes.length + (haystack.drop p).length < w.alloced := by
    rw [← htext, hrest.1, List.length_append] at hroom
    omega
  have hcopy : copyRest haystack p w =
      .ok { w with bytes := replaceAll (needleRule fold needle str) haystack } := by
    rw [copyRest, ← htext, hrest.1]
    by_cases hlt : p < haystack.length
    · rw [if_pos hlt, write_eq (le_of_lt hlong)]
    · rw [if_neg hlt, List.drop_eq_nil_of_le (not_lt.mp hlt), List.append_nil]
  generalize hT : replaceAll (needleRule fold needle str) haystack = T at *
  have hzero : ¬ w.alloced < T.length + 1 := by omega
  rw [finishCopy, hcopy, ok_bind, if_neg hzero]
  dsimp only
  constructor
  · rintro ⟨r, hr, -, hlength, -⟩
    by_contra hbig
    rcases lt_or_eq_of_le (not_lt.mp hbig) with hlt | heq
    · have hle := toInt_le T.length
      have hr' : r.newLength = toInt T.length := by
        cases hsize : intValue (toInt T.length + 1) with
        | error e =>
          rw [hsize] at hr
          cases hr
        | ok size =>
          rw [hsize, ok_bind] at hr
          by_cases hneg : size < 0
          · rw [if_pos hneg] at hr
            cases hr
          · rw [if_neg hneg] at hr
            rw [← Except.ok.inj hr]
      rw [hr', hT] at hlength
      rw [hlength] at hle
      exact absurd hle (not_le.mpr hlt)
    · rw [toInt_eq (Int.natCast_nonneg _) (le_of_eq heq.symm), intValue_error (by omega),
        error_bind] at hr
      cases hr
  · intro hint
    rw [toInt_eq (Int.natCast_nonneg _) (le_of_lt hint), intValue_eq (by omega) (by omega),
      ok_bind, if_neg (by omega)]
    refine ⟨_, rfl, ?_, ?_, ?_⟩
    · rw [hT]
      exact List.take_length
    · rw [hT]
    · rw [hrest.2, Nat.add_zero] at hall
      rw [← hall]
      exact hk.count

theorem replaceCopy_iff (fold : UInt8 → UInt8) (haystack str : List UInt8) (alloced : ℕ)
    (hne : needle ≠ []) (hint : IsInt replaceCount)
    (hroom : (replaceAll (needleRule fold needle str) haystack).length < alloced) :
    (∃ r, replaceCopy haystack (haystack.map fold) (needle.map fold) str alloced replaceCount =
          .ok r ∧ IsReplacement (needleRule fold needle str) haystack replaceCount r) ↔
      ((replaceAll (needleRule fold needle str) haystack).length : ℤ) < INT_MAX ∧
        Counts replaceCount (countAll (needleRule fold needle str) haystack) := by
  rcases ends_copyMatches hne hint hroom with ⟨⟨p, w⟩, hpass, -, hw, hend⟩ | ⟨hbad, e, hpass⟩
  · have hfinish := finishCopy_iff hw hend hroom
    obtain ⟨-, -, k, hk⟩ := hw
    have hall := hk.all
    have hfits := hk.fits
    rw [(replaceAll_end _ hend).2, Nat.add_zero] at hall
    rw [hall] at hfits
    rw [replaceCopy, hpass, ok_bind, hfinish, and_iff_left hfits]
  · rw [replaceCopy, hpass, error_bind]
    refine iff_of_false ?_ fun h => hbad h.2
    rintro ⟨r, hr, -⟩
    cases hr

end Passes

/-! ### The function -/

/-- The lengths that the function computes, and its counter, keep within the `int`. `n` is the
number of the replacements. -/
def Fits (haystack needle str : List UInt8) (replaceCount : Option ℤ) (n : ℕ) : Prop :=
  (needle.length < haystack.length → str.length < needle.length →
      (haystack.length : ℤ) < INT_MAX) ∧
    (needle.length < haystack.length → needle.length < str.length → 0 < n →
      ((haystack.length + n * (str.length - needle.length) : ℕ) : ℤ) < INT_MAX) ∧
    Counts replaceCount n

def foldOf (caseSensitivity : Bool) : UInt8 → UInt8 := if caseSensitivity then id else tolower

section Branches

variable {str : List UInt8} {replaceCount : Option ℤ}

theorem unchanged_iff {rule : List UInt8 → Option (ℕ × List UInt8)} (hint : IsInt replaceCount)
    (hnone : countAll rule haystack = 0) :
    (∃ r, (.ok ⟨haystack, haystack.length, replaceCount⟩ : Except Undefined Replaced) = .ok r ∧
        IsReplacement rule haystack replaceCount r) ↔
      Counts replaceCount (countAll rule haystack) := by
  have hstart := Counted.start rule haystack hint
  have htext := replaceAll_of_count hnone
  rw [hnone]
  refine iff_of_true ⟨_, rfl, htext.symm, ?_, ?_⟩ hstart.fits
  · rw [htext]
  · rw [hnone]
    exact hstart.count

theorem countAll_eq_zero (str : List UInt8) (h : ∀ j, ¬ MatchAt fold haystack needle j) :
    countAll (needleRule fold needle str) haystack = 0 := by
  have hend := replaceAll_end (p := 0) str fun j _ => h j
  exact hend.2

theorem whole_iff (str : List UInt8) (hne : needle ≠ []) (hint : IsInt replaceCount)
    (h : haystack.map fold = needle.map fold) :
    (∃ r, (increment replaceCount >>= fun replaceCount =>
          (.ok ⟨str, str.length, replaceCount⟩ : Except Undefined Replaced)) = .ok r ∧
        IsReplacement (needleRule fold needle str) haystack replaceCount r) ↔
      Counts replaceCount (countAll (needleRule fold needle str) haystack) := by
  have hmatch : MatchAt fold haystack needle 0 := by
    rw [MatchAt, List.drop_zero, h]
  have hlen : haystack.length = needle.length := by
    have hlength := congrArg List.length h
    rwa [List.length_map, List.length_map] at hlength
  obtain ⟨htext, hcount⟩ := replaceAll_match (p := 0) str hne le_rfl hmatch
    fun j _ hj => absurd hj (Nat.not_lt_zero j)
  rw [List.drop_zero, Nat.zero_add, ← hlen, List.drop_length] at htext hcount
  rw [replaceAll_nil, List.append_nil, Nat.sub_self, List.take_zero, List.nil_append] at htext
  rw [countAll_nil] at hcount
  have hcounted := (Counted.start (needleRule fold needle str) haystack hint).match hne hint
    le_rfl hmatch fun j _ hj => absurd hj (Nat.not_lt_zero j)
  apply Ends.exists_iff
  refine Ends.bind hcounted fun count h1 => ends_ok ⟨⟨htext.symm, ?_, ?_⟩, ?_⟩
  · rw [htext]
  · rw [hcount]
    exact h1.count
  · rw [hcount]
    exact h1.fits

theorem longer_iff (fold : UInt8 → UInt8) (haystack : List UInt8) (hne : needle ≠ [])
    (hint : IsInt replaceCount)
    (hlonger : needle.length < str.length) :
    (∃ r, (countMatches (haystack.map fold) (needle.map fold) >>= fun count =>
          if count = 0 then .ok ⟨haystack, haystack.length, replaceCount⟩
          else intValue (haystack.length + 1) >>= fun offset =>
            replaceCopy haystack (haystack.map fold) (needle.map fold) str
              (count * (str.length - needle.length) + offset.toNat) replaceCount) = .ok r ∧
        IsReplacement (needleRule fold needle str) haystack replaceCount r) ↔
      (0 < countAll (needleRule fold needle str) haystack →
        ((haystack.length + countAll (needleRule fold needle str) haystack *
          (str.length - needle.length) : ℕ) : ℤ) < INT_MAX) ∧
      Counts replaceCount (countAll (needleRule fold needle str) haystack) := by
  have hlength := length_replaceAll fold str hne haystack
  rw [countMatches_eq str hne haystack, ok_bind]
  generalize hn : countAll (needleRule fold needle str) haystack = n at *
  by_cases hzero : n = 0
  · rw [if_pos hzero, unchanged_iff hint (hn.trans hzero), hn, and_iff_right]
    exact fun hpos => absurd hzero (Nat.ne_of_gt hpos)
  · have hpos : 0 < n := Nat.pos_of_ne_zero hzero
    have hmore : n * (str.length - needle.length) = n * str.length - n * needle.length :=
      Nat.mul_sub _ _ _
    have hpos' : 0 < n * (str.length - needle.length) :=
      Nat.mul_pos hpos (Nat.sub_pos_of_lt hlonger)
    rw [if_neg hzero, forall_prop_of_true hpos]
    rcases lt_or_ge (haystack.length : ℤ) INT_MAX with hlt | hge
    · rw [intValue_eq (by omega) (by omega), ok_bind,
        replaceCopy_iff fold haystack str _ hne hint (by omega), hn]
      refine and_congr_left fun _ => ?_
      rw [show (replaceAll (needleRule fold needle str) haystack).length =
        haystack.length + n * (str.length - needle.length) by omega]
    · rw [intValue_error (by omega), error_bind]
      refine iff_of_false ?_ fun h => absurd h.1 (by omega)
      rintro ⟨r, hr, -⟩
      cases hr

theorem shorter_iff (hne : needle ≠ []) (hint : IsInt replaceCount)
    (hshorter : str.length < needle.length) :
    (∃ r, (intValue (haystack.length + 1) >>= fun alloced =>
          replaceCopy haystack (haystack.map fold) (needle.map fold) str alloced.toNat
            replaceCount) = .ok r ∧
        IsReplacement (needleRule fold needle str) haystack replaceCount r) ↔
      (haystack.length : ℤ) < INT_MAX ∧
        Counts replaceCount (countAll (needleRule fold needle str) haystack) := by
  have hlength := length_replaceAll fold str hne haystack
  have hmul : countAll (needleRule fold needle str) haystack * str.length
      ≤ countAll (needleRule fold needle str) haystack * needle.length :=
    Nat.mul_le_mul_left _ (le_of_lt hshorter)
  have hcopy := replaceCopy_iff fold haystack str ((haystack.length : ℤ) + 1).toNat hne hint
    (by omega)
  rcases lt_or_ge (haystack.length : ℤ) INT_MAX with hlt | hge
  · rw [intValue_eq (by omega) (by omega), ok_bind, hcopy, and_iff_right hlt,
      and_iff_right]
    omega
  · rw [intValue_error (by omega), error_bind]
    refine iff_of_false ?_ fun h => absurd h.1 (not_lt.mpr hge)
    rintro ⟨r, hr, -⟩
    cases hr

end Branches

theorem strToStrEx_of_lt {str : List UInt8} {caseSensitivity : Bool} {replaceCount : Option ℤ}
    (hlt : needle.length < haystack.length) :
    strToStrEx haystack needle str caseSensitivity replaceCount =
      if needle.length = str.length then
        replaceInPlace haystack (needle.map (foldOf caseSensitivity)) str
          (if caseSensitivity then none else some (strtolower haystack)) replaceCount
      else if str.length < needle.length then
        intValue (haystack.length + 1) >>= fun alloced =>
          replaceCopy haystack (haystack.map (foldOf caseSensitivity))
            (needle.map (foldOf caseSensitivity)) str alloced.toNat replaceCount
      else
        countMatches (haystack.map (foldOf caseSensitivity))
            (needle.map (foldOf caseSensitivity)) >>= fun count =>
          if count = 0 then .ok ⟨haystack, haystack.length, replaceCount⟩
          else intValue (haystack.length + 1) >>= fun offset =>
            replaceCopy haystack (haystack.map (foldOf caseSensitivity))
              (needle.map (foldOf caseSensitivity)) str
              (count * (str.length - needle.length) + offset.toNat) replaceCount := by
  have hsearch : ((if caseSensitivity = true then none else some (strtolower haystack)).getD
      haystack : List UInt8) = haystack.map (foldOf caseSensitivity) := by
    cases caseSensitivity
    · rfl
    · exact (List.map_id haystack).symm
  have hneedle : (if caseSensitivity = true then needle else strtolower needle) =
      needle.map (foldOf caseSensitivity) := by
    cases caseSensitivity
    · rfl
    · exact (List.map_id needle).symm
  rw [strToStrEx, if_pos hlt]
  dsimp only
  rw [hsearch, hneedle]

/-- **`php_str_to_str_ex` is the naive replacement** exactly when its integers do not
overflow. -/
theorem strToStrEx_replaces (haystack needle str : List UInt8) (caseSensitivity : Bool)
    (replaceCount : Option ℤ) (hne : needle ≠ []) (hint : IsInt replaceCount) :
    (∃ r, strToStrEx haystack needle str caseSensitivity replaceCount = .ok r ∧
        IsReplacement (needleRule (foldOf caseSensitivity) needle str) haystack replaceCount r) ↔
      Fits haystack needle str replaceCount
        (countAll (needleRule (foldOf caseSensitivity) needle str) haystack) := by
  rw [Fits]
  by_cases hlt : needle.length < haystack.length
  · rw [strToStrEx_of_lt hlt, forall_prop_of_true hlt, forall_prop_of_true hlt]
    by_cases heq : needle.length = str.length
    · rw [if_pos heq, and_iff_right fun h => absurd h (by omega),
        and_iff_right fun h => absurd h (by omega)]
      refine (ends_replaceInPlace hne hint heq ?_).exists_iff
      cases caseSensitivity
      · exact Or.inr rfl
      · exact Or.inl ⟨rfl, rfl⟩
    by_cases hshort : str.length < needle.length
    · rw [if_neg heq, if_pos hshort, forall_prop_of_true hshort,
        and_iff_right fun h => absurd h (by omega)]
      exact shorter_iff hne hint hshort
    · have hlonger : needle.length < str.length := by omega
      rw [if_neg heq, if_neg hshort, and_iff_right fun h => absurd h hshort,
        forall_prop_of_true hlonger]
      exact longer_iff _ _ hne hint hlonger
  rw [strToStrEx, if_neg hlt, and_iff_right fun h => absurd h hlt, and_iff_right fun h => absurd h hlt]
  have hnone (h : haystack.map (foldOf caseSensitivity) ≠ needle.map (foldOf caseSensitivity)) :
      countAll (needleRule (foldOf caseSensitivity) needle str) haystack = 0 := by
    refine countAll_eq_zero str fun j hj => h ?_
    have hle := hj.le hne
    have hzero : j = 0 := by omega
    rw [MatchAt, hzero, List.drop_zero] at hj
    exact (hj.eq_of_length (by rw [List.length_map, List.length_map]; omega)).symm
  by_cases hgt : haystack.length < needle.length
  · rw [if_pos hgt]
    refine unchanged_iff hint (hnone fun heq => ?_)
    have hlength := congrArg List.length heq
    rw [List.length_map, List.length_map] at hlength
    omega
  rw [if_neg hgt]
  by_cases heq : haystack.map (foldOf caseSensitivity) = needle.map (foldOf caseSensitivity)
  · have hwhole := whole_iff str hne hint heq
    cases caseSensitivity
    · rw [if_neg (by simp), if_neg fun h => h.2 heq]
      exact hwhole
    · have hsame : haystack = needle := by
        rwa [show foldOf true = id from rfl, List.map_id, List.map_id] at heq
      rw [if_neg fun h => h.2 hsame, if_neg (by simp)]
      exact hwhole
  · have hsame := unchanged_iff hint (hnone heq)
    cases caseSensitivity
    · rw [if_neg (by simp), if_pos ⟨rfl, heq⟩]
      exact hsame
    · have hdiff : haystack ≠ needle := fun h => heq (congrArg _ h)
      rw [if_pos ⟨rfl, hdiff⟩]
      exact hsame

theorem strToStrEx_replaces_overlapping :
    ∃ r, strToStrEx [97, 97, 97] [97, 97] [98] true (some 0) = .ok r ∧
      IsReplacement (needleRule (foldOf true) [97, 97] [98]) [97, 97, 97] (some 0) r :=
  (strToStrEx_replaces [97, 97, 97] [97, 97] [98] true (some 0) (by decide)
      (fun c hc => by cases hc; decide)).mpr
    ⟨fun _ _ => by decide, fun _ h => absurd h (by decide), fun c hc => by
      cases hc
      simp [countAll, needleRule, foldOf, INT_MAX]⟩

theorem strToStrEx_long {str : List UInt8} (hlen : str.length = 2147483646) :
    ¬ ∃ r, strToStrEx [97, 97, 98, 98] [97, 97] str true (some 0) = .ok r ∧
      IsReplacement (needleRule (foldOf true) [97, 97] str) [97, 97, 98, 98] (some 0) r := by
  have hne : [97, 97] ≠ ([] : List UInt8) := List.cons_ne_nil _ _
  have hint : IsInt (some 0) := fun c hc => by
    cases hc
    decide
  have hlonger : ([97, 97] : List UInt8).length < str.length := by
    rw [hlen]
    decide
  have hmatch : MatchAt (foldOf true) [97, 97, 98, 98] [97, 97] 0 := ⟨[98, 98], rfl⟩
  have hcount := (replaceAll_match str hne le_rfl hmatch
    fun j _ hj => absurd hj (Nat.not_lt_zero j)).2
  have hiff := longer_iff (foldOf true) [97, 97, 98, 98] hne hint hlonger
  rw [strToStrEx_of_lt (by decide), if_neg (by omega), if_neg (by omega), hiff]
  rintro ⟨hbig, -⟩
  rw [List.drop_zero] at hcount
  rw [hcount] at hbig
  have hlt := hbig (Nat.succ_pos _)
  rw [hlen, INT_MAX, Nat.succ_mul] at hlt
  simp only [List.length_cons, List.length_nil] at hlt
  omega

/-- A replacement of 2^31 - 2 bytes. -/
theorem strToStrEx_overflow :
    ¬ (IsInt (some 0) →
      ∃ r, strToStrEx [97, 97, 98, 98] [97, 97] (List.replicate 2147483646 98) true (some 0) =
          .ok r ∧
        IsReplacement (needleRule (foldOf true) [97, 97] (List.replicate 2147483646 98))
          [97, 97, 98, 98] (some 0) r) := fun h =>
  strToStrEx_long List.length_replicate (h fun c hc => by
    cases hc
    decide)

end PhpRuntime.Text
