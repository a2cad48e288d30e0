import PhpRuntime.Text.StrtrRuns

/-!
# `strtr` with an array, as a whole

The table of the keys, without those that are too long, is what the tables of the search are made
of.
-/

set_option autoImplicit false

namespace PhpRuntime.Text

open PhpRuntime.Lib (ok_bind error_bind)
open PhpRuntime.Lib.Replacement

variable {str : List UInt8} {pats : List (Key × List UInt8)}

def keyTable (pats : List (Key × List UInt8)) : List (List UInt8 × List UInt8) :=
  pats.map fun kv => (kv.1.text, kv.2)

/-- The patterns of the keys that are not too long. -/
def fitting (slen : ℕ) (pats : List (Key × List UInt8)) : List Patnrepl :=
  (pats.filter fun kv => decide (kv.1.text.length ≤ slen)).map fun kv => ⟨kv.1.text, kv.2⟩

theorem prepareRepls_eq (hne : ∀ kv ∈ pats, kv.1.text ≠ []) (slen : ℕ) :
    prepareRepls slen pats = some (fitting slen pats) := by
  induction pats with
  | nil => rfl
  | cons kv pats ih =>
    obtain ⟨key, value⟩ := kv
    have hrest := ih fun x hx => hne x (List.mem_cons_of_mem _ hx)
    rw [prepareRepls, if_neg (hne (key, value) List.mem_cons_self), hrest, fitting, fitting]
    by_cases hlong : slen < key.text.length
    · rw [if_pos hlong, List.filter_cons_of_neg]
      rw [decide_eq_true_eq]
      exact not_le.mpr hlong
    · rw [if_neg hlong, List.filter_cons_of_pos]
      · rfl
      · rw [decide_eq_true_eq]
        exact not_lt.mp hlong

theorem mem_fitting {slen : ℕ} {p : Patnrepl} :
    p ∈ fitting slen pats ↔
      ∃ kv ∈ pats, kv.1.text.length ≤ slen ∧ p = ⟨kv.1.text, kv.2⟩ := by
  rw [fitting, List.mem_map]
  constructor
  · rintro ⟨kv, hkv, rfl⟩
    rw [List.mem_filter, decide_eq_true_eq] at hkv
    exact ⟨kv, hkv.1, hkv.2, rfl⟩
  · rintro ⟨kv, hkv, hle, rfl⟩
    refine ⟨kv, ?_, rfl⟩
    rw [List.mem_filter, decide_eq_true_eq]
    exact ⟨hkv, hle⟩

theorem fitting_ne (hne : ∀ kv ∈ pats, kv.1.text ≠ []) (slen : ℕ) :
    ∀ p ∈ fitting slen pats, p.pat ≠ [] := by
  intro p hp
  obtain ⟨kv, hkv, -, rfl⟩ := mem_fitting.mp hp
  exact hne kv hkv

/-! ### The order of the patterns -/

/-- The table in the order of the search, with the keys that are too long at the end. -/
def searchTable (slen : ℕ) (sorted : List Patnrepl) (pats : List (Key × List UInt8)) :
    List (List UInt8 × List UInt8) :=
  sorted.map (fun p => (p.pat, p.repl)) ++
    keyTable (pats.filter fun kv => !decide (kv.1.text.length ≤ slen))

theorem searchTable_perm {slen : ℕ} {sorted : List Patnrepl}
    (h : sorted.Perm (fitting slen pats)) :
    (searchTable slen sorted pats).Perm (keyTable pats) := by
  have hfit : ((fitting slen pats).map fun p => (p.pat, p.repl)) =
      keyTable (pats.filter fun kv => decide (kv.1.text.length ≤ slen)) := by
    rw [fitting, List.map_map]
    rfl
  have hparts := (h.map fun p => (p.pat, p.repl)).append_right
    (keyTable (pats.filter fun kv => !decide (kv.1.text.length ≤ slen)))
  rw [hfit, keyTable, keyTable, ← List.map_append] at hparts
  exact hparts.trans ((List.filter_append_perm _ pats).map _)

theorem not_prefix_of_long {slen j : ℕ} (h : str.length ≤ slen) :
    ∀ kv ∈ keyTable (pats.filter fun kv => !decide (kv.1.text.length ≤ slen)),
      ¬ kv.1 <+: str.drop j := by
  intro kv hkv hpre
  rw [keyTable, List.mem_map] at hkv
  obtain ⟨kv, hkv, rfl⟩ := hkv
  have hlong := (List.mem_filter.mp hkv).2
  rw [Bool.not_eq_true', decide_eq_false_iff_not] at hlong
  have hle := hpre.length_le
  rw [List.length_drop] at hle
  dsimp only at hle
  omega

theorem ruleFor_searchTable (sorted : List Patnrepl) (pats : List (Key × List UInt8)) :
    RuleFor str sorted (longestRule (searchTable str.length sorted pats)) := by
  refine ⟨fun j _ hnone => ?_, fun j _ i hi => ?_⟩
  · refine longestRule_none fun kv hkv => ?_
    rcases List.mem_append.mp hkv with hin | hin
    · obtain ⟨p, hp, rfl⟩ := List.mem_map.mp hin
      obtain ⟨k, hk, rfl⟩ := List.mem_iff_getElem.mp hp
      have hno := hnone k hk
      rwa [patternAt, List.getD_eq_getElem _ _ hk] at hno
    · exact not_prefix_of_long le_rfl kv hin
  · -- the table is split at the pattern
    have hat (k : ℕ) (hk : k < sorted.length) : patternAt sorted k = sorted[k] :=
      List.getD_eq_getElem _ _ hk
    have hsplit : searchTable str.length sorted pats =
        (sorted.take i).map (fun p => (p.pat, p.repl)) ++
          ((patternAt sorted i).pat, (patternAt sorted i).repl) ::
            ((sorted.drop (i + 1)).map (fun p => (p.pat, p.repl)) ++
              keyTable (pats.filter fun kv => !decide (kv.1.text.length ≤ str.length))) := by
      rw [searchTable]
      conv_lhs => rw [← List.take_append_drop i sorted, List.drop_eq_getElem_cons hi.lt]
      rw [List.map_append, List.map_cons, hat i hi.lt, List.append_assoc, List.cons_append]
    rw [hsplit]
    refine longestRule_some hi.patternAt (fun kv hkv => ?_) fun kv hkv hpre => ?_
    · obtain ⟨p, hp, rfl⟩ := List.mem_map.mp hkv
      obtain ⟨k, hk, rfl⟩ := List.mem_iff_getElem.mp hp
      rw [List.length_take] at hk
      have hno := hi.before k (by omega)
      rwa [hat k (by omega), PatternAt, ← List.getElem_take (j := i)] at hno
    · rcases List.mem_append.mp hkv with hin | hin
      · obtain ⟨p, hp, rfl⟩ := List.mem_map.mp hin
        obtain ⟨k, hk, rfl⟩ := List.mem_iff_getElem.mp (List.mem_of_mem_drop hp)
        have hlong := hi.longest k hk
        rw [hat k hk] at hlong
        exact hlong hpre
      · exact absurd hpre (not_prefix_of_long le_rfl kv hin)

/-! ### The function -/

/-- **The search makes the naive replacement.** -/
theorem strtrArrayDoRepl_eq {ps : List Patnrepl} {d : Ppres}
    {rule : List UInt8 → Option (ℕ × List UInt8)} (hd : Prepared ps d)
    (hne : ∀ p ∈ ps, p.pat ≠ []) (hrule : RuleFor str d.patterns rule)
    (hlen : str.length < SIZE_MAX) (hm : d.m ≤ str.length) :
    strtrArrayDoRepl str d = .ok (retvalStringl (replaceAll rule str)) := by
  have hlast : toSize (str.length - d.m) = str.length - d.m := toSize_eq (by omega) (by omega)
  have hstart : Scanned str rule 0 0 [] := ⟨Nat.zero_le _, le_rfl, rfl⟩
  obtain ⟨nextwpos, result, hloop, hnext, hwhole⟩ :=
    doReplLoop_spec hd hne hrule hlen hm (str.length + 2) 0 0 [] (by omega) hstart
  have hsize : toSize (str.length - nextwpos) = str.length - nextwpos :=
    toSize_eq (by omega) (by omega)
  have hrest : (str.drop nextwpos).take (str.length - nextwpos) = str.drop nextwpos :=
    List.take_of_length_le (by rw [List.length_drop])
  rw [strtrArrayDoRepl, hlast, hloop, ok_bind]
  dsimp only
  rw [hsize, readText_eq (by omega), ok_bind, hrest, hwhole]

theorem strtrArray_eq (hlen : (str.length : ℤ) ≤ INT_MAX) (hne : ∀ kv ∈ pats, kv.1.text ≠ [])
    (hfit : ∃ kv ∈ pats, kv.1.text.length ≤ str.length) :
    ∃ table : List (List UInt8 × List UInt8), table.Perm (keyTable pats) ∧
      strtrArray str pats =
        .ok (some (retvalStringl (replaceAll (longestRule table) str))) := by
  have hprepared : Prepared (fitting str.length pats)
      (strtrArrayPrepare (fitting str.length pats) 2 2) :=
    prepared_strtrArrayPrepare (fitting_ne hne _) (Nat.succ_pos 1)
  obtain ⟨kv, hkv, hle⟩ := hfit
  have hm := hprepared.m_le _ (mem_fitting.mpr ⟨kv, hkv, hle, rfl⟩)
  refine ⟨_, searchTable_perm hprepared.perm, ?_⟩
  rw [INT_MAX] at hlen
  rw [strtrArray, prepareRepls_eq hne]
  dsimp only
  rw [strtrArrayDoRepl_eq hprepared (fitting_ne hne _) (ruleFor_searchTable _ pats)
    (by rw [SIZE_MAX]; omega) (hm.trans hle), ok_bind]

theorem strtrArray_error (hpos : str ≠ []) (hlen : (str.length : ℤ) ≤ INT_MAX)
    (hne : ∀ kv ∈ pats, kv.1.text ≠ []) (hlong : ∀ kv ∈ pats, str.length < kv.1.text.length) :
    strtrArray str pats = .error .outsideString := by
  have hnil : fitting str.length pats = [] := by
    rw [List.eq_nil_iff_forall_not_mem]
    intro p hp
    obtain ⟨kv, hkv, hle, -⟩ := mem_fitting.mp hp
    exact absurd (hlong kv hkv) (not_lt.mpr hle)
  have hlength : 0 < str.length := List.length_pos_of_ne_nil hpos
  rw [INT_MAX] at hlen
  rw [strtrArray, prepareRepls_eq hne, hnil]
  dsimp only
  rw [strtrArrayDoRepl]
  have hm : (strtrArrayPrepare [] 2 2).m = SIZE_MAX := rfl
  have hB : (strtrArrayPrepare [] 2 2).B = 2 := rfl
  have hstart : toSize ((0 : ℕ) + (strtrArrayPrepare [] 2 2).m - (strtrArrayPrepare [] 2 2).B) =
      18446744073709551613 := rfl
  have hread : readText str (toSize ((0 : ℕ) + (strtrArrayPrepare [] 2 2).m -
      (strtrArrayPrepare [] 2 2).B)) (strtrArrayPrepare [] 2 2).B = .error .outsideString := by
    rw [hstart, hB]
    exact readText_error (by omega)
  rw [doReplLoop, if_pos (Nat.zero_le _), hread, error_bind, error_bind, error_bind]

theorem retvalStringl_iff (s : List UInt8) :
    retvalStringl s = ⟨s, s.length⟩ ↔ (s.length : ℤ) ≤ INT_MAX := by
  constructor
  · intro h
    rw [retvalStringl, StringVal.mk.injEq] at h
    have hle := toInt_le s.length
    rwa [h.2] at hle
  · intro h
    rw [retvalStringl, toInt_eq (Int.natCast_nonneg _) h]

/-- **The replacement of the longest keys.** The result is the one of the naive replacement
exactly when its length is an `int`. The table is the one of the array up to the order, and the
order matters only for keys of the same text. -/
theorem strtrArray_naive (hlen : (str.length : ℤ) ≤ INT_MAX)
    (hne : ∀ kv ∈ pats, kv.1.text ≠ []) (hfit : ∃ kv ∈ pats, kv.1.text.length ≤ str.length) :
    ∃ table : List (List UInt8 × List UInt8), table.Perm (keyTable pats) ∧
      ((pats.map fun kv => kv.1.text).Nodup →
        longestRule table = longestRule (keyTable pats)) ∧
      (strtrArray str pats = .ok (some ⟨replaceAll (longestRule table) str,
          (replaceAll (longestRule table) str).length⟩) ↔
        ((replaceAll (longestRule table) str).length : ℤ) ≤ INT_MAX) := by
  obtain ⟨table, hperm, heq⟩ := strtrArray_eq hlen hne hfit
  refine ⟨table, hperm, fun hnodup => longestRule_perm hperm ?_, ?_⟩
  · rw [(hperm.map Prod.fst).nodup_iff, keyTable, List.map_map]
    exact hnodup
  · rw [heq, Except.ok.injEq, Option.some.injEq]
    exact retvalStringl_iff _

/-- Two keys, one of them a part of the other. -/
theorem strtrArray_naive_twoKeys :
    ∃ table : List (List UInt8 × List UInt8),
      table.Perm (keyTable [(.string [97], [98]), (.string [97, 97], [99])]) ∧
      (([(.string [97], [98]), (.string [97, 97], [99])].map fun kv : Key × List UInt8 =>
          kv.1.text).Nodup →
        longestRule table = longestRule (keyTable [(.string [97], [98]),
          (.string [97, 97], [99])])) ∧
      (strtrArray [97, 97, 97] [(.string [97], [98]), (.string [97, 97], [99])] =
          .ok (some ⟨replaceAll (longestRule table) [97, 97, 97],
            (replaceAll (longestRule table) [97, 97, 97]).length⟩) ↔
        ((replaceAll (longestRule table) [97, 97, 97]).length : ℤ) ≤ INT_MAX) := by
  refine strtrArray_naive (by decide) ?_ ⟨(.string [97], [98]), List.mem_cons_self, by decide⟩
  intro kv hkv
  simp only [List.mem_cons, List.not_mem_nil, or_false] at hkv
  rcases hkv with rfl | rfl
  · exact List.cons_ne_nil _ _
  · exact List.cons_ne_nil _ _

theorem strtrArray_twice {v : List UInt8} (hv : v.length = 1073741824) :
    ¬ strtrArray [97, 97] [(.string [97], v)] =
      .ok (some ⟨replaceAll (longestRule [([97], v)]) [97, 97],
        (replaceAll (longestRule [([97], v)]) [97, 97]).length⟩) := by
  have hrule (t : List UInt8) : longestRule [([97], v)] (97 :: t) = some (1, v) :=
    (if_pos (List.prefix_append [97] t) : (if [97] <+: 97 :: t then some (1, v) else none) = _)
  have hone : replaceAll (longestRule [([97], v)]) [97] = v := by
    rw [replaceAll_some (hrule []) (List.cons_ne_nil _ _) Nat.one_pos]
    exact (congrArg (v ++ ·) replaceAll_nil).trans (List.append_nil v)
  have htwo : replaceAll (longestRule [([97], v)]) [97, 97] = v ++ v := by
    rw [replaceAll_some (hrule [97]) (List.cons_ne_nil _ _) Nat.one_pos]
    exact congrArg (v ++ ·) hone
  have hlen : (([97, 97] : List UInt8).length : ℤ) ≤ INT_MAX := by decide
  have hne : ∀ kv ∈ [(Key.string [97], v)], kv.1.text ≠ [] := by
    intro kv hkv
    rw [List.mem_singleton] at hkv
    rw [hkv]
    exact List.cons_ne_nil _ _
  obtain ⟨table, hperm, heq⟩ := strtrArray_eq hlen hne ⟨_, List.mem_cons_self, Nat.le_succ 1⟩
  have htable : table = [([97], v)] := List.perm_singleton.mp hperm
  rw [heq, htable, Except.ok.injEq, Option.some.injEq, retvalStringl_iff, htwo,
    List.length_append, hv, INT_MAX]
  omega

/-- The naive replacement of `a` by 2^30 bytes in `aa`. -/
def hugeReplacement : List UInt8 :=
  replaceAll (longestRule [([97], List.replicate 1073741824 98)]) [97, 97]

theorem not_strtrArray_naive :
    ¬ strtrArray [97, 97] [(.string [97], List.replicate 1073741824 98)] =
      .ok (some ⟨hugeReplacement, hugeReplacement.length⟩) :=
  strtrArray_twice List.length_replicate

/-- **Inside the subject.** Every read is checked, so a result says that none was outside. -/
theorem strtrArray_inside (hpos : str ≠ []) (hlen : (str.length : ℤ) ≤ INT_MAX)
    (hne : ∀ kv ∈ pats, kv.1.text ≠ []) :
    (∃ r, strtrArray str pats = .ok r) ↔ ∃ kv ∈ pats, kv.1.text.length ≤ str.length := by
  constructor
  · rintro ⟨r, hr⟩
    by_contra hlong
    push Not at hlong
    rw [strtrArray_error hpos hlen hne hlong] at hr
    cases hr
  · intro hfit
    obtain ⟨table, -, heq⟩ := strtrArray_eq hlen hne hfit
    exact ⟨_, heq⟩

theorem strtrArray_inside_oneKey :
    (∃ r, strtrArray [97] [(.string [97], [98])] = .ok r) ↔
      ∃ kv ∈ [(Key.string [97], [(98 : UInt8)])], kv.1.text.length ≤ [(97 : UInt8)].length := by
  refine strtrArray_inside (List.cons_ne_nil _ _) (by decide) fun kv hkv => ?_
  rw [List.mem_singleton] at hkv
  rw [hkv]
  exact List.cons_ne_nil _ _

/-- The empty table. -/
theorem not_strtrArray_inside : ¬ ∃ r, strtrArray [97, 98, 99] [] = .ok r := by
  rintro ⟨r, hr⟩
  rw [strtrArray_error (List.cons_ne_nil _ _) (by decide) (fun kv hkv => by cases hkv)
    fun kv hkv => by cases hkv] at hr
  cases hr

end PhpRuntime.Text
