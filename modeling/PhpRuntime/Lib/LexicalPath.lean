import Mathlib.Data.List.Induction

/-!
# Lexical normal forms of paths

A path is a list of characters, two of which are its separator and the dot. Its names are what
stands between the separators, without empty names and single dots; two dots remove the name
before them.
-/

set_option autoImplicit false

namespace PhpRuntime.Lib

variable {α : Type} [DecidableEq α] (slash dot : α)

def pathNames (path : List α) : List (List α) :=
  (path.splitOn slash).filter fun name => name ≠ [] ∧ name ≠ [dot]

/-- One more name behind a list of names. Two dots remove the last one; where there is none, or
where it is itself two dots, they stay if `keep` says so. -/
def resolveName (keep : Bool) (names : List (List α)) (name : List α) : List (List α) :=
  if name = [dot, dot] then
    if names = [] ∨ names.getLast? = some [dot, dot] then
      if keep then names ++ [name] else names
    else names.dropLast
  else names ++ [name]

def resolveNames (keep : Bool) (names : List (List α)) : List (List α) :=
  names.foldl (resolveName dot keep) []

/-- The path from names, from the root or relative. -/
def renderPath (absolute : Bool) (names : List (List α)) : List α :=
  (if absolute then [slash] else []) ++ [slash].intercalate names

/-- The normal form of a path without its trailing separator. -/
def normalBody (absolute : Bool) (path : List α) : List α :=
  renderPath slash absolute (resolveNames dot (!absolute) (pathNames slash dot path))

/-- The same with a dot for an empty relative path. -/
def shownPath (absolute : Bool) (path : List α) : List α :=
  if normalBody slash dot absolute path = [] then [dot] else normalBody slash dot absolute path

/-- The normal form of a path, where a trailing separator is kept. -/
def normalPath (path : List α) : List α :=
  let shown := shownPath slash dot (path.head? = some slash) path
  if path.getLast? = some slash ∧ shown ≠ [slash] then shown ++ [slash] else shown

/-- A path relative to a directory; there is nothing to put in front of an absolute path, nor
when the directory is not known. -/
def joinPath (directory path : List α) : List α :=
  if path.head? = some slash ∨ directory = [] then path else directory ++ slash :: path

/-- A name as it is found in a normal form. -/
structure IsName (name : List α) : Prop where
  ne_nil : name ≠ []
  ne_dot : name ≠ [dot]
  slash_not_mem : slash ∉ name

variable {slash dot}

/-! ### Rendering -/

section Rendering

omit [DecidableEq α]

theorem intercalate_append_singleton (names : List (List α)) (name : List α) :
    [slash].intercalate (names ++ [name]) =
      if names = [] then name else [slash].intercalate names ++ slash :: name := by
  induction names with
  | nil => simp
  | cons first rest ih =>
    rw [List.cons_append, List.intercalate_cons_of_ne_nil (by simp), ih]
    by_cases hrest : rest = []
    · simp [hrest]
    · rw [if_neg hrest, if_neg (by simp), List.intercalate_cons_of_ne_nil hrest]
      simp

@[simp] theorem renderPath_nil (absolute : Bool) :
    renderPath slash absolute ([] : List (List α)) = if absolute then [slash] else [] := by
  simp [renderPath]

theorem renderPath_singleton (absolute : Bool) (name : List α) :
    renderPath slash absolute [name] = (if absolute then [slash] else []) ++ name := by
  simp [renderPath]

theorem renderPath_append_singleton (absolute : Bool) {names : List (List α)} (name : List α)
    (h : names ≠ []) :
    renderPath slash absolute (names ++ [name]) =
      renderPath slash absolute names ++ slash :: name := by
  rw [renderPath, intercalate_append_singleton, if_neg h, renderPath]
  simp

theorem renderPath_eq_nil {absolute : Bool} {names : List (List α)}
    (hnames : ∀ name ∈ names, IsName slash dot name) (h : renderPath slash absolute names = []) :
    absolute = false ∧ names = [] := by
  cases names with
  | nil => cases absolute <;> simp_all
  | cons first rest =>
    have hfirst := (hnames first (by simp)).ne_nil
    cases rest with
    | nil => simp_all [renderPath]
    | cons second rest => simp_all [renderPath]

theorem head?_renderPath {absolute : Bool} {names : List (List α)}
    (hnames : ∀ name ∈ names, IsName slash dot name) :
    (renderPath slash absolute names).head? = some slash ↔ absolute = true := by
  cases absolute with
  | true => simp [renderPath]
  | false =>
    cases names with
    | nil => simp
    | cons first rest =>
      have hfirst := hnames first (by simp)
      obtain ⟨c, tail, rfl⟩ := List.exists_cons_of_ne_nil hfirst.ne_nil
      have hc : c ≠ slash := by
        rintro rfl
        exact hfirst.slash_not_mem (by simp)
      cases rest <;> simp [renderPath, hc]

theorem getLast?_renderPath {absolute : Bool} {names : List (List α)}
    (hnames : ∀ name ∈ names, IsName slash dot name)
    (h : (renderPath slash absolute names).getLast? = some slash) :
    absolute = true ∧ names = [] := by
  induction names using List.reverseRecOn with
  | nil => cases absolute <;> simp_all
  | append_singleton names last _ =>
    have hlast := hnames last (by simp)
    obtain ⟨front, c, rfl⟩ := (List.eq_nil_or_concat last).resolve_left hlast.ne_nil
    have hc : c ≠ slash := by
      rintro rfl
      exact hlast.slash_not_mem (by simp)
    exfalso
    by_cases hnil : names = []
    · subst hnil
      simp [renderPath, hc] at h
    · rw [renderPath_append_singleton _ _ hnil, List.concat_eq_append, ← List.cons_append,
        ← List.append_assoc, List.getLast?_concat] at h
      exact hc (Option.some.inj h)

theorem length_intercalate_le_of_sublist {names others : List (List α)}
    (h : names.Sublist others) :
    ([slash].intercalate names).length ≤ ([slash].intercalate others).length := by
  induction h with
  | slnil => simp
  | @cons names others name h ih =>
    by_cases hothers : others = []
    · subst hothers
      simp [List.sublist_nil.1 h]
    · rw [List.intercalate_cons_of_ne_nil hothers]
      simp only [List.length_append]
      omega
  | @cons_cons names others name h ih =>
    by_cases hothers : others = []
    · subst hothers
      simp [List.sublist_nil.1 h]
    · rw [List.intercalate_cons_of_ne_nil hothers]
      by_cases hnames : names = []
      · simp only [hnames, List.intercalate_singleton, List.length_append]
        omega
      · rw [List.intercalate_cons_of_ne_nil hnames]
        simp only [List.length_append]
        omega

end Rendering

/-! ### Names -/

theorem pathNames_of_slash_not_mem {name : List α} (h : slash ∉ name) :
    pathNames slash dot name = if name ≠ [] ∧ name ≠ [dot] then [name] else [] := by
  rw [pathNames, List.splitOn_eq_singleton h, List.filter_cons]
  simp

@[simp] theorem pathNames_nil : pathNames slash dot ([] : List α) = [] := by
  simp [pathNames]

theorem pathNames_append_slash (front back : List α) :
    pathNames slash dot (front ++ slash :: back) =
      pathNames slash dot front ++ pathNames slash dot back := by
  rw [pathNames, List.splitOn_append_cons_self, List.filter_append]
  rfl

@[simp] theorem pathNames_slash_cons (path : List α) :
    pathNames slash dot (slash :: path) = pathNames slash dot path := by
  have h : pathNames slash dot ([] ++ slash :: path) = _ := pathNames_append_slash [] path
  simpa using h

theorem resolveNames_append_singleton (keep : Bool) (names : List (List α)) (name : List α) :
    resolveNames dot keep (names ++ [name]) =
      resolveName dot keep (resolveNames dot keep names) name := by
  simp [resolveNames]

/-! ### The names of a path are names -/

theorem mem_splitOn_slash_not_mem (path : List α) : ∀ name ∈ path.splitOn slash, slash ∉ name := by
  induction path with
  | nil => simp
  | cons c path ih =>
    intro name hname
    rw [List.splitOn_cons_eq_if_modifyHead] at hname
    split at hname
    · rcases List.mem_cons.1 hname with rfl | hname
      · simp
      · exact ih name hname
    · rename_i hc
      obtain ⟨first, rest, hsplit⟩ := List.exists_cons_of_ne_nil (List.splitOn_ne_nil slash path)
      rw [hsplit] at hname ih
      rw [List.modifyHead_cons] at hname
      rcases List.mem_cons.1 hname with rfl | hname
      · intro hmem
        rcases List.mem_cons.1 hmem with rfl | hmem
        · simp at hc
        · exact ih first (by simp) hmem
      · exact ih name (by simp [hname])

theorem isName_of_mem_pathNames {path name : List α} (h : name ∈ pathNames slash dot path) :
    IsName slash dot name := by
  rw [pathNames, List.mem_filter] at h
  obtain ⟨hmem, hname⟩ := h
  simp only [decide_eq_true_eq] at hname
  exact ⟨hname.1, hname.2, mem_splitOn_slash_not_mem path name hmem⟩

theorem mem_resolveName {keep : Bool} {names : List (List α)} {name other : List α}
    (h : other ∈ resolveName dot keep names name) : other ∈ names ∨ other = name := by
  unfold resolveName at h
  split at h
  · split at h
    · split at h
      · simpa using h
      · exact .inl h
    · exact .inl (List.dropLast_subset _ h)
  · simpa using h

theorem mem_resolveNames {keep : Bool} {names : List (List α)} {name : List α}
    (h : name ∈ resolveNames dot keep names) : name ∈ names := by
  induction names using List.reverseRecOn with
  | nil => simp [resolveNames] at h
  | append_singleton names last ih =>
    rw [resolveNames_append_singleton] at h
    rcases mem_resolveName h with h | rfl
    · exact List.mem_append_left _ (ih h)
    · simp

theorem isName_of_mem_resolved {keep : Bool} {path name : List α}
    (h : name ∈ resolveNames dot keep (pathNames slash dot path)) : IsName slash dot name :=
  isName_of_mem_pathNames (mem_resolveNames h)

theorem dotdot_not_mem_resolveNames (names : List (List α)) :
    [dot, dot] ∉ resolveNames dot false names := by
  induction names using List.reverseRecOn with
  | nil => simp [resolveNames]
  | append_singleton names last ih =>
    rw [resolveNames_append_singleton]
    unfold resolveName
    split
    · split
      · simpa using ih
      · exact fun h => ih (List.dropLast_subset _ h)
    · rename_i hlast
      intro h
      rcases List.mem_append.1 h with h | h
      · exact ih h
      · exact hlast (List.mem_singleton.1 h).symm

/-! ### A normal form is its own normal form -/

theorem length_resolveNames_le (dot : α) (keep : Bool) (names : List (List α)) :
    (resolveNames dot keep names).length ≤ names.length := by
  induction names using List.reverseRecOn with
  | nil => simp [resolveNames]
  | append_singleton names last ih =>
    rw [resolveNames_append_singleton, resolveName]
    split_ifs <;> simp <;> omega

theorem resolveNames_dropLast {keep : Bool} {names : List (List α)}
    (h : resolveNames dot keep names = names) :
    resolveNames dot keep names.dropLast = names.dropLast := by
  induction names using List.reverseRecOn with
  | nil => exact h
  | append_singleton front last _ =>
    have hlen := length_resolveNames_le dot keep front
    rw [resolveNames_append_singleton, resolveName] at h
    rw [List.dropLast_concat]
    split_ifs at h
    · exact List.append_cancel_right h
    · rw [h, List.length_append, List.length_singleton] at hlen
      omega
    · have := congrArg List.length h
      simp only [List.length_dropLast, List.length_append, List.length_singleton] at this
      omega
    · exact List.append_cancel_right h

theorem resolveNames_resolveNames (keep : Bool) (names : List (List α)) :
    resolveNames dot keep (resolveNames dot keep names) = resolveNames dot keep names := by
  induction names using List.reverseRecOn with
  | nil => simp [resolveNames]
  | append_singleton names last ih =>
    rw [resolveNames_append_singleton]
    generalize resolveNames dot keep names = front at ih ⊢
    by_cases hdots : last = [dot, dot]
    · by_cases hstay : front = [] ∨ front.getLast? = some [dot, dot]
      · by_cases hkeep : keep = true
        · have hlast : resolveName dot keep front last = front ++ [last] := by
            rw [resolveName, if_pos hdots, if_pos hstay, if_pos hkeep]
          rw [hlast, resolveNames_append_singleton, ih, hlast]
        · rw [resolveName, if_pos hdots, if_pos hstay, if_neg hkeep, ih]
      · rw [resolveName, if_pos hdots, if_neg hstay, resolveNames_dropLast ih]
    · have hlast : resolveName dot keep front last = front ++ [last] := by
        rw [resolveName, if_neg hdots]
      rw [hlast, resolveNames_append_singleton, ih, hlast]

theorem pathNames_renderPath {absolute : Bool} {names : List (List α)}
    (h : ∀ name ∈ names, IsName slash dot name) :
    pathNames slash dot (renderPath slash absolute names) = names := by
  have hbody : pathNames slash dot ([slash].intercalate names) = names := by
    cases names with
    | nil => simp
    | cons first rest =>
      rw [pathNames, List.splitOn_intercalate slash (fun name hname => (h name hname).slash_not_mem)
        (by simp), List.filter_eq_self]
      intro name hname
      simpa using ⟨(h name hname).ne_nil, (h name hname).ne_dot⟩
  cases absolute with
  | false => simpa [renderPath] using hbody
  | true => simpa [renderPath] using hbody

theorem normalBody_renderPath (absolute : Bool) (path : List α) :
    normalBody slash dot absolute (normalBody slash dot absolute path) =
      normalBody slash dot absolute path := by
  rw [normalBody, normalBody, pathNames_renderPath fun name => isName_of_mem_resolved,
    resolveNames_resolveNames]

theorem normalBody_append_slash (absolute : Bool) (path : List α) :
    normalBody slash dot absolute (path ++ [slash]) = normalBody slash dot absolute path := by
  rw [normalBody, pathNames_append_slash, pathNames_nil, List.append_nil, normalBody]

/-! ### A normal form is not longer -/

theorem resolveName_sublist (keep : Bool) (names : List (List α)) (name : List α) :
    (resolveName dot keep names name).Sublist (names ++ [name]) := by
  unfold resolveName
  split_ifs
  · exact List.Sublist.refl _
  · exact List.sublist_append_left names [name]
  · exact (List.dropLast_sublist names).trans (List.sublist_append_left names [name])
  · exact List.Sublist.refl _

theorem resolveNames_sublist (keep : Bool) (names : List (List α)) :
    (resolveNames dot keep names).Sublist names := by
  induction names using List.reverseRecOn with
  | nil => simp [resolveNames]
  | append_singleton names last ih =>
    rw [resolveNames_append_singleton]
    exact (resolveName_sublist keep _ last).trans (ih.append (List.Sublist.refl _))

theorem length_normalBody_le {absolute : Bool} {path : List α}
    (h : absolute = true → path.head? = some slash) :
    (normalBody slash dot absolute path).length ≤ path.length := by
  have hbody : ∀ rest : List α,
      ([slash].intercalate (resolveNames dot (!absolute) (pathNames slash dot rest))).length ≤
        rest.length := by
    intro rest
    have hsub : (resolveNames dot (!absolute) (pathNames slash dot rest)).Sublist
        (rest.splitOn slash) :=
      (resolveNames_sublist (!absolute) (pathNames slash dot rest)).trans List.filter_sublist
    calc ([slash].intercalate (resolveNames dot (!absolute) (pathNames slash dot rest))).length
        ≤ ([slash].intercalate (rest.splitOn slash)).length :=
          length_intercalate_le_of_sublist hsub
      _ = rest.length := by rw [List.intercalate_splitOn]
  cases absolute with
  | false => simpa [normalBody, renderPath] using hbody path
  | true =>
    obtain ⟨c, rest, rfl⟩ : ∃ c rest, path = c :: rest := by
      cases path with
      | nil => simp at h
      | cons c rest => exact ⟨c, rest, rfl⟩
    obtain rfl : c = slash := Option.some.inj (h rfl)
    simpa [normalBody, renderPath] using hbody rest

theorem normalBody_eq_nil {absolute : Bool} {path : List α}
    (h : normalBody slash dot absolute path = []) : absolute = false :=
  (renderPath_eq_nil (fun _ => isName_of_mem_resolved) h).1

theorem getLast?_normalBody {absolute : Bool} {path : List α}
    (h : (normalBody slash dot absolute path).getLast? = some slash) :
    normalBody slash dot absolute path = [slash] := by
  obtain ⟨rfl, hnames⟩ := getLast?_renderPath (fun _ => isName_of_mem_resolved) h
  rw [normalBody, hnames]
  rfl

theorem normalPath_eq {path : List α} {absolute : Bool}
    (h : path.head? = some slash ↔ absolute = true) :
    normalPath slash dot path =
      if path.getLast? = some slash ∧ shownPath slash dot absolute path ≠ [slash] then
        shownPath slash dot absolute path ++ [slash]
      else shownPath slash dot absolute path := by
  obtain rfl : decide (path.head? = some slash) = absolute := by
    rw [Bool.eq_iff_iff, decide_eq_true_iff, h]
  rfl

theorem shownPath_ne_nil (absolute : Bool) (path : List α) :
    shownPath slash dot absolute path ≠ [] := by
  unfold shownPath
  split <;> simp_all

theorem normalBody_shownPath (hne : slash ≠ dot) (absolute : Bool) (path : List α) :
    normalBody slash dot absolute (shownPath slash dot absolute path) =
      normalBody slash dot absolute path := by
  unfold shownPath
  split
  · rename_i h
    obtain rfl := normalBody_eq_nil h
    rw [h, normalBody, pathNames_of_slash_not_mem (by simpa using hne)]
    simp [resolveNames]
  · exact normalBody_renderPath absolute path

theorem head?_shownPath (hne : slash ≠ dot) {absolute : Bool} {path : List α} :
    (shownPath slash dot absolute path).head? = some slash ↔ absolute = true := by
  unfold shownPath
  split
  · rename_i h
    obtain rfl := normalBody_eq_nil h
    simp [hne.symm]
  · exact head?_renderPath fun name => isName_of_mem_resolved

theorem getLast?_shownPath (hne : slash ≠ dot) {absolute : Bool} {path : List α}
    (h : (shownPath slash dot absolute path).getLast? = some slash) :
    shownPath slash dot absolute path = [slash] := by
  unfold shownPath at h ⊢
  split
  · rename_i hnil
    rw [if_pos hnil] at h
    exact absurd (Option.some.inj h).symm hne
  · rename_i hnil
    rw [if_neg hnil] at h
    exact getLast?_normalBody h

theorem length_shownPath_le {absolute : Bool} {path : List α} (hpath : path ≠ [])
    (h : absolute = true → path.head? = some slash) :
    (shownPath slash dot absolute path).length ≤ path.length := by
  unfold shownPath
  split
  · exact List.length_pos_iff.2 hpath
  · exact length_normalBody_le h

theorem length_normalPath_le {path : List α} (hpath : path ≠ []) :
    (normalPath slash dot path).length ≤ path.length := by
  obtain ⟨absolute, habs⟩ : ∃ absolute : Bool, path.head? = some slash ↔ absolute = true :=
    ⟨decide (path.head? = some slash), by simp⟩
  rw [normalPath_eq habs]
  split
  · rename_i hslash
    obtain ⟨front, rfl⟩ := List.getLast?_eq_some_iff.1 hslash.1
    have hshown : shownPath slash dot absolute (front ++ [slash]) =
        shownPath slash dot absolute front := by
      rw [shownPath, normalBody_append_slash, ← shownPath]
    have hfront : front ≠ [] := by
      rintro rfl
      obtain rfl : absolute = true := habs.1 rfl
      exact hslash.2 (by rw [hshown]; simp [shownPath, normalBody, resolveNames])
    have hhead : absolute = true → front.head? = some slash := by
      intro h
      obtain ⟨c, tail, rfl⟩ := List.exists_cons_of_ne_nil hfront
      exact habs.2 h
    have hle : (shownPath slash dot absolute front).length ≤ front.length :=
      length_shownPath_le hfront hhead
    rw [hshown, List.length_append, List.length_append]
    exact Nat.add_le_add_right hle 1
  · exact length_shownPath_le hpath habs.2

theorem normalPath_ne_nil (path : List α) : normalPath slash dot path ≠ [] := by
  rw [normalPath]
  split
  · simp
  · exact shownPath_ne_nil _ _

theorem head?_normalPath (hne : slash ≠ dot) (path : List α) :
    (normalPath slash dot path).head? = some slash ↔ path.head? = some slash := by
  obtain ⟨absolute, habs⟩ : ∃ absolute : Bool, path.head? = some slash ↔ absolute = true :=
    ⟨decide (path.head? = some slash), by simp⟩
  have hhead : (shownPath slash dot absolute path).head? = some slash ↔ absolute = true :=
    head?_shownPath hne
  have hshown : shownPath slash dot absolute path ≠ [] := shownPath_ne_nil absolute path
  obtain ⟨c, tail, hcons⟩ := List.exists_cons_of_ne_nil hshown
  rw [normalPath_eq habs, habs, ← hhead]
  split
  · rw [hcons]
    rfl
  · rfl

theorem normalPath_normalPath (hne : slash ≠ dot) (path : List α) :
    normalPath slash dot (normalPath slash dot path) = normalPath slash dot path := by
  obtain ⟨absolute, habs⟩ : ∃ absolute : Bool, path.head? = some slash ↔ absolute = true :=
    ⟨decide (path.head? = some slash), by simp⟩
  have hhead : (shownPath slash dot absolute path).head? = some slash ↔ absolute = true :=
    head?_shownPath hne
  rw [normalPath_eq habs]
  split
  · -- the separator is kept
    rename_i hslash
    have hbody : shownPath slash dot absolute (shownPath slash dot absolute path ++ [slash]) =
        shownPath slash dot absolute path := by
      rw [shownPath, normalBody_append_slash, normalBody_shownPath hne, ← shownPath]
    have hhead' : (shownPath slash dot absolute path ++ [slash]).head? = some slash ↔
        absolute = true := by
      rw [← habs, ← head?_normalPath hne path, normalPath_eq habs, if_pos hslash]
    rw [normalPath_eq hhead', hbody, if_pos ⟨by simp, hslash.2⟩]
  · have hbody : shownPath slash dot absolute (shownPath slash dot absolute path) =
        shownPath slash dot absolute path := by
      rw [shownPath, normalBody_shownPath hne, ← shownPath]
    rw [normalPath_eq hhead, hbody, if_neg]
    exact fun h => h.2 (getLast?_shownPath hne h.1)

end PhpRuntime.Lib
