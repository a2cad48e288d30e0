import PhpRuntime.Request.Variables

/-!
# Protected upload variables

`normalize_protected_variable`, `add_protected_variable` and `is_protected_variable`
(`main/rfc1867.c`). They read the names of variables on their own, and not quite as
`php_register_variable_ex` does: a bracket that is not closed is no underscore here, and fewer white
spaces are skipped. Both are compared on the parts of a name.
-/

set_option autoImplicit false

namespace PhpRuntime.Request

open PhpRuntime.Text

/-! ## The code -/

/-- The white space that is skipped behind a `[`. -/
def isBlank (c : UInt8) : Bool := c = 32 ∨ c = 13 ∨ c = 10 ∨ c = 9

/-- The loop over the indexes, from behind a `[`. What is behind the last `]` is cut off. -/
def normalizeIndexes (index : List UInt8) : List UInt8 :=
  let start := index.dropWhile isBlank
  match _h : start.dropWhile (· ≠ 93) with
  | [] => start
  | _ :: rest =>
    start.takeWhile (· ≠ 93) ++ 93 ::
      if rest.head? = some 91 then 91 :: normalizeIndexes rest.tail else []
termination_by index.length
decreasing_by
  have hstart := (List.dropWhile_suffix (l := index) isBlank).length_le
  have hrest := (List.dropWhile_suffix (l := index.dropWhile isBlank) (· ≠ 93)).length_le
  rw [_h, List.length_cons] at hrest
  rw [List.length_tail]
  omega

/-- `normalize_protected_variable` -/
def normalizeProtectedVariable (varname : List UInt8) : List UInt8 :=
  let varname := varname.dropWhile (· = 32)
  let base := (varname.takeWhile (· ≠ 91)).map underscore
  match varname.dropWhile (· ≠ 91) with
  | [] => base
  | _ :: index => base ++ 91 :: normalizeIndexes index

/-- `add_protected_variable`, with the names in `rfc1867_protected_variables`. -/
def addProtectedVariable (names : List (List UInt8)) (varname : List UInt8) : List (List UInt8) :=
  normalizeProtectedVariable varname :: names

/-- `is_protected_variable` -/
def isProtectedVariable (names : List (List UInt8)) (varname : List UInt8) : Bool :=
  names.contains (normalizeProtectedVariable varname)

/-- The place where `php_register_variable_ex` stores the value of a name, if it stores it. -/
def storedAt (maxInputNestingLevel : ℤ) (varName : List UInt8) :
    Option (List (Option (List UInt8))) :=
  let varName := varName.dropWhile (· = 32)
  let var := (varName.takeWhile (· ≠ 91)).map underscore
  if var = [] then none
  else
    match varName.dropWhile (· ≠ 91) with
    | [] => some [some var]
    | _ :: ip =>
      match readPath maxInputNestingLevel.toNat (.var var) ip with
      | (is, false) => some is
      | (_, true) => none

/-! ## The parts of a name -/

/-- The texts between brackets, from behind a `[`, and the text behind a `[` without its `]`. -/
def segments (ip : List UInt8) : List (List UInt8) × Option (List UInt8) :=
  match _h : ip.dropWhile (· ≠ 93) with
  | [] => ([], some ip)
  | _ :: rest =>
    if rest.head? = some 91 then
      (ip.takeWhile (· ≠ 93) :: (segments rest.tail).1, (segments rest.tail).2)
    else ([ip.takeWhile (· ≠ 93)], none)
termination_by ip.length
decreasing_by
  all_goals
    have hrest := (List.dropWhile_suffix (l := ip) (· ≠ 93)).length_le
    rw [_h, List.length_cons] at hrest
    rw [List.length_tail]
    omega

theorem brackets_induction {P : List UInt8 → Prop} (unclosed : ∀ ip, 93 ∉ ip → P ip)
    (last : ∀ k rest, 93 ∉ k → rest.head? ≠ some 91 → P (k ++ 93 :: rest))
    (more : ∀ k ip, 93 ∉ k → P ip → P (k ++ 93 :: 91 :: ip)) (ip : List UInt8) : P ip := by
  induction hlen : ip.length using Nat.strong_induction_on generalizing ip with
  | h n ih =>
    by_cases hmem : 93 ∈ ip
    · obtain ⟨k, rest, rfl, hk⟩ := List.eq_append_cons_of_mem hmem
      by_cases hrest : rest.head? = some 91
      · cases rest with
        | nil => cases hrest
        | cons c rest =>
          obtain rfl := Option.some.inj hrest
          refine more k rest hk (ih rest.length ?_ rest rfl)
          simp only [List.length_append, List.length_cons] at hlen
          omega
      · exact last k rest hk hrest
    · exact unclosed ip hmem

theorem dropWhile_unclosed {ip : List UInt8} (h : 93 ∉ ip) : ip.dropWhile (· ≠ 93) = [] := by
  rw [List.dropWhile_eq_nil_iff]
  exact fun x hx => decide_eq_true fun heq : x = 93 => h (heq ▸ hx)

theorem segments_unclosed {ip : List UInt8} (h : 93 ∉ ip) : segments ip = ([], some ip) := by
  rw [segments]
  split
  · rfl
  · next heq =>
    rw [dropWhile_unclosed h] at heq
    cases heq

theorem segments_closed {k : List UInt8} (hk : 93 ∉ k) (rest : List UInt8) :
    segments (k ++ 93 :: rest) =
      if rest.head? = some 91 then (k :: (segments rest.tail).1, (segments rest.tail).2)
      else ([k], none) := by
  rw [segments]
  split
  · next heq =>
    rw [dropWhile_before hk] at heq
    cases heq
  · next heq =>
    rw [dropWhile_before hk, List.cons.injEq] at heq
    rw [← heq.2, takeWhile_before hk]

theorem segments_more {k : List UInt8} (hk : 93 ∉ k) (ip : List UInt8) :
    segments (k ++ 93 :: 91 :: ip) = (k :: (segments ip).1, (segments ip).2) := by
  rw [segments_closed hk, List.head?_cons, if_pos rfl, List.tail_cons]

theorem not_mem_dropWhile {p : UInt8 → Bool} {c : UInt8} {ip : List UInt8} (h : c ∉ ip) :
    c ∉ ip.dropWhile p :=
  fun hmem => h (List.dropWhile_subset p hmem)

theorem normalizeIndexes_unclosed {ip : List UInt8} (h : 93 ∉ ip) :
    normalizeIndexes ip = ip.dropWhile isBlank := by
  rw [normalizeIndexes]
  split
  · rfl
  · next heq =>
    rw [dropWhile_unclosed (not_mem_dropWhile h)] at heq
    cases heq

theorem dropWhile_blank_closed (k rest : List UInt8) :
    (k ++ 93 :: rest).dropWhile isBlank = k.dropWhile isBlank ++ 93 :: rest := by
  by_cases hall : ∃ c ∈ k, isBlank c = false
  · exact dropWhile_append hall _
  · have hall' : ∀ x ∈ k, isBlank x = true := by
      intro x hx
      by_contra hblank
      exact hall ⟨x, hx, Bool.eq_false_iff.mpr hblank⟩
    rw [List.dropWhile_append_of_pos hall', List.dropWhile_eq_nil_iff.mpr hall']
    rfl

theorem normalizeIndexes_closed {k : List UInt8} (hk : 93 ∉ k) (rest : List UInt8) :
    normalizeIndexes (k ++ 93 :: rest) = k.dropWhile isBlank ++ 93 ::
      if rest.head? = some 91 then 91 :: normalizeIndexes rest.tail else [] := by
  have hk' : 93 ∉ k.dropWhile isBlank := not_mem_dropWhile hk
  rw [normalizeIndexes]
  split
  · next heq =>
    rw [dropWhile_blank_closed, dropWhile_before hk'] at heq
    cases heq
  · next heq =>
    rw [dropWhile_blank_closed, dropWhile_before hk', List.cons.injEq] at heq
    rw [← heq.2, dropWhile_blank_closed, takeWhile_before hk']

/-! ## What the two functions make of the parts -/

def strip (k : List UInt8) : List UInt8 := k.dropWhile isBlank

/-- The text of a last bracket that is not closed. -/
def tailText : Option (List UInt8) → List UInt8
  | none => []
  | some u => 91 :: u

/-- Keys in brackets, and a last bracket that is not closed. -/
def writeIndexes (ks : List (List UInt8)) (tail : Option (List UInt8)) : List UInt8 :=
  brackets ks ++ tailText tail

theorem writeIndexes_cons (k : List UInt8) (ks : List (List UInt8)) (tail : Option (List UInt8)) :
    writeIndexes (k :: ks) tail = 91 :: (k ++ 93 :: writeIndexes ks tail) := by
  rw [writeIndexes, brackets_cons, writeIndexes]
  simp

theorem normalizeIndexes_segments (ip : List UInt8) :
    91 :: normalizeIndexes ip =
      writeIndexes ((segments ip).1.map strip) ((segments ip).2.map strip) := by
  induction ip using brackets_induction with
  | unclosed ip h =>
    rw [normalizeIndexes_unclosed h, segments_unclosed h]
    rfl
  | last k rest hk hrest =>
    rw [normalizeIndexes_closed hk, segments_closed hk, if_neg hrest, if_neg hrest]
    exact (writeIndexes_cons (strip k) [] none).symm
  | more k ip hk ih =>
    rw [normalizeIndexes_closed hk, segments_more hk, List.head?_cons, if_pos rfl, List.tail_cons,
      ih, List.map_cons, writeIndexes_cons]
    rfl

theorem segments_writeIndexes {ks : List (List UInt8)} {tail : Option (List UInt8)}
    (hks : ∀ k ∈ ks, 93 ∉ k) (htail : ∀ u ∈ tail, 93 ∉ u) {ip : List UInt8}
    (h : writeIndexes ks tail = 91 :: ip) : segments ip = (ks, tail) := by
  induction ks generalizing ip with
  | nil =>
    cases tail with
    | none => cases h
    | some u =>
      obtain rfl := (List.cons.inj h).2
      exact segments_unclosed (htail u rfl)
  | cons k ks ih =>
    rw [writeIndexes_cons] at h
    obtain rfl := (List.cons.inj h).2
    rw [segments_closed (hks k List.mem_cons_self)]
    have hks' : ∀ x ∈ ks, 93 ∉ x := fun x hx => hks x (List.mem_cons_of_mem k hx)
    cases hwrite : writeIndexes ks tail with
    | nil =>
      rw [if_neg (by simp)]
      cases ks with
      | nil =>
        cases tail with
        | none => rfl
        | some u => cases hwrite
      | cons k' ks =>
        rw [writeIndexes_cons] at hwrite
        cases hwrite
    | cons c ip =>
      have hc : c = 91 := by
        cases ks with
        | nil =>
          cases tail with
          | none => cases hwrite
          | some u => exact (List.cons.inj hwrite).1.symm
        | cons k' ks =>
          rw [writeIndexes_cons] at hwrite
          exact (List.cons.inj hwrite).1.symm
      subst hc
      rw [List.head?_cons, if_pos rfl, List.tail_cons, ih hks' hwrite]

/-! ## The places -/

theorem readIndex_unclosed {ip : List UInt8} (h : 93 ∉ ip) : readIndex ip = none := by
  have hskip : 93 ∉ skipSpace ip := by
    cases ip with
    | nil => exact h
    | cons c rest =>
      rw [skipSpace]
      split
      · exact fun hmem => h (List.mem_cons_of_mem c hmem)
      · exact h
  have hhead : (skipSpace ip).head? ≠ some 93 := fun hhead => hskip (List.mem_of_mem_head? hhead)
  unfold readIndex
  dsimp only
  rw [if_neg hhead, if_neg hskip]

/-- The places that the texts between brackets say. -/
def places (index : Index) (ks : List (List UInt8)) (tail : Option (List UInt8)) :
    List (Option (List UInt8)) :=
  match ks, tail with
  | [], some u => [index.unclosed u]
  | [], none => [index.name]
  | k :: ks, _ => index.name :: indexOf k :: ks.map indexOf

theorem places_behind (i : Option (List UInt8)) (ks : List (List UInt8))
    (tail : Option (List UInt8)) : places (.behind i) ks tail = i :: ks.map indexOf := by
  cases ks with
  | nil =>
    cases tail with
    | none => exact congrArg (fun name => [name]) (name_behind i)
    | some u =>
      cases i with
      | none => rfl
      | some index => rfl
  | cons k ks =>
    rw [places, name_behind]
    rfl

theorem tail_places (index : Index) (ks : List (List UInt8)) (tail : Option (List UInt8)) :
    (places index ks tail).tail = ks.map indexOf := by
  cases ks with
  | nil =>
    cases tail with
    | none => rfl
    | some u => rfl
  | cons k ks => rfl

theorem readPath_segments {ip : List UInt8} {levels : ℕ} {index : Index}
    {is : List (Option (List UInt8))} (h : readPath levels index ip = (is, false)) :
    is = places index (segments ip).1 (segments ip).2 := by
  induction ip using brackets_induction generalizing levels index is with
  | unclosed ip hip =>
    cases levels with
    | zero => cases h
    | succ levels =>
      rw [readPath, readIndex_unclosed hip, Prod.mk.injEq] at h
      rw [segments_unclosed hip, ← h.1]
      rfl
  | last k rest hk hrest =>
    cases levels with
    | zero => cases h
    | succ levels =>
      rw [readPath, readIndex_key hk] at h
      dsimp only at h
      rw [if_neg hrest, Prod.mk.injEq] at h
      rw [segments_closed hk, if_neg hrest, ← h.1]
      rfl
  | more k ip hk ih =>
    cases levels with
    | zero => cases h
    | succ levels =>
      rw [readPath, readIndex_key hk] at h
      dsimp only at h
      rw [List.head?_cons, if_pos rfl, List.tail_cons, Prod.mk.injEq] at h
      have hplaces := ih (Prod.ext rfl h.2)
      rw [places_behind] at hplaces
      rw [segments_more hk, ← h.1]
      exact congrArg (index.name :: ·) hplaces

/-! ## Two names of one place -/

/-- The parts of a name: what is in front of the first `[`, with underscores, the texts between
brackets, and the text behind a bracket that is not closed. -/
structure Parts where
  base : List UInt8
  keys : List (List UInt8)
  tail : Option (List UInt8)

def parts (varName : List UInt8) : Parts :=
  let varName := varName.dropWhile (· = 32)
  let base := (varName.takeWhile (· ≠ 91)).map underscore
  match varName.dropWhile (· ≠ 91) with
  | [] => ⟨base, [], none⟩
  | _ :: ip => ⟨base, (segments ip).1, (segments ip).2⟩

theorem segments_free (ip : List UInt8) :
    (∀ k ∈ (segments ip).1, 93 ∉ k) ∧ ∀ u ∈ (segments ip).2, 93 ∉ u := by
  induction ip using brackets_induction with
  | unclosed ip h =>
    rw [segments_unclosed h]
    exact ⟨fun k hk => absurd hk List.not_mem_nil, fun u hu => Option.some.inj hu ▸ h⟩
  | last k rest hk hrest =>
    rw [segments_closed hk, if_neg hrest]
    exact ⟨fun x hx => List.mem_singleton.mp hx ▸ hk, fun u hu => by cases hu⟩
  | more k ip hk ih =>
    rw [segments_more hk]
    refine ⟨fun x hx => ?_, ih.2⟩
    rcases List.mem_cons.mp hx with rfl | hx
    · exact hk
    · exact ih.1 x hx

/-- What `normalize_protected_variable` keeps of the parts. -/
theorem normalizeProtectedVariable_parts (varName : List UInt8) :
    normalizeProtectedVariable varName = (parts varName).base ++
      writeIndexes ((parts varName).keys.map strip) ((parts varName).tail.map strip) := by
  unfold normalizeProtectedVariable parts
  dsimp only
  split
  · exact (List.append_nil _).symm
  · exact congrArg _ (normalizeIndexes_segments _)

/-- Where `php_register_variable_ex` stores by the parts. -/
theorem storedAt_parts {maxInputNestingLevel : ℤ} {varName : List UInt8}
    {is : List (Option (List UInt8))} (h : storedAt maxInputNestingLevel varName = some is) :
    is = places (.var (parts varName).base) (parts varName).keys (parts varName).tail := by
  unfold storedAt at h
  unfold parts
  dsimp only at h ⊢
  split at h
  · cases h
  · split at h
    · exact (Option.some.inj h).symm
    · split at h
      · next hpath =>
        rw [Option.some.inj h] at hpath
        exact readPath_segments hpath
      · cases h

theorem underscore_eq_bracket {c : UInt8} (h : underscore c = 91) : c = 91 := by
  unfold underscore at h
  split at h
  · cases h
  · exact h

theorem not_mem_base (varName : List UInt8) : 91 ∉ (parts varName).base := by
  have hbase : ∀ s : List UInt8, 91 ∉ (s.takeWhile (· ≠ 91)).map underscore := by
    intro s hmem
    obtain ⟨c, hc, heq⟩ := List.mem_map.mp hmem
    have hne := List.mem_takeWhile_imp hc
    exact of_decide_eq_true hne (underscore_eq_bracket heq)
  unfold parts
  dsimp only
  split
  · exact hbase _
  · exact hbase _

theorem parts_free (varName : List UInt8) :
    (∀ k ∈ (parts varName).keys, 93 ∉ k) ∧ ∀ u ∈ (parts varName).tail, 93 ∉ u := by
  unfold parts
  dsimp only
  split
  · exact ⟨fun k hk => absurd hk List.not_mem_nil, fun u hu => by cases hu⟩
  · exact segments_free _

theorem writeIndexes_cases (ks : List (List UInt8)) (tail : Option (List UInt8)) :
    (ks = [] ∧ tail = none ∧ writeIndexes ks tail = []) ∨
      ∃ ip, writeIndexes ks tail = 91 :: ip := by
  cases ks with
  | nil =>
    cases tail with
    | none => exact Or.inl ⟨rfl, rfl, rfl⟩
    | some u => exact Or.inr ⟨u, rfl⟩
  | cons k ks => exact Or.inr ⟨_, writeIndexes_cons k ks tail⟩

theorem writeIndexes_injective {ks ks' : List (List UInt8)} {tail tail' : Option (List UInt8)}
    (hks : ∀ k ∈ ks, 93 ∉ k) (htail : ∀ u ∈ tail, 93 ∉ u) (hks' : ∀ k ∈ ks', 93 ∉ k)
    (htail' : ∀ u ∈ tail', 93 ∉ u) (h : writeIndexes ks tail = writeIndexes ks' tail') :
    ks = ks' ∧ tail = tail' := by
  obtain ⟨rfl, rfl, hnil⟩ | ⟨ip, hip⟩ := writeIndexes_cases ks tail
  · obtain ⟨rfl, rfl, -⟩ | ⟨ip, hip⟩ := writeIndexes_cases ks' tail'
    · exact ⟨rfl, rfl⟩
    · rw [hnil, hip] at h
      cases h
  · have hsame := (segments_writeIndexes hks htail hip).symm.trans
      (segments_writeIndexes hks' htail' (h ▸ hip))
    exact Prod.mk.injEq _ _ _ _ ▸ hsame

theorem takeWhile_writeIndexes {base : List UInt8} (hbase : 91 ∉ base) (ks : List (List UInt8))
    (tail : Option (List UInt8)) :
    (base ++ writeIndexes ks tail).takeWhile (· ≠ 91) = base := by
  obtain ⟨-, -, hnil⟩ | ⟨ip, hip⟩ := writeIndexes_cases ks tail
  · have hall : ∀ x ∈ base, decide (x ≠ 91) = true :=
      fun x hx => decide_eq_true fun heq : x = 91 => hbase (heq ▸ hx)
    rw [hnil, List.append_nil]
    exact List.takeWhile_eq_self_iff.mpr hall
  · rw [hip]
    exact takeWhile_before hbase ip

theorem normalizeProtectedVariable_eq_iff (a b : List UInt8) :
    normalizeProtectedVariable a = normalizeProtectedVariable b ↔
      (parts a).base = (parts b).base ∧ (parts a).keys.map strip = (parts b).keys.map strip ∧
        (parts a).tail.map strip = (parts b).tail.map strip := by
  rw [normalizeProtectedVariable_parts, normalizeProtectedVariable_parts]
  have hkeys : ∀ c, ∀ k ∈ (parts c).keys.map strip, 93 ∉ k := by
    intro c k hk
    obtain ⟨x, hx, rfl⟩ := List.mem_map.mp hk
    exact not_mem_dropWhile ((parts_free c).1 x hx)
  have htail : ∀ c, ∀ u ∈ (parts c).tail.map strip, 93 ∉ u := by
    intro c u hu
    obtain ⟨x, hx, rfl⟩ := Option.map_eq_some_iff.mp hu
    exact not_mem_dropWhile ((parts_free c).2 x hx)
  constructor
  · intro h
    have hbase := congrArg (List.takeWhile (· ≠ 91)) h
    rw [takeWhile_writeIndexes (not_mem_base a), takeWhile_writeIndexes (not_mem_base b)] at hbase
    rw [hbase] at h
    exact ⟨hbase, writeIndexes_injective (hkeys a) (htail a) (hkeys b) (htail b)
      (List.append_cancel_left h)⟩
  · rintro ⟨hbase, hks, hu⟩
    rw [hbase, hks, hu]

theorem map_strip_iff {ks ks' : List (List UInt8)} (h : ks.map indexOf = ks'.map indexOf) :
    ks.map strip = ks'.map strip ↔
      (ks.filter fun k => indexOf k = none).map strip =
        (ks'.filter fun k => indexOf k = none).map strip := by
  induction ks generalizing ks' with
  | nil =>
    rw [List.map_nil, eq_comm, List.map_eq_nil_iff] at h
    rw [h]
    exact Iff.rfl
  | cons k ks ih =>
    cases ks' with
    | nil => cases h
    | cons k' ks' =>
      rw [List.map_cons, List.map_cons, List.cons.injEq] at h
      obtain ⟨hk, hks⟩ := h
      rw [List.map_cons, List.map_cons, List.cons.injEq, ih hks]
      by_cases hnone : indexOf k = none
      · rw [List.filter_cons_of_pos (by rw [hnone]; rfl),
          List.filter_cons_of_pos (by rw [← hk, hnone]; rfl), List.map_cons, List.map_cons,
          List.cons.injEq]
      · have hsome : ∀ x : List UInt8, indexOf x ≠ none → indexOf x = some x := by
          intro x hx
          unfold indexOf at hx ⊢
          split
          · next hshort => exact absurd (if_pos hshort) hx
          · rfl
        have hnone' : indexOf k' ≠ none := hk ▸ hnone
        have heq : k = k' := by
          rw [hsome k hnone, hsome k' hnone'] at hk
          exact Option.some.inj hk
        rw [List.filter_cons_of_neg (by simpa using hnone),
          List.filter_cons_of_neg (by simpa [← heq] using hnone), heq]
        exact and_iff_right rfl

/-- Two names for one place are spelled alike: in front of the first bracket, behind a bracket that
is not closed, and in the brackets of the appends. -/
structure SpelledAlike (a b : Parts) : Prop where
  base : a.base = b.base
  appends : (a.keys.filter fun k => indexOf k = none).map strip =
    (b.keys.filter fun k => indexOf k = none).map strip
  tail : a.tail.map strip = b.tail.map strip

/-- **Names for one place are protected together when they are spelled alike.** -/
theorem isProtectedVariable_iff {maxInputNestingLevel : ℤ} {a b : List UInt8}
    {is : List (Option (List UInt8))} (ha : storedAt maxInputNestingLevel a = some is)
    (hb : storedAt maxInputNestingLevel b = some is) :
    (normalizeProtectedVariable a = normalizeProtectedVariable b ↔
        SpelledAlike (parts a) (parts b)) ∧
      ∀ names, isProtectedVariable (addProtectedVariable names a) b = true ↔
        SpelledAlike (parts a) (parts b) ∨ isProtectedVariable names b = true := by
  have hplaces := congrArg List.tail ((storedAt_parts ha).symm.trans (storedAt_parts hb))
  rw [tail_places, tail_places] at hplaces
  have hiff : normalizeProtectedVariable a = normalizeProtectedVariable b ↔
      SpelledAlike (parts a) (parts b) := by
    rw [normalizeProtectedVariable_eq_iff, map_strip_iff hplaces]
    exact ⟨fun ⟨hbase, hkeys, htail⟩ => ⟨hbase, hkeys, htail⟩,
      fun ⟨hbase, hkeys, htail⟩ => ⟨hbase, hkeys, htail⟩⟩
  refine ⟨hiff, fun names => ?_⟩
  rw [isProtectedVariable, isProtectedVariable, addProtectedVariable, List.contains_iff_mem,
    List.contains_iff_mem, List.mem_cons, ← hiff]
  exact or_congr_left eq_comm

/-- The names ` a.x` and `a_x`. -/
theorem isProtectedVariable_underscore :
    isProtectedVariable (addProtectedVariable [] [32, 97, 46, 120]) [97, 95, 120] = true := by
  have ha : storedAt 64 [32, 97, 46, 120] = some [some [97, 95, 120]] := by decide
  have hb : storedAt 64 [97, 95, 120] = some [some [97, 95, 120]] := by decide
  exact ((isProtectedVariable_iff ha hb).2 []).mpr (Or.inl ⟨by decide, by decide, by decide⟩)

/-- The name `a[x` is stored at the place of `a_x`, which does not protect it. -/
theorem not_isProtectedVariable_unclosed : ¬ ∀ (a b : List UInt8)
    (is : List (Option (List UInt8))), storedAt 64 a = some is → storedAt 64 b = some is →
    normalizeProtectedVariable a = normalizeProtectedVariable b := by
  intro hall
  have hsame := hall [97, 95, 120] [97, 91, 120] [some [97, 95, 120]] (by decide) (by decide)
  rw [normalizeProtectedVariable_eq_iff] at hsame
  exact absurd hsame.1 (by decide)

end PhpRuntime.Request
