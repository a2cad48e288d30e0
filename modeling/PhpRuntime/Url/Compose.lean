import PhpRuntime.Lib.Positional
import PhpRuntime.Url.Bounds

/-!
# Parsing a composed URL

A URL that is put together from its components gives these components again, but for a URL
without a scheme, and for one without a path whose query or fragment has a `/`.
-/

set_option autoImplicit false

namespace PhpRuntime.Url

open PhpRuntime.Lib
open PhpRuntime.Text (Undefined isdigit isalnum isspace toupper)

/-! ## The components -/

/-- The text of a component: not empty, without the delimiters that end it and without control
characters. -/
structure Part (delimiters : List UInt8) where
  bytes : List UInt8
  nonempty : bytes ≠ []
  plain : ∀ c ∈ bytes, c ∉ delimiters ∧ iscntrl c = false

abbrev Name : Type := Part [47, 63, 35, 58, 64, 91]

/-- The components of `scheme://[user[:pass]@]host[:port][path][?query][#fragment]`. -/
structure Parts where
  scheme : List UInt8
  scheme_chars : ∀ c ∈ scheme, isSchemeChar c = true
  not_file : scheme ≠ [102, 105, 108, 101]
  login : Option (Name × Option Name)
  host : Name
  port : Option { n : ℕ // 1 ≤ n ∧ n ≤ 65535 }
  path : Option (Part [63, 35])
  path_slash : ∀ p, path = some p → p.bytes.head? = some 47
  query : Option (Part [35])
  fragment : Option (Part [])

def partBytes {ds : List UInt8} (part : Option (Part ds)) : Option (List UInt8) :=
  part.map Part.bytes

/-- `user[:pass]@` -/
def loginText : Option (Name × Option Name) → List UInt8
  | none => []
  | some (user, none) => user.bytes ++ [64]
  | some (user, some pass) => user.bytes ++ 58 :: pass.bytes ++ [64]

def portDigits (n : ℕ) : List UInt8 := (Positional.numeral 10 n).map fun d => UInt8.ofNat (48 + d)

/-- `:port` -/
def portText : Option { n : ℕ // 1 ≤ n ∧ n ≤ 65535 } → List UInt8
  | none => []
  | some n => 58 :: portDigits n

/-- A component that nothing stands in front of. -/
def partText {ds : List UInt8} (part : Option (Part ds)) : List UInt8 := (partBytes part).getD []

def behind {ds : List UInt8} (c : UInt8) : Option (Part ds) → List UInt8
  | none => []
  | some part => c :: part.bytes

namespace Parts

def rest (u : Parts) : List UInt8 := partText u.path ++ behind 63 u.query ++ behind 35 u.fragment

def text (u : Parts) : List UInt8 :=
  u.scheme ++ [58, 47, 47] ++ loginText u.login ++ (u.host.bytes ++ portText u.port) ++ u.rest

/-- The components as `php_url_parse_ex` gives them. -/
def url (u : Parts) : Url where
  scheme := some u.scheme
  user := u.login.map fun l => l.1.bytes
  pass := u.login.bind fun l => partBytes l.2
  host := some u.host.bytes
  port := (u.port.map Subtype.val).getD 0
  path := partBytes u.path
  query := partBytes u.query
  fragment := partBytes u.fragment

end Parts

/-! ## Parts of the string -/

variable {str a b d : List UInt8} {c : UInt8} {s e p : ℕ} {ret : Url}

theorem replaceControlchars_part {ds : List UInt8} (part : Part ds) :
    replaceControlchars part.bytes = part.bytes :=
  replaceControlchars_eq fun c hc => (part.plain c hc).2

theorem slice_eq (hstr : str = a ++ b ++ d) (hs : s = a.length) (he : e = s + b.length) :
    (str.take e).drop s = b := by
  subst hstr hs he
  rw [← List.length_append, List.take_left, List.drop_left]

theorem copyPart_eq (hstr : str = a ++ b ++ d) (hs : s = a.length) (he : e = s + b.length) :
    copyPart str s e = .ok (replaceControlchars b) := by
  rw [copyPart_of_le (by omega), slice_eq hstr hs he]
  rw [hstr, List.length_append, List.length_append]
  omega

theorem firstIn_eq (hstr : str = a ++ b ++ c :: d) (hs : s = a.length) (hb : c ∉ b) (j : ℕ)
    (hj : s + b.length < j) (hj' : j ≤ str.length) :
    firstIn str c s j = some (s + b.length) := by
  subst hstr hs
  exact firstIn_parts a d hb hj hj'

theorem firstIn_absent (hstr : str = a ++ b ++ d) (hs : s = a.length) (he : e = s + b.length)
    (hb : c ∉ b) : firstIn str c s e = none := by
  subst hstr hs he
  exact firstIn_part a d hb

/-! ## Behind the host -/

theorem stringEnd_eq (h : 0 ∉ str) (hs : s ≤ str.length) : stringEnd str s = str.length := by
  have hall : (str.drop s).takeWhile (· ≠ 0) = str.drop s := by
    rw [List.takeWhile_eq_self_iff]
    intro c hc
    apply decide_eq_true
    rintro rfl
    exact h (List.mem_of_mem_drop hc)
  rw [stringEnd, hall, List.length_drop]
  omega

theorem setPath_eq {part : Option (Part [63, 35])} (hstr : str = a ++ partText part ++ d)
    (hs : s = a.length) (hp : p = s + (partText part).length) (hret : ret.path = none) :
    setPath str s p ret = .ok { ret with path := partBytes part } := by
  cases part with
  | none =>
    rw [setPath, if_neg fun h => h hp, partBytes, Option.map_none, ← hret]
  | some part =>
    have hpos := List.length_pos_of_ne_nil part.nonempty
    have hne : p ≠ s := by
      change p = s + part.bytes.length at hp
      omega
    rw [setPath, if_pos hne, copyPart_eq hstr hs hp, ok_bind]
    change _ = Except.ok { ret with path := some part.bytes }
    rw [← replaceControlchars_part part]
    rfl

theorem setQuery_eq {part : Part [35]} (hstr : str = a ++ part.bytes ++ d)
    (hs : p = a.length) (he : e = p + part.bytes.length) :
    setQuery str p e ret = .ok { ret with query := some part.bytes } := by
  have hpos := List.length_pos_of_ne_nil part.nonempty
  rw [setQuery, if_pos (by omega), copyPart_eq hstr hs he, ok_bind, replaceControlchars_part]

theorem labelParse_eq {part : Part []} (hstr : str = a ++ 35 :: part.bytes) (hp : p = a.length) :
    labelParse str p ret = .ok { ret with fragment := some part.bytes } := by
  have hpos := List.length_pos_of_ne_nil part.nonempty
  have hlen : str.length = p + 1 + part.bytes.length := by
    rw [hstr, List.length_append, List.length_cons]
    omega
  have hstr' : str = (a ++ [35]) ++ part.bytes ++ [] := by
    rw [hstr, List.append_assoc, List.append_assoc, List.append_nil]
    rfl
  rw [labelParse, if_pos (by omega), copyPart_eq hstr' (by rw [hp, List.length_append]; rfl) hlen, ok_bind,
    replaceControlchars_part]

theorem not_mem_partText {ds : List UInt8} {part : Option (Part ds)} (hc : c ∈ ds) :
    c ∉ partText part := by
  cases part with
  | none => exact List.not_mem_nil
  | some part => exact fun h => (part.plain c h).1 hc

theorem le_of_firstIn (hstr : str = a ++ b ++ d) (hs : s = a.length) (hb : c ∉ b)
    (h : firstIn str c s str.length = some p) : s + b.length ≤ p := by
  obtain ⟨hsp, hp, hfound, -⟩ := firstIn_eq_some (Nat.le_refl _) h
  apply Nat.le_of_not_lt
  intro hlt
  subst hstr hs
  exact getElem?_part_ne a d hb hsp hlt hfound

theorem nohost_query {path : Option (Part [63, 35])} {query : Part [35]}
    {fragment : Option (Part [])}
    (hstr : str = a ++ (partText path ++ 63 :: query.bytes ++ behind 35 fragment))
    (hs : s = a.length) (hnul : 0 ∉ str) (hpath : ret.path = none)
    (hfragment : ret.fragment = none) :
    nohost str s ret = .ok { ret with
      path := partBytes path
      query := some query.bytes
      fragment := partBytes fragment } := by
  have hstr₁ : str = a ++ partText path ++ 63 :: (query.bytes ++ behind 35 fragment) := by
    rw [hstr, List.append_assoc, List.append_assoc, List.cons_append]
  have hstr₂ : str = (a ++ (partText path ++ [63])) ++ query.bytes ++ behind 35 fragment := by
    rw [hstr]
    simp only [List.append_assoc, List.cons_append, List.nil_append]
  have hlen : str.length = s + (partText path).length + 1 + query.bytes.length +
      (behind 35 fragment).length := by
    rw [hstr₂, hs]
    simp only [List.length_append, List.length_cons, List.length_nil]
    omega
  have hquestion : firstIn str 63 s str.length = some (s + (partText path).length) :=
    firstIn_eq hstr₁ hs (not_mem_partText (by decide)) _ (by omega) (Nat.le_refl _)
  have hnohash : 35 ∉ partText path ++ 63 :: query.bytes := by
    intro h
    rcases List.mem_append.mp h with h | h
    · exact not_mem_partText (by decide) h
    rcases List.mem_cons.mp h with h | h
    · exact absurd h (by decide)
    · exact (query.plain 35 h).1 (by decide)
  have hset : setPath str s (s + (partText path).length) ret =
      .ok { ret with path := partBytes path } := setPath_eq hstr₁ hs rfl hpath
  have hbehind : (a ++ (partText path ++ [63])).length = s + (partText path).length + 1 := by
    rw [List.length_append, List.length_append, hs]
    rfl
  rw [nohost, memchr_of_le (by omega) (Nat.le_refl _), ok_bind, hquestion]
  dsimp only
  rw [strchr_of_le (by omega), ok_bind, stringEnd_eq hnul (by omega)]
  cases fragment with
  | none =>
    have hhash : firstIn str 35 s str.length = none := by
      apply firstIn_absent (d := []) _ hs _ hnohash
      · exact hstr.trans (List.append_assoc _ _ _).symm
      · rw [hlen, List.length_append, List.length_cons, behind]
        simp only [List.length_nil]
        omega
    rw [hhash]
    dsimp only
    rw [hset, ok_bind, setQuery_eq hstr₂ hbehind.symm]
    · change _ = Except.ok { ret with
        path := partBytes path
        query := some query.bytes
        fragment := none }
      rw [← hfragment]
    · rw [hlen, behind, List.length_nil, Nat.add_zero]
  | some fragment =>
    have hhash : firstIn str 35 s str.length =
        some (s + (partText path ++ 63 :: query.bytes).length) := by
      apply firstIn_eq (d := fragment.bytes) _ hs hnohash _ _ (Nat.le_refl _)
      · exact hstr.trans (List.append_assoc _ _ _).symm
      · rw [hlen, List.length_append, List.length_cons, behind, List.length_cons]
        omega
    have hlen' : (partText path ++ 63 :: query.bytes).length =
        (partText path).length + 1 + query.bytes.length := by
      rw [List.length_append, List.length_cons]
      omega
    have hlabel : ∀ ret : Url, labelParse str (s + (partText path ++ 63 :: query.bytes).length) ret =
        .ok { ret with fragment := some fragment.bytes } := by
      intro ret
      apply labelParse_eq (hstr.trans (List.append_assoc _ _ _).symm)
      rw [hs, ← List.length_append]
    rw [hhash]
    dsimp only
    rw [if_neg (by omega), hset, ok_bind, setQuery_eq hstr₂ hbehind.symm (by omega), ok_bind,
      hlabel]
    rfl

theorem nohost_fragment {path : Option (Part [63, 35])} {fragment : Part []}
    (hstr : str = a ++ partText path ++ 35 :: fragment.bytes) (hs : s = a.length)
    (hnul : 0 ∉ str) (hpath : ret.path = none) :
    nohost str s ret = .ok { ret with
      path := partBytes path
      fragment := some fragment.bytes } := by
  have hlen : str.length = s + (partText path).length + 1 + fragment.bytes.length := by
    rw [hstr, hs, List.length_append, List.length_append, List.length_cons]
    omega
  have hhash : firstIn str 35 s str.length = some (s + (partText path).length) :=
    firstIn_eq hstr hs (not_mem_partText (by decide)) _ (by omega) (Nat.le_refl _)
  have hset : setPath str s (s + (partText path).length) ret =
      .ok { ret with path := partBytes path } := setPath_eq hstr hs rfl hpath
  have hlabel : ∀ ret : Url, labelParse str (s + (partText path).length) ret =
      .ok { ret with fragment := some fragment.bytes } := fun ret =>
    labelParse_eq hstr (by rw [List.length_append, hs])
  rw [nohost, memchr_of_le (by omega) (Nat.le_refl _), ok_bind]
  cases hquestion : firstIn str 63 s str.length with
  | none =>
    dsimp only
    rw [memchr_of_le (by omega) (Nat.le_refl _), ok_bind, hhash]
    dsimp only
    rw [hset, ok_bind, hlabel]
  | some p =>
    have hle := le_of_firstIn hstr hs (not_mem_partText (by decide)) hquestion
    have hne : s + (partText path).length ≠ p := by
      rintro rfl
      have hfound := (firstIn_eq_some (Nat.le_refl _) hquestion).2.2.1
      have hfound' := (firstIn_eq_some (Nat.le_refl _) hhash).2.2.1
      exact absurd (Option.some.inj (hfound.symm.trans hfound')) (by decide)
    dsimp only
    rw [strchr_of_le (by omega), ok_bind, stringEnd_eq hnul (by omega), hhash]
    dsimp only
    rw [if_pos (by omega), hset, ok_bind, hlabel]

theorem nohost_path {path : Part [63, 35]} (hstr : str = a ++ path.bytes) (hs : s = a.length) :
    nohost str s ret = .ok { ret with path := some path.bytes } := by
  have hlen : str.length = s + path.bytes.length := by rw [hstr, hs, List.length_append]
  have hstr' : str = a ++ path.bytes ++ [] := by rw [hstr, List.append_nil]
  have absent : ∀ {c : UInt8}, c ∈ ([63, 35] : List UInt8) →
      firstIn str c s str.length = none := by
    intro c hc
    exact firstIn_absent hstr' hs hlen fun h => (path.plain c h).1 hc
  rw [nohost, memchr_of_le (by omega) (Nat.le_refl _), ok_bind, absent (by decide)]
  rw [memchr_of_le (by omega) (Nat.le_refl _), ok_bind, absent (by decide)]
  rw [copyPart_eq hstr' hs hlen, ok_bind, replaceControlchars_part]

theorem nohost_rest (u : Parts) (hstr : str = a ++ u.rest) (hs : s = a.length) (hnul : 0 ∉ str)
    (hrest : u.rest ≠ []) (hpath : ret.path = none) (hquery : ret.query = none)
    (hfragment : ret.fragment = none) :
    nohost str s ret = .ok { ret with
      path := partBytes u.path
      query := partBytes u.query
      fragment := partBytes u.fragment } := by
  rw [Parts.rest] at hstr hrest
  cases hq : u.query with
  | some query =>
    rw [hq] at hstr
    exact nohost_query hstr hs hnul hpath hfragment
  | none =>
    change _ = Except.ok { ret with
      path := partBytes u.path
      query := none
      fragment := partBytes u.fragment }
    rw [hq, behind, List.append_nil] at hstr hrest
    rw [← hquery]
    cases hf : u.fragment with
    | some fragment =>
      rw [hf] at hstr
      exact nohost_fragment (hstr.trans (List.append_assoc _ _ _).symm) hs hnul hpath
    | none =>
      change _ = Except.ok { ret with
        path := partBytes u.path
        query := ret.query
        fragment := none }
      rw [hf, behind, List.append_nil] at hstr hrest
      rw [← hfragment]
      cases hp : u.path with
      | some path =>
        rw [hp] at hstr
        exact nohost_path hstr hs
      | none => exact absurd (congrArg partText hp) hrest

/-! ## The host part -/

theorem getElem?_front (hstr : str = a ++ b ++ c :: d) (hs : s = a.length) :
    str[s + b.length]? = some c := by
  subst hstr hs
  exact getElem?_behind a b d

/-- A URL with a path has the first `/` there; without one, and without a `/` behind the host
part, this ends at the `?` or at the `#`. -/
theorem hostEndAt_eq (u : Parts) (hstr : str = a ++ b ++ u.rest) (hs : s = a.length)
    (hb : ∀ c ∈ ([47, 63, 35] : List UInt8), c ∉ b) (h : u.path ≠ none ∨ 47 ∉ u.rest) :
    hostEndAt str s = s + b.length := by
  have hlen : str.length = s + b.length + u.rest.length := by
    rw [hstr, hs, List.length_append, List.length_append]
  rw [hostEndAt]
  cases hp : u.path with
  | some path =>
    obtain ⟨bytes, hbytes⟩ := List.head?_eq_some_iff.mp (u.path_slash path hp)
    have hrest : u.rest = 47 :: (bytes ++ (behind 63 u.query ++ behind 35 u.fragment)) := by
      rw [Parts.rest, hp, List.append_assoc]
      change path.bytes ++ _ = _
      rw [hbytes, List.cons_append]
    have hslash : firstIn str 47 s str.length = some (s + b.length) := by
      apply firstIn_eq (hstr.trans (congrArg _ hrest)) hs (hb 47 (by decide)) _ _ (Nat.le_refl _)
      rw [hlen, hrest, List.length_cons]
      omega
    rw [hslash]
  | none =>
    have hno : 47 ∉ u.rest := h.resolve_left fun hne => hne hp
    have hrest : u.rest = behind 63 u.query ++ behind 35 u.fragment := by
      rw [Parts.rest, hp]
      rfl
    have hslash : firstIn str 47 s str.length = none := by
      apply firstIn_absent (b := b ++ u.rest) (d := []) _ hs
      · rw [hlen, List.length_append, Nat.add_assoc]
      · intro hmem
        exact (List.mem_append.mp hmem).elim (hb 47 (by decide)) hno
      · rw [hstr, List.append_nil, List.append_assoc]
    rw [hslash]
    cases hq : u.query with
    | some query =>
      rw [hrest, hq] at hstr
      have hquestion : firstIn str 63 s str.length = some (s + b.length) := by
        apply firstIn_eq hstr hs (hb 63 (by decide)) _ _ (Nat.le_refl _)
        rw [hlen, hrest, hq, List.length_append, behind, List.length_cons]
        omega
      rw [hquestion]
      cases hhash : firstIn str 35 s str.length with
      | none => rfl
      | some fragment =>
        have hle := le_of_firstIn hstr hs (hb 35 (by decide)) hhash
        dsimp only
        rw [if_neg (by omega)]
    | none =>
      rw [hrest, hq, behind, List.nil_append] at hstr
      cases hf : u.fragment with
      | some fragment =>
        rw [hf] at hstr
        have hhash : firstIn str 35 s str.length = some (s + b.length) := by
          apply firstIn_eq hstr hs (hb 35 (by decide)) _ _ (Nat.le_refl _)
          rw [hlen, hrest, hq, hf, behind, behind, List.nil_append, List.length_cons]
          omega
        rw [hhash]
        cases hquestion : firstIn str 63 s str.length with
        | none => rfl
        | some query =>
          have hle := le_of_firstIn hstr hs (hb 63 (by decide)) hquestion
          have hne : s + b.length ≠ query := by
            rintro rfl
            have hfound := (firstIn_eq_some (Nat.le_refl _) hquestion).2.2.1
            have hfound' := (firstIn_eq_some (Nat.le_refl _) hhash).2.2.1
            exact absurd (Option.some.inj (hfound.symm.trans hfound')) (by decide)
          dsimp only
          rw [if_pos (by omega)]
      | none =>
        rw [hrest, hq, hf, behind, behind, List.append_nil, List.length_nil] at hlen
        have absent : ∀ {c : UInt8}, c ∈ ([47, 63, 35] : List UInt8) →
            firstIn str c s str.length = none := fun hc =>
          firstIn_absent hstr hs hlen (hb _ hc)
        rw [absent (by decide), absent (by decide)]
        exact hlen

theorem Part.head {ds : List UInt8} (part : Part ds) : ∃ c bytes, part.bytes = c :: bytes :=
  List.exists_cons_of_ne_nil part.nonempty

theorem copyOver_eq {ds : List UInt8} {part : Part ds} {old : Option (List UInt8)}
    (hstr : str = a ++ part.bytes ++ d) (hs : s = a.length) (he : e = s + part.bytes.length) :
    copyOver str s e old = .ok (some part.bytes) := by
  have hpos := List.length_pos_of_ne_nil part.nonempty
  rw [copyOver, if_pos (by omega), copyPart_eq hstr hs he, ok_bind, replaceControlchars_part]

theorem lastIn_eq {f : List UInt8} (hstr : str = a ++ b ++ c :: (f ++ d)) (hs : s = a.length)
    (he : e = s + b.length + 1 + f.length) (hf : c ∉ f) :
    lastIn str c s e = some (s + b.length) := by
  have hstr' : str = (a ++ b ++ [c]) ++ f ++ d := by
    rw [hstr]
    simp only [List.append_assoc, List.cons_append, List.nil_append]
  have hlen : (a ++ b ++ [c]).length = s + b.length + 1 := by
    rw [List.length_append, List.length_append, hs]
    rfl
  apply lastIn_of_getElem? (Nat.le_add_right _ _) (by omega) (getElem?_front hstr hs)
  intro q hq hqe
  rw [hstr']
  exact getElem?_part_ne _ d hf (by omega) (by omega)

theorem login_eq {l : Option (Name × Option Name)} (hstr : str = a ++ loginText l ++ (b ++ d))
    (hs : s = a.length) (he : e = s + (loginText l).length + b.length) (hb : 64 ∉ b)
    (huser : ret.user = none) (hpass : ret.pass = none) :
    login str s e ret = .ok (s + (loginText l).length, { ret with
      user := l.map fun l => l.1.bytes
      pass := l.bind fun l => partBytes l.2 }) := by
  have hlen : str.length = e + d.length := by
    rw [hstr, he, hs, List.length_append, List.length_append, List.length_append, Nat.add_assoc,
      Nat.add_assoc]
    omega
  rw [login, memrchr_of_le (by omega) (by omega), ok_bind]
  rcases l with _ | ⟨user, _ | pass⟩
  · have habsent : lastIn str 64 s e = none := by
      rw [loginText, List.append_nil] at hstr
      rw [loginText, List.length_nil, Nat.add_zero] at he
      rw [hstr, ← List.append_assoc, he, hs]
      exact lastIn_part a d hb
    rw [habsent]
    cases ret
    cases huser
    cases hpass
    rfl
  · rw [loginText, List.length_append, List.length_cons, List.length_nil] at he
    have hstr₁ : str = a ++ user.bytes ++ 64 :: (b ++ d) := by
      rw [hstr, loginText]
      simp only [List.append_assoc, List.cons_append, List.nil_append]
    have hsign := lastIn_eq hstr₁ hs (by omega) hb
    rw [hsign]
    dsimp only
    rw [memchr_of_le (Nat.le_add_right _ _) (by omega), ok_bind,
      firstIn_absent hstr₁ hs rfl fun h => (user.plain 58 h).1 (by decide)]
    dsimp only
    rw [copyPart_eq hstr₁ hs rfl, ok_bind, replaceControlchars_part]
    change _ = Except.ok (s + (user.bytes ++ [64]).length,
      { ret with user := some user.bytes, pass := none })
    rw [← hpass, List.length_append]
    rfl
  · rw [loginText, List.length_append, List.length_append, List.length_cons, List.length_cons,
      List.length_nil] at he
    have hstr₁ : str = a ++ user.bytes ++ 58 :: (pass.bytes ++ 64 :: (b ++ d)) := by
      rw [hstr, loginText]
      simp only [List.append_assoc, List.cons_append, List.nil_append]
    have hstr₂ : str = a ++ (user.bytes ++ 58 :: pass.bytes) ++ 64 :: (b ++ d) := by
      rw [hstr₁]
      simp only [List.append_assoc, List.cons_append]
    have hstr₃ : str = (a ++ (user.bytes ++ [58])) ++ pass.bytes ++ 64 :: (b ++ d) := by
      rw [hstr₁]
      simp only [List.append_assoc, List.cons_append, List.nil_append]
    have hpasslen : (user.bytes ++ 58 :: pass.bytes).length =
        user.bytes.length + 1 + pass.bytes.length := by
      rw [List.length_append, List.length_cons]
      omega
    have hfront : (a ++ (user.bytes ++ [58])).length = s + user.bytes.length + 1 := by
      rw [List.length_append, List.length_append, hs]
      rfl
    rw [lastIn_eq hstr₂ hs (by omega) hb]
    dsimp only
    rw [memchr_of_le (Nat.le_add_right _ _) (by omega), ok_bind,
      firstIn_eq hstr₁ hs (fun h => (user.plain 58 h).1 (by decide)) _ (by omega) (by omega)]
    dsimp only
    rw [copyOver_eq hstr₁ hs rfl, ok_bind, copyOver_eq hstr₃ hfront.symm (by omega), ok_bind]
    change _ = Except.ok (s + (user.bytes ++ 58 :: pass.bytes ++ [64]).length,
      { ret with user := some user.bytes, pass := some pass.bytes })
    have hend : s + (user.bytes ++ 58 :: pass.bytes ++ [64]).length =
        s + (user.bytes ++ 58 :: pass.bytes).length + 1 := by
      simp only [List.length_append, List.length_cons, List.length_nil]
      omega
    rw [hend]

/-! ## The port -/

theorem toNat_digit {k : ℕ} (hk : k < 10) : (UInt8.ofNat (48 + k)).toNat = 48 + k :=
  UInt8.toNat_ofNat_of_lt (Nat.lt_trans (by omega : 48 + k < 58) (by decide))

theorem mem_portDigits {n : ℕ} (h : c ∈ portDigits n) : isdigit c = true := by
  obtain ⟨k, hk, rfl⟩ := List.mem_map.mp h
  have hlt := (Positional.canonical_numeral (b := 10) (by omega) n).lt k hk
  rw [Text.isdigit_iff, toNat_digit hlt]
  omega

theorem length_portDigits {n : ℕ} (h : n ≤ 65535) :
    1 ≤ (portDigits n).length ∧ (portDigits n).length ≤ 5 := by
  rw [portDigits, List.length_map]
  have hne := (Positional.canonical_numeral (b := 10) (by omega) n).ne
  exact ⟨List.length_pos_of_ne_nil hne,
    Positional.length_numeral_le (by omega) (by omega) (by omega)⟩

theorem digitsValue_portDigits (n : ℕ) : digitsValue (portDigits n) = n := by
  rw [digitsValue, portDigits, List.foldl_map]
  apply Eq.trans _ (Positional.value_numeral 10 n)
  apply List.foldl_ext
  intro v k hk
  have hlt := (Positional.canonical_numeral (b := 10) (by omega) n).lt k hk
  rw [toNat_digit hlt, Nat.add_sub_cancel_left]

theorem portValue_eq {n : ℕ} (hstr : str = a ++ portDigits n ++ d) (hs : s = a.length)
    (he : e = s + (portDigits n).length) (hn : 1 ≤ n ∧ n ≤ 65535) :
    portValue str s e = .ok (some n) := by
  have hlen := length_portDigits hn.2
  have hle : e ≤ str.length := by
    rw [hstr, List.length_append, List.length_append]
    omega
  rw [portValue, if_pos ⟨by omega, hle, by omega⟩, slice_eq hstr hs he,
    strtol_digits fun _ => mem_portDigits, digitsValue_portDigits]
  rw [if_pos (by omega), Int.toNat_natCast]

theorem portScan_eq (hs : 0 < s) (hp : p ≤ str.length) :
    portScan str s p = .ok (lastIn str 58 s (p + 1)) := by
  have found : ∀ q, str.getD q 0 = 58 ↔ str[q]? = some 58 := fun q =>
    ⟨fun h => getElem?_of_getD h (by decide), getD_of_getElem?⟩
  induction p with
  | zero => rw [portScan, readAt_bind hp, if_pos hs, lastIn, if_pos hs]
  | succ p ih =>
    rw [portScan, readAt_bind hp, lastIn]
    split
    · rfl
    split
    · next h => rw [if_pos ((found _).mp h)]
    · next h => rw [if_neg fun h' => h ((found _).mpr h'), ih (by omega)]

theorem finishHost_eq (u : Parts) (hhost : str = a ++ u.host.bytes ++ d)
    (hrest : str = b ++ u.rest) (hs : s = a.length) (hp : p = s + u.host.bytes.length)
    (he : e = b.length) (hnul : 0 ∉ str) (hpath : ret.path = none) (hquery : ret.query = none)
    (hfragment : ret.fragment = none) :
    finishHost str s p e ret = .ok (some { ret with
      host := some u.host.bytes
      path := partBytes u.path
      query := partBytes u.query
      fragment := partBytes u.fragment }) := by
  have hpos := List.length_pos_of_ne_nil u.host.nonempty
  have hlen : str.length = e + u.rest.length := by rw [hrest, he, List.length_append]
  rw [finishHost, if_neg (by omega), copyPart_eq hhost hs hp, ok_bind, replaceControlchars_part]
  dsimp only
  by_cases hnil : u.rest = []
  · have hparts : partBytes u.path = none ∧ partBytes u.query = none ∧
        partBytes u.fragment = none := by
      rw [Parts.rest, List.append_eq_nil_iff, List.append_eq_nil_iff] at hnil
      obtain ⟨⟨hp, hq⟩, hf⟩ := hnil
      refine ⟨?_, ?_, ?_⟩
      · cases h : u.path with
        | none => rfl
        | some path =>
          rw [h] at hp
          exact absurd hp path.nonempty
      · cases h : u.query with
        | none => rfl
        | some query =>
          rw [h] at hq
          cases hq
      · cases h : u.fragment with
        | none => rfl
        | some fragment =>
          rw [h] at hf
          cases hf
    rw [hnil, List.length_nil, Nat.add_zero] at hlen
    rw [if_pos hlen.symm, hparts.1, hparts.2.1, hparts.2.2]
    cases ret
    cases hpath
    cases hquery
    cases hfragment
    rfl
  · have hne := List.length_pos_of_ne_nil hnil
    have hnohost := @nohost_rest str b e { ret with host := some u.host.bytes } u hrest he hnul hnil
      hpath hquery hfragment
    rw [if_neg (by omega), hnohost]
    rfl

/-! ## The whole URL -/

theorem not_mem_hostText (u : Parts) (hc : c ∈ ([47, 63, 35, 64] : List UInt8)) :
    c ∉ u.host.bytes ++ portText u.port := by
  have hname : c ∈ ([47, 63, 35, 58, 64, 91] : List UInt8) ∧ c ≠ 58 ∧ isdigit c = false := by
    revert hc c
    decide +kernel
  intro h
  rcases List.mem_append.mp h with h | h
  · exact (u.host.plain c h).1 hname.1
  cases hp : u.port with
  | none =>
    rw [hp] at h
    cases h
  | some n =>
    rw [hp] at h
    rcases List.mem_cons.mp h with h | h
    · exact hname.2.1 h
    · exact absurd ((mem_portDigits h).symm.trans hname.2.2) (by decide)

theorem not_mem_loginText {l : Option (Name × Option Name)}
    (hc : c ∈ ([47, 63, 35] : List UInt8)) : c ∉ loginText l := by
  have hname : c ∈ ([47, 63, 35, 58, 64, 91] : List UInt8) ∧ c ≠ 58 ∧ c ≠ 64 := by
    revert hc c
    decide +kernel
  have hsign : c ∉ ([64] : List UInt8) := fun h => hname.2.2 (List.mem_singleton.mp h)
  intro h
  match l with
  | none => cases h
  | some (user, none) =>
    exact (List.mem_append.mp h).elim (fun h => (user.plain c h).1 hname.1) hsign
  | some (user, some pass) =>
    rcases List.mem_append.mp h with h | h
    · rcases List.mem_append.mp h with h | h
      · exact (user.plain c h).1 hname.1
      rcases List.mem_cons.mp h with h | h
      · exact hname.2.1 h
      · exact (pass.plain c h).1 hname.1
    · exact hsign h

theorem hostPart_eq (u : Parts) (hstr : str = a ++ loginText u.login ++
      (u.host.bytes ++ portText u.port) ++ u.rest)
    (hs : s = a.length) (hpos : 0 < s) (hnul : 0 ∉ str) (h : u.path ≠ none ∨ 47 ∉ u.rest) :
    hostPart str s { emptyUrl with scheme := some u.scheme } = .ok (some u.url) := by
  have hstr₁ : str = a ++ (loginText u.login ++ (u.host.bytes ++ portText u.port)) ++ u.rest := by
    rw [hstr, List.append_assoc a]
  have hstr₂ : str = a ++ loginText u.login ++
      ((u.host.bytes ++ portText u.port) ++ u.rest) := by
    rw [hstr, List.append_assoc (a ++ loginText u.login)]
  have hlen : s ≤ str.length := by
    rw [hstr₁, List.length_append, List.length_append, hs]
    omega
  obtain ⟨e, he⟩ : ∃ e, e = s + (loginText u.login).length +
    (u.host.bytes ++ portText u.port).length := ⟨_, rfl⟩
  have hend : hostEndAt str s = e := by
    rw [hostEndAt_eq u hstr₁ hs _ h, List.length_append, he, Nat.add_assoc]
    intro c hc hmem
    rcases List.mem_append.mp hmem with hmem | hmem
    · exact not_mem_loginText hc hmem
    · exact not_mem_hostText u (List.mem_append_left [64] hc) hmem
  obtain ⟨-, hle, hstop⟩ := hostEndAt_spec hlen
  rw [hend] at hle hstop
  have hlogin := @login_eq str a _ _ s e { emptyUrl with scheme := some u.scheme } _ hstr₂ hs he
    (not_mem_hostText u (by decide)) rfl rfl
  obtain ⟨t, ht⟩ : ∃ t, t = s + (loginText u.login).length := ⟨_, rfl⟩
  rw [← ht] at he hlogin
  have hfront : t = (a ++ loginText u.login).length := by rw [ht, hs, List.length_append]
  have hwhole : e = (a ++ loginText u.login ++ (u.host.bytes ++ portText u.port)).length := by
    rw [List.length_append, ← hfront, he]
  have hhost : str = (a ++ loginText u.login) ++ u.host.bytes ++ (portText u.port ++ u.rest) := by
    rw [hstr₂, List.append_assoc u.host.bytes, ← List.append_assoc (a ++ loginText u.login)]
  have hbrackets : isBracketed str t e = .ok false := by
    obtain ⟨c, bytes, hbytes⟩ := u.host.head
    have hfound : str[t]? = some c := by
      rw [hhost, hbytes, hfront, List.append_assoc _ (c :: bytes), List.getElem?_append_right
        (Nat.le_refl _), Nat.sub_self]
      rfl
    have hne : c ≠ 91 := by
      rintro rfl
      exact (u.host.plain 91 (hbytes ▸ List.mem_cons_self)).1 (by decide)
    rw [isBracketed_eq (by omega) hle fun heq => absurd (heq ▸ hstop) (by decide),
      getD_of_getElem? hfound, decide_eq_false fun h => hne h.1]
  have hcolon : str[e]? ≠ some 58 := fun h => absurd (getD_of_getElem? h ▸ hstop) (by decide)
  rw [hostPart, hostEnd_eq hlen, ok_bind, hend, hlogin, ok_bind, hbrackets, ok_bind,
    if_neg Bool.false_ne_true, portScan_eq (by omega) hle, ok_bind, lastIn, if_neg (by omega),
    if_neg hcolon]
  cases hport : u.port with
  | none =>
    rw [hport, portText, List.append_nil] at he
    have hscan : lastIn str 58 t e = none := by
      rw [hhost, hfront, he, hfront]
      exact lastIn_part _ _ fun h => (u.host.plain 58 h).1 (by decide)
    rw [hscan]
    rw [finishHost_eq u hhost hstr hfront he hwhole hnul rfl rfl rfl]
    rw [Parts.url, hport]
    rfl
  | some n =>
    rw [hport, portText, List.length_append, List.length_cons] at he
    rw [hport, portText, List.cons_append] at hhost
    have hscan : lastIn str 58 t e = some (t + u.host.bytes.length) := by
      apply lastIn_eq hhost hfront (by omega)
      exact fun h => absurd (mem_portDigits h) (by decide)
    have hdigits := length_portDigits n.2.2
    have hvalue : portValue str (t + u.host.bytes.length + 1) e = .ok (some n.1) := by
      apply portValue_eq (a := a ++ loginText u.login ++ u.host.bytes ++ [58]) (d := u.rest) _ _
        (by omega) n.2
      · rw [hhost]
        simp only [List.append_assoc, List.cons_append, List.nil_append]
      · rw [List.length_append, List.length_append, ← hfront]
        rfl
    rw [hscan]
    dsimp only
    have hnoport : ¬emptyUrl.port ≠ 0 := Decidable.not_not.mpr rfl
    rw [hostPort, if_neg hnoport, if_neg (by omega), if_pos (by omega), hvalue, ok_bind]
    dsimp only
    rw [finishHost_eq u hhost hstr hfront rfl hwhole hnul rfl rfl rfl]
    rw [Parts.url, hport]
    rfl

/-! ### A `/` behind the host part -/

section Slash

variable {url : Url}

theorem finishHost_path (hslash : str[e]? = some 47)
    (h : finishHost str s p e ret = .ok (some url)) : url.path ≠ none := by
  have he := (List.getElem?_eq_some_iff.mp hslash).1
  rw [finishHost] at h
  split at h
  · cases h
  obtain ⟨host, -, h⟩ := bind_eq_ok h
  rw [if_neg (Nat.ne_of_lt he)] at h
  obtain ⟨url', hurl, -, hpath⟩ :=
    @nohost_returns str e { ret with host := some host } (Nat.le_of_lt he)
  rw [hurl] at h
  cases h
  exact hpath hslash

theorem hostPort_path (hslash : str[e]? = some 47)
    (h : hostPort str s p e ret = .ok (some url)) : url.path ≠ none := by
  rw [hostPort] at h
  split at h
  · exact finishHost_path hslash h
  split at h
  · cases h
  split at h
  · obtain ⟨port, -, h⟩ := bind_eq_ok h
    cases port with
    | none => cases h
    | some port => exact finishHost_path hslash h
  · exact finishHost_path hslash h

theorem hostPart_path (hs : s ≤ str.length) (hslash : str[hostEndAt str s]? = some 47)
    (h : hostPart str s ret = .ok (some url)) : url.path ≠ none := by
  rw [hostPart, hostEnd_eq hs, ok_bind] at h
  obtain ⟨r, -, h⟩ := bind_eq_ok h
  obtain ⟨bracketed, -, h⟩ := bind_eq_ok h
  split at h
  · exact finishHost_path hslash h
  obtain ⟨colon, -, h⟩ := bind_eq_ok h
  cases colon with
  | none => exact finishHost_path hslash h
  | some p => exact hostPort_path hslash h

theorem hostEndAt_slash (hstr : str = a ++ b) (hs : s = a.length) (hb : 47 ∈ b) :
    str[hostEndAt str s]? = some 47 := by
  obtain ⟨q, hq⟩ := List.mem_iff_getElem?.mp hb
  have hat : str[s + q]? = some 47 := by
    rw [hstr, hs, List.getElem?_append_right (Nat.le_add_right _ _), Nat.add_sub_cancel_left, hq]
  rw [hostEndAt]
  cases h : firstIn str 47 s str.length with
  | some p => exact (firstIn_eq_some (Nat.le_refl _) h).2.2.1
  | none =>
    refine absurd hat (firstIn_eq_none (Nat.le_refl _) h (Nat.le_add_right _ _) ?_)
    exact (List.getElem?_eq_some_iff.mp hat).1

end Slash

/-! ### The scheme -/

theorem not_mem_text (u : Parts) : 0 ∉ u.text := by
  have hname : ∀ {ds : List UInt8} (part : Part ds), 0 ∉ part.bytes := fun part h =>
    absurd (part.plain 0 h).2 (by decide)
  have hpart : ∀ {ds : List UInt8} (part : Option (Part ds)), 0 ∉ partText part := by
    rintro ds (_ | part)
    · exact List.not_mem_nil
    · exact hname part
  have hbehind : ∀ {ds : List UInt8} {c : UInt8} (part : Option (Part ds)), c ≠ 0 →
      0 ∉ behind c part := by
    rintro ds c (_ | part) hc
    · exact List.not_mem_nil
    · exact fun h => (List.mem_cons.mp h).elim (fun h => hc h.symm) (hname part)
  have hlogin : 0 ∉ loginText u.login := by
    rcases u.login with _ | ⟨user, _ | pass⟩
    · exact List.not_mem_nil
    · exact fun h => (List.mem_append.mp h).elim (hname user) (by decide)
    · intro h
      rcases List.mem_append.mp h with h | h
      · rcases List.mem_append.mp h with h | h
        · exact hname user h
        rcases List.mem_cons.mp h with h | h
        · exact absurd h (by decide)
        · exact hname pass h
      · exact absurd h (by decide)
  have hport : 0 ∉ portText u.port := by
    rcases u.port with _ | n
    · exact List.not_mem_nil
    · intro h
      rcases List.mem_cons.mp h with h | h
      · exact absurd h (by decide)
      · exact absurd (mem_portDigits h) (by decide)
  intro h
  rw [Parts.text, Parts.rest] at h
  simp only [List.mem_append] at h
  rcases h with (((h | h) | h) | (h | h)) | ((h | h) | h)
  · exact absurd (u.scheme_chars 0 h) (by decide)
  · exact absurd h (by decide)
  · exact hlogin h
  · exact hname u.host h
  · exact hport h
  · exact hpart u.path h
  · exact hbehind u.query (by decide) h
  · exact hbehind u.fragment (by decide) h

theorem urlParse_eq (u : Parts) (hscheme : u.scheme ≠ []) :
    urlParse u.text =
      hostPart u.text (u.scheme.length + 3) { emptyUrl with scheme := some u.scheme } := by
  obtain ⟨str, hstr⟩ : ∃ str, str = u.text := ⟨_, rfl⟩
  obtain ⟨b, hb⟩ : ∃ b, b = loginText u.login ++ (u.host.bytes ++ portText u.port) := ⟨_, rfl⟩
  have hstr₁ : str = [] ++ u.scheme ++ 58 :: ([47, 47] ++ b ++ u.rest) := by
    rw [hstr, Parts.text, hb]
    simp only [List.append_assoc, List.cons_append, List.nil_append]
  have hpos := List.length_pos_of_ne_nil hscheme
  obtain ⟨c, bytes, hbytes⟩ : ∃ c bytes, b = c :: bytes := by
    apply List.exists_cons_of_ne_nil
    rw [hb]
    exact List.append_ne_nil_of_right_ne_nil _ (List.append_ne_nil_of_left_ne_nil u.host.nonempty _)
  have hc : c ≠ 47 := by
    rintro rfl
    have hmem : 47 ∈ b := hbytes ▸ List.mem_cons_self
    rw [hb] at hmem
    exact (List.mem_append.mp hmem).elim (not_mem_loginText (by decide))
      (not_mem_hostText u (by decide))
  have hlen : u.scheme.length + 3 < str.length := by
    rw [hstr₁, hbytes]
    simp only [List.length_append, List.length_cons, List.length_nil]
    omega
  have hat : ∀ i, str[u.scheme.length + 1 + i]? = ([47, 47] ++ b ++ u.rest)[i]? := by
    intro i
    rw [hstr₁, List.nil_append, List.getElem?_append_right (by omega), Nat.add_assoc,
      Nat.add_sub_cancel_left, Nat.add_comm 1 i, List.getElem?_cons_succ]
  have hcolon : firstIn str 58 0 str.length = some u.scheme.length := by
    have h := firstIn_eq (s := 0) hstr₁ rfl
      (fun h => absurd (u.scheme_chars 58 h) (by decide)) str.length (by omega) (Nat.le_refl _)
    rwa [Nat.zero_add] at h
  have htake : str.take u.scheme.length = u.scheme := by
    rw [hstr₁, List.nil_append]
    exact List.take_left
  have hcopy : copyPart str 0 u.scheme.length = .ok u.scheme := by
    have h := copyPart_eq (s := 0) hstr₁ rfl (Nat.zero_add _).symm
    rwa [replaceControlchars_eq fun c hc => ((isSchemeChar_spec c).2 (u.scheme_chars c hc)).1] at h
  have hslash : str.getD (u.scheme.length + 1) 0 = 47 := getD_of_getElem? (hat 0)
  have hslash' : str.getD (u.scheme.length + 2) 0 = 47 := getD_of_getElem? (hat 1)
  have hfirst : str.getD (u.scheme.length + 3) 0 = c :=
    getD_of_getElem? ((hat 2).trans (by rw [hbytes]; rfl))
  rw [← hstr, urlParse, memchr_of_le (Nat.zero_le _) (Nat.le_refl _), ok_bind, hcolon]
  dsimp only
  rw [if_pos hpos, htake, if_pos (List.all_eq_true.mpr u.scheme_chars), withScheme,
    readAt_bind (by omega), hslash, if_neg (by decide), if_neg (by decide), hcopy, ok_bind]
  rw [readAt_bind (by omega), hslash', if_pos rfl]
  split
  · rw [readAt_bind (by omega), hfirst, if_neg hc]
  · rfl

theorem urlParse_noScheme (u : Parts) (hscheme : u.scheme = []) {url : Url}
    (h : urlParse u.text = .ok (some url)) : url.host = none := by
  obtain ⟨d, hd⟩ : ∃ d, u.text = 58 :: 47 :: 47 :: d := by
    refine ⟨loginText u.login ++ (u.host.bytes ++ portText u.port) ++ u.rest, ?_⟩
    rw [Parts.text, hscheme]
    simp only [List.append_assoc, List.cons_append, List.nil_append]
  have hcolon : firstIn u.text 58 0 u.text.length = some 0 := by
    apply firstIn_of_getElem? (Nat.le_refl _) (Nat.le_refl 0) _ _ (fun q _ hq => by omega)
    · rw [hd]
      exact Nat.succ_pos _
    · rw [hd]
      rfl
  have hdigits : digitsAt u.text 1 = [] := by
    rw [hd]
    rfl
  have hone : 1 ≤ u.text.length := by
    rw [hd]
    exact Nat.succ_pos _
  have hat : u.text.getD 0 0 = 58 ∧ u.text.getD 1 0 = 47 := by
    rw [hd]
    exact ⟨rfl, rfl⟩
  rw [urlParse, memchr_of_le (Nat.zero_le _) (Nat.le_refl _), ok_bind, hcolon] at h
  dsimp only at h
  rw [if_neg (Nat.lt_irrefl 0), parsePort] at h
  rw [Nat.zero_add, hdigits, List.length_nil, Nat.min_zero, Nat.add_zero, readAt_bind hone, hat.2,
    if_neg (by decide), if_neg (by decide), relativeScheme, readAt_bind (Nat.zero_le _), hat.1,
    if_neg (by decide)] at h
  obtain ⟨url', hurl, hkeeps, -⟩ := @nohost_returns u.text 0 emptyUrl (Nat.zero_le _)
  rw [hurl] at h
  cases h
  exact hkeeps.host

/-- The parser gives the components of a composed URL back, exactly when there is a scheme and
the first `/` behind the host part is not in the query or in the fragment. -/
theorem urlParse_text_iff (u : Parts) :
    urlParse u.text = .ok (some u.url) ↔ u.scheme ≠ [] ∧ (u.path ≠ none ∨ 47 ∉ u.rest) := by
  have hlen : (u.scheme ++ [58, 47, 47]).length = u.scheme.length + 3 := List.length_append
  have hstr : u.text = u.scheme ++ [58, 47, 47] ++
      (loginText u.login ++ (u.host.bytes ++ portText u.port) ++ u.rest) := by
    rw [Parts.text]
    simp only [List.append_assoc]
  constructor
  · intro h
    have hscheme : u.scheme ≠ [] := by
      intro hscheme
      cases urlParse_noScheme u hscheme h
    refine ⟨hscheme, ?_⟩
    by_contra hcond
    rw [not_or, Decidable.not_not, Decidable.not_not] at hcond
    rw [urlParse_eq u hscheme] at h
    apply hostPart_path _ _ h
    · exact congrArg partBytes hcond.1
    · rw [hstr, List.length_append, hlen]
      exact Nat.le_add_right _ _
    · exact hostEndAt_slash hstr hlen.symm (List.mem_append_right _ hcond.2)
  · rintro ⟨hscheme, hcond⟩
    rw [urlParse_eq u hscheme]
    exact hostPart_eq u rfl hlen.symm (Nat.succ_pos _) (not_mem_text u) hcond

/-- `a://h?x/y` -/
def slashInQuery : Parts where
  scheme := [97]
  scheme_chars := by decide +kernel
  not_file := by decide
  login := none
  host := ⟨[104], by decide +kernel, by decide +kernel⟩
  port := none
  path := none
  path_slash := fun _ h => by cases h
  query := some ⟨[120, 47, 121], by decide +kernel, by decide +kernel⟩
  fragment := none

/-- `php_url_parse_ex` gives the host `h?x` and the path `/y`. -/
theorem not_urlParse_text : ¬ ∀ u : Parts, urlParse u.text = .ok (some u.url) := by
  intro h
  have hurl := h slashInQuery
  have hparse : urlParse slashInQuery.text =
      .ok (some { emptyUrl with
        scheme := some [97]
        host := some [104, 63, 120]
        path := some [47, 121] }) := rfl
  rw [hparse] at hurl
  cases hurl

end PhpRuntime.Url
