import Mathlib.Data.Int.Notation
import PhpRuntime.Lib.ShellQuoting

/-!
# Shell escapes

`php_escape_shell_cmd` and `php_escape_shell_arg` (`ext/standard/exec.c`), for POSIX shells. The
characters of a text are what `php_mblen` says: it is given, as it depends on the locale.
-/

set_option autoImplicit false

namespace PhpRuntime.Text

open PhpRuntime.Lib.ShellQuoting

variable (php_mblen : List UInt8 → ℤ)

/-! ## The code -/

/-- The characters that get a backslash, apart from quotes. -/
def shellEscaped : List UInt8 :=
  [35, 38, 59, 96, 124, 42, 63, 126, 60, 62, 94, 40, 41, 91, 93, 123, 125, 36, 92, 10, 255]

/-- The loop of `php_escape_shell_cmd`, where `p` is the quote that the pointer points to. -/
def escapeShellCmd (p : Option UInt8) (str : List UInt8) : List UInt8 :=
  match str with
  | [] => []
  | c :: rest =>
    let mb_len := php_mblen (c :: rest)
    if mb_len < 0 then escapeShellCmd p rest
    else if 1 < mb_len then
      (c :: rest).take mb_len.toNat ++ escapeShellCmd p ((c :: rest).drop mb_len.toNat)
    else if c = 34 ∨ c = 39 then
      if p = none ∧ c ∈ rest then c :: escapeShellCmd (some c) rest
      else if p = some c then c :: escapeShellCmd none rest
      else 92 :: c :: escapeShellCmd p rest
    else if c ∈ shellEscaped then 92 :: c :: escapeShellCmd p rest
    else c :: escapeShellCmd p rest
termination_by str.length
decreasing_by
  all_goals
    simp only [List.length_drop, List.length_cons]
    omega

/-- `php_escape_shell_cmd` -/
def phpEscapeShellCmd (str : List UInt8) : List UInt8 := escapeShellCmd php_mblen none str

/-- The loop of `php_escape_shell_arg`. -/
def escapeShellArg (str : List UInt8) : List UInt8 :=
  match str with
  | [] => []
  | c :: rest =>
    let mb_len := php_mblen (c :: rest)
    if mb_len < 0 then escapeShellArg rest
    else if 1 < mb_len then
      (c :: rest).take mb_len.toNat ++ escapeShellArg ((c :: rest).drop mb_len.toNat)
    else if c = 39 then 39 :: 92 :: 39 :: 39 :: escapeShellArg rest
    else c :: escapeShellArg rest
termination_by str.length
decreasing_by
  all_goals
    simp only [List.length_drop, List.length_cons]
    omega

/-- `php_escape_shell_arg` -/
def phpEscapeShellArg (str : List UInt8) : List UInt8 :=
  39 :: (escapeShellArg php_mblen str ++ [39])

/-! ## Characters -/

/-- The characters of a text, without the bytes that do not begin one. -/
def characters (str : List UInt8) : List Character :=
  match str with
  | [] => []
  | c :: rest =>
    let mb_len := php_mblen (c :: rest)
    if mb_len < 0 then characters rest
    else if 1 < mb_len then
      (c :: rest).take mb_len.toNat :: characters ((c :: rest).drop mb_len.toNat)
    else [c] :: characters rest
termination_by str.length
decreasing_by
  all_goals
    simp only [List.length_drop, List.length_cons]
    omega

/-- A locale where no byte of a character is a quote or a backslash, apart from these themselves. A
character is told by its own bytes. -/
structure PlainQuotes : Prop where
  bounded : ∀ s, php_mblen s ≤ s.length
  single : ∀ c rest, 0 ≤ php_mblen (c :: rest) → php_mblen (c :: rest) ≤ 1 → ∀ rest',
    0 ≤ php_mblen (c :: rest') ∧ php_mblen (c :: rest') ≤ 1
  multiple : ∀ s, 1 < php_mblen s → ∀ rest,
    php_mblen (s.take (php_mblen s).toNat ++ rest) = php_mblen s
  quotes : ∀ c ∈ [(34 : UInt8), 39, 92], ∀ rest, php_mblen (c :: rest) = 1
  free : ∀ s, 1 < php_mblen s → ∀ c ∈ s.take (php_mblen s).toNat, c ∉ [(34 : UInt8), 39, 92]

variable {php_mblen} {s : List UInt8}

/-- The bytes are a character, whatever follows. -/
def WholeCharacter (php_mblen : List UInt8 → ℤ) (k : Character) : Prop :=
  (∃ c, k = [c] ∧ ∀ rest, 0 ≤ php_mblen (c :: rest) ∧ php_mblen (c :: rest) ≤ 1) ∨
    2 ≤ k.length ∧ ∀ rest, php_mblen (k ++ rest) = k.length

theorem characters_append {k : Character} (hk : WholeCharacter php_mblen k) (rest : List UInt8) :
    characters php_mblen (k ++ rest) = k :: characters php_mblen rest := by
  obtain ⟨c, rfl, hc⟩ | ⟨hlen, hk⟩ := hk
  · have hrange := hc rest
    rw [List.singleton_append, characters]
    rw [if_neg (by omega), if_neg (by omega)]
  · cases k with
    | nil => cases hlen
    | cons c k =>
      have hlen' := hk rest
      rw [List.cons_append] at hlen' ⊢
      rw [characters]
      rw [hlen', if_neg (by omega), if_pos (by omega), Int.toNat_natCast, ← List.cons_append,
        List.take_left, List.drop_left]

theorem characters_flatten {ks : List Character} (h : ∀ k ∈ ks, WholeCharacter php_mblen k) :
    characters php_mblen ks.flatten = ks := by
  induction ks with
  | nil => rw [List.flatten_nil, characters]
  | cons k ks ih =>
    rw [List.flatten_cons, characters_append (h k List.mem_cons_self),
      ih fun x hx => h x (List.mem_cons_of_mem k hx)]

theorem whole_characters (h : PlainQuotes php_mblen) (s : List UInt8) :
    ∀ k ∈ characters php_mblen s, WholeCharacter php_mblen k := by
  fun_induction characters php_mblen s with
  | case1 => exact fun k hk => absurd hk List.not_mem_nil
  | case2 c rest mb_len hneg ih => exact ih
  | case3 c rest mb_len hneg hmany ih =>
    intro k hk
    rcases List.mem_cons.mp hk with rfl | hk
    · right
      have hlen : (((c :: rest).take mb_len.toNat).length : ℤ) = mb_len := by
        have hle := h.bounded (c :: rest)
        rw [List.length_take]
        omega
      refine ⟨by omega, fun rest' => ?_⟩
      rw [hlen]
      exact h.multiple (c :: rest) hmany rest'
    · exact ih k hk
  | case4 c rest mb_len hneg hmany ih =>
    intro k hk
    rcases List.mem_cons.mp hk with rfl | hk
    · exact Or.inl ⟨c, rfl, h.single c rest (by omega) (by omega)⟩
    · exact ih k hk

theorem whole_quote (h : PlainQuotes php_mblen) {c : UInt8} (hc : c ∈ [(34 : UInt8), 39, 92]) :
    WholeCharacter php_mblen [c] := by
  refine Or.inl ⟨c, rfl, fun rest => ?_⟩
  rw [h.quotes c hc rest]
  decide

theorem mem_characters (h : PlainQuotes php_mblen) {c : UInt8} (hc : c ∈ [(34 : UInt8), 39, 92])
    (s : List UInt8) : [c] ∈ characters php_mblen s ↔ c ∈ s := by
  fun_induction characters php_mblen s with
  | case1 => simp
  | case2 d rest mb_len hneg ih =>
    have hne : c ≠ d := by
      rintro rfl
      have hone := h.quotes c hc rest
      omega
    rw [ih, List.mem_cons]
    exact ⟨Or.inr, fun hmem => hmem.resolve_left hne⟩
  | case3 d rest mb_len hneg hmany ih =>
    have hnot : c ∉ (d :: rest).take mb_len.toNat :=
      fun hmem => h.free (d :: rest) hmany c hmem hc
    have hne : [c] ≠ (d :: rest).take mb_len.toNat := by
      intro heq
      exact hnot (heq ▸ List.mem_singleton_self c)
    rw [List.mem_cons, ih]
    conv => rhs; rw [← List.take_append_drop mb_len.toNat (d :: rest), List.mem_append]
    exact ⟨fun hmem => Or.inr (hmem.resolve_left hne), fun hmem => Or.inr (hmem.resolve_left hnot)⟩
  | case4 d rest mb_len hneg hmany ih =>
    rw [List.mem_cons, List.mem_cons, ih]
    simp

/-! ## The escapes, by characters -/

/-- What `php_escape_shell_arg` does to the characters. -/
def argChars : List Character → List Character
  | [] => []
  | k :: rest =>
    if k = singleQuote then singleQuote :: backslash :: singleQuote :: singleQuote :: argChars rest
    else k :: argChars rest

/-- What `php_escape_shell_cmd` does to the characters. -/
def cmdChars (p : Option Character) : List Character → List Character
  | [] => []
  | k :: rest =>
    if k = doubleQuote ∨ k = singleQuote then
      if p = none ∧ k ∈ rest then k :: cmdChars (some k) rest
      else if p = some k then k :: cmdChars none rest
      else backslash :: k :: cmdChars p rest
    else if k ∈ shellEscaped.map fun c => [c] then backslash :: k :: cmdChars p rest
    else k :: cmdChars p rest

theorem escapeShellArg_eq (h : PlainQuotes php_mblen) (s : List UInt8) :
    escapeShellArg php_mblen s = (argChars (characters php_mblen s)).flatten := by
  fun_induction characters php_mblen s with
  | case1 => rw [escapeShellArg]; rfl
  | case2 c rest mb_len hneg ih =>
    rw [escapeShellArg]
    rw [if_pos hneg, ih]
  | case3 c rest mb_len hneg hmany ih =>
    have hne : (c :: rest).take mb_len.toNat ≠ singleQuote := by
      intro heq
      exact h.free (c :: rest) hmany 39 (heq ▸ List.mem_singleton_self 39) (by decide)
    rw [escapeShellArg]
    rw [if_neg hneg, if_pos hmany, ih, argChars, if_neg hne, List.flatten_cons]
  | case4 c rest mb_len hneg hmany ih =>
    rw [escapeShellArg]
    rw [if_neg hneg, if_neg hmany, ih, argChars]
    have hsingle : [c] = singleQuote ↔ c = 39 := List.singleton_inj
    by_cases hc : c = 39
    · rw [if_pos hc, if_pos (hsingle.mpr hc)]
      rfl
    · rw [if_neg hc, if_neg (mt hsingle.mp hc)]
      rfl

theorem escapeShellCmd_eq (h : PlainQuotes php_mblen) (p : Option UInt8) (s : List UInt8) :
    escapeShellCmd php_mblen p s =
      (cmdChars (p.map fun c => [c]) (characters php_mblen s)).flatten := by
  fun_induction characters php_mblen s generalizing p with
  | case1 => rw [escapeShellCmd]; rfl
  | case2 c rest mb_len hneg ih =>
    rw [escapeShellCmd]
    rw [if_pos hneg, ih]
  | case3 c rest mb_len hneg hmany ih =>
    have hfree := h.free (c :: rest) hmany
    have hne : ¬ ((c :: rest).take mb_len.toNat = doubleQuote ∨
        (c :: rest).take mb_len.toNat = singleQuote) := by
      rintro (heq | heq)
      · exact hfree 34 (heq ▸ List.mem_singleton_self 34) (by decide)
      · exact hfree 39 (heq ▸ List.mem_singleton_self 39) (by decide)
    have hlen := h.bounded (c :: rest)
    have hnot : ¬ (c :: rest).take mb_len.toNat ∈ shellEscaped.map fun c => [c] := by
      intro hmem
      obtain ⟨d, -, heq⟩ := List.mem_map.mp hmem
      have hone := congrArg List.length heq
      rw [List.length_take, List.length_singleton] at hone
      omega
    rw [escapeShellCmd]
    rw [if_neg hneg, if_pos hmany, ih, cmdChars, if_neg hne, if_neg hnot, List.flatten_cons]
  | case4 c rest mb_len hneg hmany ih =>
    have hquote : ([c] = doubleQuote ∨ [c] = singleQuote) ↔ (c = 34 ∨ c = 39) := by
      simp [doubleQuote, singleQuote]
    have hescaped : ([c] ∈ shellEscaped.map fun c => [c]) ↔ c ∈ shellEscaped := by simp
    have hsome : (p.map (fun c => [c]) = some [c]) ↔ p = some c := by
      cases p with
      | none => simp
      | some q => simp
    rw [escapeShellCmd]
    rw [if_neg hneg, if_neg hmany, cmdChars]
    by_cases hq : c = 34 ∨ c = 39
    · have hmem := mem_characters h (c := c) (by rcases hq with rfl | rfl <;> decide) rest
      have hfound : (p.map (fun c => [c]) = none ∧ [c] ∈ characters php_mblen rest) ↔
          (p = none ∧ c ∈ rest) := by rw [hmem, Option.map_eq_none_iff]
      rw [if_pos hq, if_pos (hquote.mpr hq)]
      by_cases hopen : p = none ∧ c ∈ rest
      · rw [if_pos hopen, if_pos (hfound.mpr hopen), ih]
        rfl
      rw [if_neg hopen, if_neg (mt hfound.mp hopen)]
      by_cases hclose : p = some c
      · rw [if_pos hclose, if_pos (hsome.mpr hclose), ih]
        rfl
      · rw [if_neg hclose, if_neg (mt hsome.mp hclose), ih]
        rfl
    · rw [if_neg hq, if_neg (mt hquote.mp hq)]
      by_cases hesc : c ∈ shellEscaped
      · rw [if_pos hesc, if_pos (hescaped.mpr hesc), ih]
        rfl
      · rw [if_neg hesc, if_neg (mt hescaped.mp hesc), ih]
        rfl

theorem mem_argChars {ks : List Character} {k : Character} (h : k ∈ argChars ks) :
    k ∈ ks ∨ k = singleQuote ∨ k = backslash := by
  induction ks with
  | nil => cases h
  | cons x ks ih =>
    rw [argChars] at h
    split at h
    · simp only [List.mem_cons] at h ⊢
      grind
    · simp only [List.mem_cons] at h ⊢
      grind

theorem mem_cmdChars {p : Option Character} {ks : List Character} {k : Character}
    (h : k ∈ cmdChars p ks) : k ∈ ks ∨ k = backslash := by
  induction ks generalizing p with
  | nil => cases h
  | cons x ks ih =>
    have hcons : ∀ {p'}, k ∈ x :: cmdChars p' ks → k ∈ x :: ks ∨ k = backslash := by
      intro p' hmem
      rcases List.mem_cons.mp hmem with rfl | hmem
      · exact Or.inl List.mem_cons_self
      · exact (ih hmem).imp_left (List.mem_cons_of_mem x)
    have hbackslash : ∀ {p'}, k ∈ backslash :: x :: cmdChars p' ks →
        k ∈ x :: ks ∨ k = backslash := by
      intro p' hmem
      rcases List.mem_cons.mp hmem with rfl | hmem
      · exact Or.inr rfl
      · exact hcons hmem
    rw [cmdChars] at h
    split at h
    · split at h
      · exact hcons h
      · split at h
        · exact hcons h
        · exact hbackslash h
    · split at h
      · exact hbackslash h
      · exact hcons h

theorem characters_phpEscapeShellArg (h : PlainQuotes php_mblen) (s : List UInt8) :
    characters php_mblen (phpEscapeShellArg php_mblen s) =
      singleQuote :: (argChars (characters php_mblen s) ++ [singleQuote]) := by
  have hquote : WholeCharacter php_mblen singleQuote := whole_quote h (by decide)
  have hbytes : phpEscapeShellArg php_mblen s =
      (singleQuote :: (argChars (characters php_mblen s) ++ [singleQuote])).flatten := by
    rw [phpEscapeShellArg, escapeShellArg_eq h, List.flatten_cons, List.flatten_append]
    rfl
  rw [hbytes]
  refine characters_flatten fun k hk => ?_
  simp only [List.mem_cons, List.mem_append, List.not_mem_nil, or_false] at hk
  rcases hk with rfl | hk | rfl
  · exact hquote
  · rcases mem_argChars hk with hk | rfl | rfl
    · exact whole_characters h s k hk
    · exact hquote
    · exact whole_quote h (by decide)
  · exact hquote

theorem characters_phpEscapeShellCmd (h : PlainQuotes php_mblen) (s : List UInt8) :
    characters php_mblen (phpEscapeShellCmd php_mblen s) =
      cmdChars none (characters php_mblen s) := by
  rw [phpEscapeShellCmd, escapeShellCmd_eq h]
  refine characters_flatten fun k hk => ?_
  rcases mem_cmdChars hk with hk | rfl
  · exact whole_characters h s k hk
  · exact whole_quote h (by decide)

/-! ## How the shell reads them -/

theorem value_argChars (ks : List Character) :
    value .single (argChars ks ++ [singleQuote]) = some ks := by
  induction ks with
  | nil => rfl
  | cons k ks ih =>
    rw [argChars]
    by_cases hk : k = singleQuote
    · rw [if_pos hk, hk]
      have hgone : value .single (singleQuote :: backslash :: singleQuote :: singleQuote ::
          (argChars ks ++ [singleQuote])) =
          (value .single (argChars ks ++ [singleQuote])).map (singleQuote :: ·) := by
        rw [value_skip rfl, value_skip rfl, value_keep rfl, value_skip rfl]
        rfl
      rw [List.cons_append, List.cons_append, List.cons_append, List.cons_append, hgone, ih]
      rfl
    · have hkeep : readChar .single k = some [k] := if_neg hk
      rw [if_neg hk, List.cons_append, value_keep hkeep, step_single hk, ih]
      rfl

/-- The state of the shell while `p` is the quote to come. -/
def quoteState (p : Option Character) : State :=
  match p with
  | none => .unquoted
  | some q => if q = singleQuote then .single else .double

/-- The characters that the escapes are about: `#&;|` and a backquote, `*?~<>^()[]{}$` and the line
break. -/
def commandSpecial : List Character :=
  [[35], [38], [59], [96], [124], [42], [63], [126], [60], [62], [94], [40], [41], [91], [93],
    [123], [125], [36], [10]]

/-- The character is between single quotes, or has an active backslash in front of it, or is between
double quotes and has no meaning there. -/
def Harmless (s : State) (c : Character) : Prop :=
  s = .single ∨ Active s c ∨
    (s = .double ∨ s = .doubleEscaped) ∧ c ∉ [([36] : Character), [96], [10]]

theorem step_backslash {p : Option Character} {k : Character}
    (h : p ≠ some singleQuote ∨ k ≠ singleQuote) :
    step (step (quoteState p) backslash) k = quoteState p := by
  unfold quoteState
  cases p with
  | none => rfl
  | some q =>
    dsimp only
    by_cases hq : q = singleQuote
    · rw [if_pos hq]
      exact step_single (h.resolve_left fun hne => hne (congrArg some hq))
    · rw [if_neg hq]
      rfl

theorem harmless_backslash {p : Option Character} (k : Character) :
    Harmless (step (quoteState p) backslash) k := by
  unfold quoteState
  cases p with
  | none => exact Or.inr (Or.inl (Or.inl rfl))
  | some q =>
    dsimp only
    by_cases hq : q = singleQuote
    · rw [if_pos hq]
      exact Or.inl rfl
    · rw [if_neg hq]
      by_cases hactive : activeInDouble k = true
      · exact Or.inr (Or.inl (Or.inr ⟨rfl, hactive⟩))
      · refine Or.inr (Or.inr ⟨Or.inr rfl, fun hmem => hactive ?_⟩)
        unfold activeInDouble doubleQuote backslash
        simp only [List.contains_iff_mem, List.mem_cons, List.not_mem_nil, or_false] at hmem ⊢
        tauto

theorem scan_cmdChars {p : Option Character} {ks : List Character}
    (hp : ∀ q ∈ p, (q = doubleQuote ∨ q = singleQuote) ∧ q ∈ ks) :
    scan (quoteState p) (cmdChars p ks) = .unquoted ∧
      ∀ v ∈ visits (quoteState p) (cmdChars p ks), v.2 ∈ commandSpecial → Harmless v.1 v.2 := by
  induction ks generalizing p with
  | nil =>
    cases p with
    | none => exact ⟨rfl, fun v hv => absurd hv List.not_mem_nil⟩
    | some q => exact absurd (hp q rfl).2 List.not_mem_nil
  | cons k ks ih =>
    -- the two ways to go on: with the character alone or with a backslash in front of it
    have hplain : ∀ {p'}, step (quoteState p) k = quoteState p' → k ∉ commandSpecial →
        (∀ q ∈ p', (q = doubleQuote ∨ q = singleQuote) ∧ q ∈ ks) →
        scan (quoteState p) (k :: cmdChars p' ks) = .unquoted ∧
          ∀ v ∈ visits (quoteState p) (k :: cmdChars p' ks),
            v.2 ∈ commandSpecial → Harmless v.1 v.2 := by
      intro p' hstep hk hp'
      obtain ⟨hscan, hvisits⟩ := ih hp'
      refine ⟨by rw [scan_cons, hstep, hscan], fun v hv => ?_⟩
      rw [visits, List.mem_cons, hstep] at hv
      rcases hv with rfl | hv
      · exact fun hmem => absurd hmem hk
      · exact hvisits v hv
    have hescape : (p ≠ some singleQuote ∨ k ≠ singleQuote) →
        (∀ q ∈ p, (q = doubleQuote ∨ q = singleQuote) ∧ q ∈ ks) →
        scan (quoteState p) (backslash :: k :: cmdChars p ks) = .unquoted ∧
          ∀ v ∈ visits (quoteState p) (backslash :: k :: cmdChars p ks),
            v.2 ∈ commandSpecial → Harmless v.1 v.2 := by
      intro hk hp'
      obtain ⟨hscan, hvisits⟩ := ih hp'
      refine ⟨by rw [scan_cons, scan_cons, step_backslash hk, hscan], fun v hv => ?_⟩
      rw [visits, visits, List.mem_cons, List.mem_cons, step_backslash hk] at hv
      rcases hv with rfl | rfl | hv
      · exact fun hmem : backslash ∈ commandSpecial => absurd hmem (by decide)
      · exact fun _ => harmless_backslash k
      · exact hvisits v hv
    have hrest : ∀ {q}, q ∈ p → q ≠ k → (q = doubleQuote ∨ q = singleQuote) ∧ q ∈ ks :=
      fun hq hne => ⟨(hp _ hq).1, (List.mem_cons.mp (hp _ hq).2).resolve_left hne⟩
    rw [cmdChars]
    by_cases hquote : k = doubleQuote ∨ k = singleQuote
    · rw [if_pos hquote]
      have hk : k ∉ commandSpecial := by
        rcases hquote with rfl | rfl <;> decide
      by_cases hopen : p = none ∧ k ∈ ks
      · rw [if_pos hopen]
        obtain ⟨rfl, hmem⟩ := hopen
        refine hplain ?_ hk fun q hq => ?_
        · rcases hquote with rfl | rfl <;> decide
        · rw [← Option.some.inj hq]
          exact ⟨hquote, hmem⟩
      rw [if_neg hopen]
      by_cases hclose : p = some k
      · rw [if_pos hclose]
        refine hplain ?_ hk fun q hq => by cases hq
        rw [hclose]
        rcases hquote with rfl | rfl <;> decide
      · rw [if_neg hclose]
        refine hescape ?_ fun q hq => hrest hq fun heq => hclose (heq ▸ hq)
        by_contra hboth
        rw [not_or, not_not, not_not] at hboth
        exact hclose (hboth.2 ▸ hboth.1)
    · rw [if_neg hquote]
      have hne : ∀ q ∈ p, q ≠ k := by
        rintro q hq rfl
        exact hquote (hp q hq).1
      have hrest' : ∀ q ∈ p, (q = doubleQuote ∨ q = singleQuote) ∧ q ∈ ks :=
        fun q hq => hrest hq (hne q hq)
      by_cases hescaped : k ∈ shellEscaped.map fun c => [c]
      · rw [if_pos hescaped]
        exact hescape (Or.inr fun heq => hquote (Or.inr heq)) hrest'
      · rw [if_neg hescaped]
        have hbackslash : k ≠ backslash := by
          rintro rfl
          exact hescaped (by decide)
        refine hplain ?_ (fun hmem => hescaped ?_) hrest'
        · unfold quoteState
          cases p with
          | none =>
            dsimp only
            rw [step, if_neg hbackslash, if_neg fun h => hquote (Or.inr h),
              if_neg fun h => hquote (Or.inl h)]
          | some q =>
            dsimp only
            by_cases hq : q = singleQuote
            · rw [if_pos hq]
              exact step_single fun h => hquote (Or.inr h)
            · rw [if_neg hq, step, if_neg fun h => hquote (Or.inl h), if_neg hbackslash]
        · have hsub : ∀ x ∈ commandSpecial, x ∈ shellEscaped.map fun c => [c] := by decide
          exact hsub k hmem

def oneByte (s : List UInt8) : ℤ := if s = [] then 0 else 1

theorem plainQuotes_oneByte : PlainQuotes oneByte where
  bounded s := by
    unfold oneByte
    split
    · omega
    · next h => exact_mod_cast List.length_pos_iff.mpr h
  single c rest _ _ rest' := ⟨Int.zero_le_ofNat 1, Int.le_refl 1⟩
  multiple s h := by
    unfold oneByte at h
    split at h <;> omega
  quotes c hc rest := rfl
  free s h := by
    unfold oneByte at h
    split at h <;> omega

end PhpRuntime.Text
