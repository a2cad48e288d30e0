import Mathlib.Data.List.TakeWhile
import PhpRuntime.Html.SpecialChars

/-!
# Encoding without double encoding

Every text that the encoder writes with `double_encode` = 0 is one that it copies, so encoding
again changes nothing.
-/

set_option autoImplicit false

namespace PhpRuntime.Html

open PhpRuntime.Lib.Utf8 (WellFormed wellFormed_encode)
open PhpRuntime.Text (isdigit isalnum)

variable {tables : EntityTables} {flags : Flags} {name buf pos tail chunk : List UInt8}

/-- The tables for HTML have the basic entities. -/
structure EntityTables.HasBasic (tables : EntityTables) : Prop where
  html4 : ∀ name ∈ [quot, amp, lt, gt], resolveNamedEntityHtml name tables.html4 ≠ none
  html5 : ∀ name ∈ [quot, amp, apos, lt, gt], resolveNamedEntityHtml name tables.html5 ≠ none

/-! ## What is read of an entity -/

/-- The reading of digits does not depend on what follows the semicolon behind them. -/
def IsLocal (strtol : List UInt8 → ℕ × List UInt8) : Prop :=
  ∀ buf, (strtol buf).2.headD 0 = 59 → ∃ digits rest, buf = digits ++ 59 :: rest ∧
    ∀ tail, strtol (digits ++ 59 :: tail) = ((strtol buf).1, 59 :: tail)

theorem headD_eq_semicolon (h : buf.headD 0 = 59) : ∃ rest, buf = 59 :: rest := by
  cases buf with
  | nil => cases h
  | cons c rest => exact ⟨rest, congrArg (· :: rest) h⟩

theorem takeWhile_of_dropWhile {p : UInt8 → Bool} (h : (buf.dropWhile p).headD 0 = 59) :
    ∃ rest, buf = buf.takeWhile p ++ 59 :: rest := by
  obtain ⟨rest, hrest⟩ := headD_eq_semicolon h
  exact ⟨rest, by rw [← hrest, List.takeWhile_append_dropWhile]⟩

theorem mem_takeWhile {p : UInt8 → Bool} : ∀ c ∈ buf.takeWhile p, p c = true :=
  fun _ => List.mem_takeWhile_imp

theorem isLocal_strtolDec : IsLocal strtolDec := by
  intro buf h
  obtain ⟨rest, hbuf⟩ := takeWhile_of_dropWhile h
  refine ⟨buf.takeWhile isdigit, rest, hbuf, fun tail => ?_⟩
  obtain ⟨htake, hdrop⟩ := @takeWhile_name _ tail isdigit mem_takeWhile rfl
  rw [strtolDec, htake, hdrop]
  rfl

theorem skipPrefix_digits {digits : List UInt8} (h : ∀ c ∈ digits, isxdigit c = true) :
    skipPrefix (digits ++ 59 :: tail) = digits ++ 59 :: tail := by
  rcases skipPrefix_cases (digits ++ 59 :: tail) with heq | ⟨x, c, rest, heq, hx, -, -⟩
  · exact heq
  · exfalso
    match digits with
    | [] => cases heq
    | [_] =>
      injection heq with _ heq
      injection heq with heq _
      rw [← heq] at hx
      exact absurd hx (by decide)
    | _ :: y :: _ =>
      injection heq with _ heq
      injection heq with heq _
      have hy := h y (List.mem_cons_of_mem _ List.mem_cons_self)
      rw [heq] at hy
      rcases hx with rfl | rfl
      · exact absurd hy (by decide)
      · exact absurd hy (by decide)

theorem isLocal_strtolHex : IsLocal strtolHex := by
  intro buf h
  obtain ⟨rest, hrest⟩ := takeWhile_of_dropWhile h
  have hdigits := @mem_takeWhile (skipPrefix buf) isxdigit
  obtain ⟨digits, hd⟩ : ∃ digits, digits = (skipPrefix buf).takeWhile isxdigit := ⟨_, rfl⟩
  rw [← hd] at hrest hdigits
  have hvalue : (strtolHex buf).1 = digitsValue 16 digits := by rw [strtolHex, hd]
  rw [hvalue]
  rcases skipPrefix_cases buf with hskip | ⟨x, c, rest', hbuf, hx, hc, hskip⟩
  · refine ⟨digits, rest, hskip.symm.trans hrest, fun tail => ?_⟩
    obtain ⟨htake, hdrop⟩ := @takeWhile_name digits tail isxdigit hdigits rfl
    rw [strtolHex, skipPrefix_digits hdigits, htake, hdrop]
  · refine ⟨48 :: x :: digits, rest, ?_, fun tail => ?_⟩
    · rw [hbuf, ← hskip, hrest]
      rfl
    · obtain ⟨htake, hdrop⟩ := @takeWhile_name digits tail isxdigit hdigits rfl
      have hprefix : skipPrefix (48 :: x :: digits ++ 59 :: tail) = digits ++ 59 :: tail := by
        cases digits with
        | nil =>
          rw [hskip] at hrest
          injection hrest with hsemicolon _
          rw [hsemicolon] at hc
          exact absurd hc (by decide)
        | cons d digits => exact if_pos ⟨hx, hdigits d List.mem_cons_self⟩
      rw [strtolHex, hprefix, htake, hdrop]

theorem numericDigits_local {isDigitOf : UInt8 → Bool} {strtol : List UInt8 → ℕ × List UInt8}
    (hstrtol : IsLocal strtol) {code : ℕ} (h : numericDigits isDigitOf strtol buf = (some code, pos)) :
    ∃ digits rest, buf = digits ++ 59 :: rest ∧ pos = 59 :: rest ∧
      ∀ tail, numericDigits isDigitOf strtol (digits ++ 59 :: tail) = (some code, 59 :: tail) := by
  rw [numericDigits] at h
  split at h
  · cases h
  next hdigit =>
  split at h
  · cases h
  next hsemicolon =>
  split at h
  · cases h
  next hmax =>
  obtain ⟨digits, rest, hbuf, hlocal⟩ := hstrtol buf (Decidable.not_not.mp hsemicolon)
  have hrest := hlocal rest
  rw [← hbuf] at hrest
  cases h
  refine ⟨digits, rest, hbuf, congrArg Prod.snd hrest, fun tail => ?_⟩
  have hhead : (digits ++ 59 :: tail).headD 0 = buf.headD 0 := by
    rw [hbuf]
    cases digits <;> rfl
  rw [numericDigits, hhead, if_neg hdigit, hlocal, if_neg headD_semicolon, if_neg hmax]

theorem processNumericEntity_local {code : ℕ} (h : processNumericEntity buf = (some code, pos)) :
    ∃ text rest, buf = text ++ 59 :: rest ∧ pos = 59 :: rest ∧
      ∀ tail, processNumericEntity (text ++ 59 :: tail) = (some code, 59 :: tail) := by
  rw [processNumericEntity] at h
  split at h
  · next hx =>
    obtain ⟨digits, rest, hbuf, hpos, hlocal⟩ := numericDigits_local isLocal_strtolHex h
    cases buf with
    | nil => exact absurd hx (by decide)
    | cons x buf =>
      refine ⟨x :: digits, rest, congrArg (x :: ·) hbuf, hpos, fun tail => ?_⟩
      rw [processNumericEntity]
      exact (if_pos hx).trans (hlocal tail)
  · next hx =>
    obtain ⟨digits, rest, hbuf, hpos, hlocal⟩ := numericDigits_local isLocal_strtolDec h
    refine ⟨digits, rest, hbuf, hpos, fun tail => ?_⟩
    have hhead : (digits ++ 59 :: tail).headD 0 = buf.headD 0 := by
      rw [hbuf]
      cases digits <;> rfl
    rw [processNumericEntity, hhead, if_neg hx]
    exact hlocal tail

theorem textUpTo_append (a b : List UInt8) : textUpTo (a ++ b) b = a := by
  rw [textUpTo, List.length_append, Nat.add_sub_cancel, List.take_left]

theorem processNamedEntityHtml_eq_some (h : (processNamedEntityHtml buf).1 = some name) :
    (∀ c ∈ name, isalnum c = true) ∧ name ≠ [] := by
  rw [processNamedEntityHtml] at h
  split at h
  · cases h
  split at h
  · cases h
  next hlen =>
  cases h
  exact ⟨mem_takeWhile, fun hnil => hlen (congrArg List.length hnil)⟩

theorem validEntity_local {ent : List UInt8} (h : validEntity tables flags buf = some ent) :
    ∀ tail, validEntity tables flags (ent ++ 59 :: tail) = some ent := by
  intro tail
  rw [validEntity] at h
  split at h
  · next hhash =>
    obtain ⟨buf, rfl⟩ : ∃ rest, buf = 35 :: rest := by
      cases buf with
      | nil => cases hhash
      | cons c rest => exact ⟨rest, congrArg (· :: rest) hhash⟩
    rw [List.tail_cons] at h
    cases hnumeric : processNumericEntity buf with
    | mk code pos =>
      rw [hnumeric] at h
      cases code with
      | none => cases h
      | some code =>
        dsimp only at h
        split at h
        · cases h
        next hallowed =>
        cases h
        obtain ⟨text, rest, rfl, rfl, hlocal⟩ := processNumericEntity_local hnumeric
        have htext : textUpTo (35 :: (text ++ 59 :: rest)) (59 :: rest) = 35 :: text :=
          textUpTo_append (35 :: text) (59 :: rest)
        have htext' : textUpTo (35 :: (text ++ 59 :: tail)) (59 :: tail) = 35 :: text :=
          textUpTo_append (35 :: text) (59 :: tail)
        have hhead : (35 :: text ++ 59 :: tail).headD 0 = 35 := rfl
        rw [htext, validEntity, if_pos hhead, List.cons_append, List.tail_cons, hlocal]
        dsimp only
        rw [if_neg hallowed, htext']
  · next hhash =>
    cases hproc : (processNamedEntityHtml buf).1 with
    | none =>
      rw [hproc] at h
      cases h
    | some name =>
      obtain ⟨hname, hne⟩ := processNamedEntityHtml_eq_some hproc
      rw [hproc] at h
      dsimp only at h
      have hent : ent = name := by
        split at h
        · exact (Option.some.inj h).symm
        split at h
        · exact (Option.some.inj h).symm
        · cases h
      have hhead : (name ++ 59 :: tail).headD 0 ≠ 35 := by
        obtain ⟨c, rest, rfl⟩ := List.exists_cons_of_ne_nil hne
        rintro (rfl : c = 35)
        exact absurd (hname 35 List.mem_cons_self) (by decide)
      subst hent
      rw [validEntity, if_neg hhead, processNamedEntityHtml_name hname hne]
      exact h

/-! ## What is written is copied -/

/-- The encoder copies the text, whatever follows it. -/
structure Stable (tables : EntityTables) (flags : Flags) (chunk : List UInt8) : Prop where
  nonempty : chunk ≠ []
  copied : ∀ tail, escapeStep tables flags false (chunk ++ tail) = some (chunk, tail)

theorem stable_char {c : Char} (hamp : c.toNat ≠ 38)
    (h : escapeChar flags c.toNat (String.utf8EncodeChar c) = String.utf8EncodeChar c) :
    Stable tables flags (String.utf8EncodeChar c) := by
  refine ⟨String.utf8EncodeChar_ne_nil, fun tail => ?_⟩
  rw [escapeStep, getNextChar_encode]
  dsimp only
  rw [if_neg (by decide), if_pos hamp, List.take_left, List.drop_left, h]

theorem stable_entity (h : ∀ tail, validEntity tables flags (name ++ 59 :: tail) = some name) :
    Stable tables flags (entityText name) := by
  refine ⟨List.cons_ne_nil _ _, fun tail => ?_⟩
  have htext : entityText name ++ tail = 38 :: (name ++ 59 :: tail) :=
    congrArg (38 :: ·) (List.append_assoc name [59] tail)
  have hchar : getNextChar (38 :: (name ++ 59 :: tail)) 0 = ⟨38, 1, .SUCCESS⟩ :=
    @getNextChar_encode (name ++ 59 :: tail) (Char.ofNat 38)
  have hdrop : (name ++ 59 :: tail).drop (name.length + 1) = tail := by
    rw [← List.drop_drop, List.drop_left]
    rfl
  rw [htext, escapeStep, hchar]
  dsimp only
  rw [if_neg (by decide), if_neg (by decide), if_neg Bool.false_ne_true, List.drop_one,
    List.tail_cons, h]
  dsimp only
  rw [hdrop]

theorem validEntity_basic (htables : tables.HasBasic) {k : ℕ} (h : (name, k) ∈ basicEntities)
    (hapos : name = apos → flags.doctype ≠ .HTML401) :
    validEntity tables flags (name ++ 59 :: tail) = some name := by
  obtain ⟨halnum, hlen, -, hresolve, -⟩ := basicEntities_spec h
  dsimp only at halnum hlen hresolve
  have hne : name ≠ [] := List.ne_nil_of_length_pos (by omega)
  have hhead : (name ++ 59 :: tail).headD 0 ≠ 35 := by
    obtain ⟨c, rest, rfl⟩ := List.exists_cons_of_ne_nil hne
    rintro (rfl : c = 35)
    exact absurd (halnum 35 List.mem_cons_self) (by decide)
  have hmem : name ∈ [quot, amp, apos, lt, gt] := List.mem_map_of_mem (f := Prod.fst) h
  have hmem4 : name ≠ apos → name ∈ [quot, amp, lt, gt] := by
    intro hname
    simp only [List.mem_cons, List.not_mem_nil, or_false] at hmem ⊢
    tauto
  have hvalid : resolveNamedEntityHtml name (unescapeInverseMap tables true flags.doctype) ≠ none ∨
      flags.doctype = .XHTML ∧ name = apos := by
    by_cases hname : name = apos
    · cases hd : flags.doctype with
      | HTML401 => exact absurd hd (hapos hname)
      | XML1 => exact Or.inl (hresolve ▸ Option.some_ne_none _)
      | XHTML => exact Or.inr ⟨rfl, hname⟩
      | HTML5 => exact Or.inl (htables.html5 name hmem)
    · cases hd : flags.doctype with
      | HTML401 => exact Or.inl (htables.html4 name (hmem4 hname))
      | XML1 => exact Or.inl (hresolve ▸ Option.some_ne_none _)
      | XHTML => exact Or.inl (htables.html4 name (hmem4 hname))
      | HTML5 => exact Or.inl (htables.html5 name hmem)
  rw [validEntity, if_neg hhead, processNamedEntityHtml_name halnum hne]
  dsimp only
  split
  · rfl
  · next hnone => rw [if_pos (hvalid.resolve_left fun h => h hnone)]

theorem validEntity_numeric39 (hdoctype : flags.doctype = .HTML401) :
    validEntity tables flags (numeric39 ++ 59 :: tail) = some numeric39 := by
  have hhead : (numeric39 ++ 59 :: tail).headD 0 = 35 := rfl
  have htail : (numeric39 ++ 59 :: tail).tail = [48, 51, 57] ++ 59 :: tail := rfl
  rw [validEntity, if_pos hhead, htail, processNumericEntity_39, hdoctype]
  dsimp only
  rw [if_neg (fun h => h.2 rfl), textUpTo_append]

theorem stable_replacement : Stable tables flags replacement := by
  apply stable_char (c := Char.ofNat 0xFFFD) (by decide)
  have hallowed : unicodeCpIsAllowed 0xFFFD flags.doctype = true := by
    cases flags.doctype <;> rfl
  change escapeChar flags 0xFFFD _ = _
  rw [escapeChar, if_neg (by simp), findEntityForCharBasic, if_pos (by decide)]
  dsimp only
  rw [if_neg fun h => h.2 hallowed]

theorem stable_escapeChar (htables : tables.HasBasic) {c : Char} (hamp : c.toNat ≠ 38) :
    Stable tables flags (escapeChar flags c.toNat (String.utf8EncodeChar c)) := by
  by_cases hsame : escapeChar flags c.toNat (String.utf8EncodeChar c) = String.utf8EncodeChar c
  · rw [hsame]
    exact stable_char hamp hsame
  · rw [escapeChar] at hsame ⊢
    split at hsame
    · exact absurd rfl hsame
    next hquote =>
    rw [if_neg hquote]
    cases hrep : findEntityForCharBasic c.toNat (determineEntityTable flags.doctype) with
    | none =>
      rw [hrep] at hsame
      dsimp only at hsame ⊢
      split at hsame
      · next h =>
        rw [if_pos h]
        exact stable_replacement
      · exact absurd rfl hsame
    | some rep =>
      apply stable_entity
      intro tail
      rcases findEntity_eq_some hrep with ⟨hbasic, hapos⟩ | ⟨rfl, -, hdoctype⟩
      · exact validEntity_basic htables hbasic hapos
      · exact validEntity_numeric39 hdoctype

theorem escapeStep_stable (htables : tables.HasBasic) {old next : List UInt8} (hold : old ≠ [])
    (h : escapeStep tables flags false old = some (chunk, next)) :
    chunk = [] ∨ Stable tables flags chunk := by
  have hamp : Stable tables flags (entityText amp) :=
    stable_entity fun tail =>
      validEntity_basic (k := 38) htables (by decide) fun h => absurd h (by decide)
  have houtcome := getNextChar_outcome (List.length_pos_of_ne_nil hold)
  rw [escapeStep] at h
  generalize getNextChar old 0 = r at h houtcome
  cases houtcome with
  | failure =>
    rw [mbFailure] at h
    dsimp only at h
    rw [if_pos rfl] at h
    split at h
    · cases h
      exact Or.inl rfl
    split at h
    · cases h
      exact Or.inr stable_replacement
    · cases h
  | success hs hrest =>
    obtain ⟨c, rfl, rfl⟩ := hs.exists_char
    obtain ⟨tail, htail⟩ := hrest
    rw [List.drop_zero] at htail
    subst htail
    right
    rw [Nat.zero_add] at h
    dsimp only at h
    rw [if_neg (by decide), List.take_left] at h
    split at h
    · next hne =>
      cases h
      exact stable_escapeChar htables hne
    rw [if_neg Bool.false_ne_true] at h
    split at h
    · cases h
      exact hamp
    · next ent hent =>
      cases h
      exact stable_entity (validEntity_local hent)

theorem escapeLoop_of_step {old next : List UInt8} (hold : old ≠ [])
    (h : escapeStep tables flags false old = some (chunk, next)) :
    escapeLoop tables flags false old =
      (escapeLoop tables flags false next).map (chunk ++ ·) := by
  rw [escapeLoop, dif_neg hold]
  split
  · next h' => cases h.symm.trans h'
  · next h' =>
    cases h.symm.trans h'
    rfl

theorem escapeLoop_stable (htables : tables.HasBasic) {old out : List UInt8}
    (h : escapeLoop tables flags false old = some out) :
    escapeLoop tables flags false out = some out := by
  fun_induction escapeLoop tables flags false old generalizing out with
  | case1 =>
    cases h
    rw [escapeLoop, dif_pos rfl]
  | case2 => cases h
  | case3 old hold chunk next hstep _ ih =>
    obtain ⟨out', hout', rfl⟩ := Option.map_eq_some_iff.mp h
    have hcopied := ih hout'
    rcases escapeStep_stable htables hold hstep with rfl | hstable
    · exact hcopied
    · rw [escapeLoop_of_step (List.append_ne_nil_of_left_ne_nil hstable.nonempty _)
        (hstable.copied out'), hcopied]
      rfl

theorem escape_idempotent (htables : tables.HasBasic) (old : List UInt8) :
    phpEscapeHtmlEntitiesEx tables flags false (phpEscapeHtmlEntitiesEx tables flags false old) =
      phpEscapeHtmlEntitiesEx tables flags false old := by
  rw [phpEscapeHtmlEntitiesEx, phpEscapeHtmlEntitiesEx]
  cases h : escapeLoop tables flags false old with
  | none =>
    rw [Option.getD_none, escapeLoop, dif_pos rfl]
    rfl
  | some out => rw [Option.getD_some, escapeLoop_stable htables h, Option.getD_some]

/-- Decoding takes the encoding back, for every quote style and document type, and encoding
without double encoding is idempotent, whatever the flags. -/
theorem specialChars_roundTrip (htables : tables.HasBasic) :
    (∀ (flags : Flags) (chars : List Char), flags.substituteDisallowedChars = false →
      phpUnescapeHtmlEntities tables flags
          (phpEscapeHtmlEntitiesEx tables flags true (encodeChars chars)) = encodeChars chars) ∧
    ∀ (flags : Flags) (old : List UInt8),
      phpEscapeHtmlEntitiesEx tables flags false (phpEscapeHtmlEntitiesEx tables flags false old) =
        phpEscapeHtmlEntitiesEx tables flags false old :=
  ⟨fun _ chars hflags => unescape_escape hflags chars, fun _ old => escape_idempotent htables old⟩

/-- Tables with the basic entities and `&eacute;`. -/
def sampleTables : EntityTables where
  html4 := ⟨1, [[⟨quot, 34, 0⟩, ⟨amp, 38, 0⟩, ⟨lt, 60, 0⟩, ⟨gt, 62, 0⟩,
    ⟨[101, 97, 99, 117, 116, 101], 233, 0⟩]]⟩
  html5 := ⟨1, [[⟨quot, 34, 0⟩, ⟨amp, 38, 0⟩, ⟨apos, 39, 0⟩, ⟨lt, 60, 0⟩, ⟨gt, 62, 0⟩,
    ⟨[101, 97, 99, 117, 116, 101], 233, 0⟩]]⟩

theorem sampleTables_hasBasic : sampleTables.HasBasic := ⟨by decide +kernel, by decide +kernel⟩

/-- Of `<`, U+00E9, `'` and `&amp;`, and of `&eacute;<&foo;`. -/
theorem specialChars_roundTrip_sample :
    phpUnescapeHtmlEntities sampleTables ⟨true, true, false, false, false, .XHTML⟩
        (phpEscapeHtmlEntitiesEx sampleTables ⟨true, true, false, false, false, .XHTML⟩ true
          (encodeChars ['<', .ofNat 233, .ofNat 39, '&', 'a', 'm', 'p', ';'])) =
      encodeChars ['<', .ofNat 233, .ofNat 39, '&', 'a', 'm', 'p', ';'] ∧
    phpEscapeHtmlEntitiesEx sampleTables ⟨true, true, false, true, true, .HTML5⟩ false
        (phpEscapeHtmlEntitiesEx sampleTables ⟨true, true, false, true, true, .HTML5⟩ false
          [38, 101, 97, 99, 117, 116, 101, 59, 60, 38, 102, 111, 111, 59]) =
      phpEscapeHtmlEntitiesEx sampleTables ⟨true, true, false, true, true, .HTML5⟩ false
        [38, 101, 97, 99, 117, 116, 101, 59, 60, 38, 102, 111, 111, 59] :=
  ⟨(specialChars_roundTrip sampleTables_hasBasic).1 _ _ rfl,
    (specialChars_roundTrip sampleTables_hasBasic).2 _ _⟩

end PhpRuntime.Html
