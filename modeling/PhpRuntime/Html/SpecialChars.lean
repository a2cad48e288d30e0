import PhpRuntime.Html.Entities

/-!
# Special characters there and back

Decoding takes the encoding of a string back to the string, for every quote style and document
type.
-/

set_option autoImplicit false

namespace PhpRuntime.Html

open PhpRuntime.Lib.Utf8 (WellFormed wellFormed_encode)
open PhpRuntime.Text (isdigit isalnum)

variable {tables : EntityTables} {flags : Flags} {name tail : List UInt8}

def encodeChars (chars : List Char) : List UInt8 := chars.flatMap String.utf8EncodeChar

/-! ## The names of the entities -/

theorem takeWhile_name {p : UInt8 → Bool} (hname : ∀ c ∈ name, p c = true) (h59 : p 59 = false) :
    (name ++ 59 :: tail).takeWhile p = name ∧
      (name ++ 59 :: tail).dropWhile p = 59 :: tail := by
  rw [List.takeWhile_append_of_pos hname, List.dropWhile_append_of_pos hname,
    List.takeWhile_cons_of_neg (Bool.eq_false_iff.mp h59),
    List.dropWhile_cons_of_neg (Bool.eq_false_iff.mp h59), List.append_nil]
  exact ⟨rfl, rfl⟩

theorem headD_semicolon : ¬ (59 :: tail).headD 0 ≠ 59 := Decidable.not_not.mpr rfl

theorem processNamedEntityHtml_name (hname : ∀ c ∈ name, isalnum c = true) (hne : name ≠ []) :
    processNamedEntityHtml (name ++ 59 :: tail) = (some name, 59 :: tail) := by
  obtain ⟨htake, hdrop⟩ := @takeWhile_name name tail isalnum hname rfl
  rw [processNamedEntityHtml, htake, hdrop]
  rw [if_neg headD_semicolon, if_neg (Nat.pos_iff_ne_zero.mp (List.length_pos_of_ne_nil hne))]

/-- The basic entities and the characters they stand for. -/
def basicEntities : List (List UInt8 × ℕ) := [(quot, 34), (amp, 38), (apos, 39), (lt, 60), (gt, 62)]

theorem basicEntities_spec {entity : List UInt8 × ℕ} (h : entity ∈ basicEntities) :
    (∀ c ∈ entity.1, isalnum c = true) ∧ 2 ≤ entity.1.length ∧ entity.2 < 128 ∧
      resolveNamedEntityHtml entity.1 entHtBeApos = some (entity.2, 0) ∧
      (entity.1 ≠ apos → resolveNamedEntityHtml entity.1 entHtBeNoapos = some (entity.2, 0)) := by
  revert h entity
  decide +kernel

theorem findEntity_eq_some {k : ℕ} {doctype : DocType} {rep : List UInt8}
    (h : findEntityForCharBasic k (determineEntityTable doctype) = some rep) :
    ((rep, k) ∈ basicEntities ∧ (rep = apos → doctype ≠ .HTML401)) ∨
      (rep = numeric39 ∧ k = 39 ∧ doctype = .HTML401) := by
  have hall : ∀ d ∈ ([.HTML401, .XML1, .XHTML, .HTML5] : List DocType), ∀ i < 64,
      ∀ r ∈ findEntityForCharBasic i (determineEntityTable d),
        ((r, i) ∈ basicEntities ∧ (r = apos → d ≠ .HTML401)) ∨
          (r = numeric39 ∧ i = 39 ∧ d = .HTML401) := by
    decide +kernel
  have hk : k < 64 := by
    apply Nat.lt_of_not_le
    intro hle
    rw [findEntityForCharBasic, if_pos hle] at h
    cases h
  exact hall doctype (by cases doctype <;> decide) k hk rep h

theorem encode_ascii {c : Char} (h : c.toNat < 128) :
    String.utf8EncodeChar c = [UInt8.ofNat c.toNat] := Lib.Utf8.encode_one h

theorem not_mem_encode {c : Char} (h : c.toNat ≠ 38) : 38 ∉ String.utf8EncodeChar c := by
  have hno : ∀ {b : UInt8}, 0x80 ≤ b.toNat → 38 ≠ b := by
    rintro b hb rfl
    exact absurd hb (by decide)
  have hwf := wellFormed_encode c
  revert hwf
  generalize String.utf8EncodeChar c = s
  generalize c.toNat = v at h
  intro hwf
  cases hwf with
  | @one a ha =>
    rw [List.mem_singleton]
    rintro rfl
    exact h rfl
  | two ha ha' hb =>
    simp only [List.mem_cons, List.not_mem_nil, or_false, not_or]
    exact ⟨hno (by omega), hno hb.1⟩
  | three ha ha' hb hd =>
    simp only [List.mem_cons, List.not_mem_nil, or_false, not_or]
    exact ⟨hno (by omega), hno hb.1, hno hd.1⟩
  | four ha ha' hb hd he =>
    simp only [List.mem_cons, List.not_mem_nil, or_false, not_or]
    exact ⟨hno (by omega), hno hb.1, hno hd.1, hno he.1⟩

/-! ## One character -/

def escapedChar (flags : Flags) (c : Char) : List UInt8 :=
  if c.toNat = 38 then entityText amp else escapeChar flags c.toNat (String.utf8EncodeChar c)

theorem getNextChar_encode (c : Char) :
    getNextChar (String.utf8EncodeChar c ++ tail) 0 =
      ⟨c.toNat, (String.utf8EncodeChar c).length, .SUCCESS⟩ := by
  rw [getNextChar_of_startsWith (c := c) (List.prefix_append _ _), Nat.zero_add]

theorem escapeStep_encode (c : Char) :
    escapeStep tables flags true (String.utf8EncodeChar c ++ tail) =
      some (escapedChar flags c, tail) := by
  rw [escapeStep, getNextChar_encode, escapedChar]
  dsimp only
  rw [if_neg (by decide), List.take_left, List.drop_left]
  by_cases h : c.toNat = 38
  · rw [if_neg (Decidable.not_not.mpr h), if_pos rfl, if_pos h]
  · rw [if_pos h, if_neg h]

theorem escapeLoop_encode (chars : List Char) :
    escapeLoop tables flags true (encodeChars chars) =
      some (chars.flatMap (escapedChar flags)) := by
  induction chars with
  | nil =>
    rw [encodeChars, List.flatMap_nil, escapeLoop, dif_pos rfl]
    rfl
  | cons c chars ih =>
    have hne : String.utf8EncodeChar c ++ encodeChars chars ≠ [] :=
      List.append_ne_nil_of_left_ne_nil String.utf8EncodeChar_ne_nil _
    have hstep := @escapeStep_encode tables flags (encodeChars chars) c
    change escapeLoop tables flags true (String.utf8EncodeChar c ++ encodeChars chars) = _
    rw [escapeLoop, dif_neg hne]
    split
    · next h => cases hstep.symm.trans h
    · next chunk next h =>
      cases hstep.symm.trans h
      dsimp only
      rw [ih]
      rfl

/-! ## The decoder on the text of a character -/

theorem traverse_of_step {p written next : List UInt8} (hp : p ≠ [])
    (h : traverseStep tables flags p = (written, next)) :
    traverseForEntities tables flags p = written ++ traverseForEntities tables flags next := by
  rw [traverseForEntities, dif_neg hp]
  dsimp only
  rw [h]

theorem traverse_literal {bytes : List UInt8} (h : 38 ∉ bytes) :
    traverseForEntities tables flags (bytes ++ tail) =
      bytes ++ traverseForEntities tables flags tail := by
  induction bytes with
  | nil => rfl
  | cons b bytes ih =>
    rw [List.mem_cons, not_or] at h
    have hstep : traverseStep tables flags (b :: (bytes ++ tail)) = ([b], bytes ++ tail) :=
      if_pos (Or.inl (Ne.symm h.1))
    rw [List.cons_append, traverse_of_step (List.cons_ne_nil _ _) hstep, ih h.2]
    rfl

theorem traverseStep_entity {c : UInt8} (hlen : 2 ≤ name.length)
    (hbyte : entityByte tables flags (entityText name ++ tail) = (some c, 59 :: tail)) :
    traverseStep tables flags (entityText name ++ tail) = ([c], tail) := by
  have hlong : ¬ (entityText name ++ tail).length ≤ 3 := by
    rw [entityText, List.length_append, List.length_append, List.length_cons, List.length_cons]
    omega
  have hamp : ¬ (entityText name ++ tail).headD 0 ≠ 38 := Decidable.not_not.mpr rfl
  rw [traverseStep, if_neg (not_or.mpr ⟨hamp, hlong⟩), hbyte]
  rfl

theorem decodedByte_ascii {k : ℕ} (hk : k < 128)
    (hquote : ¬ ((k = 39 ∧ ¬ flags.quoteSingle) ∨ (k = 34 ∧ ¬ flags.quoteDouble))) :
    decodedByte flags (k, 0) = some (UInt8.ofNat k) := by
  rw [decodedByte, if_neg hquote, if_neg (not_or.mpr ⟨by omega, Decidable.not_not.mpr rfl⟩)]

theorem traverse_basic {k : ℕ} (h : (name, k) ∈ basicEntities)
    (hapos : name = apos → flags.doctype ≠ .HTML401)
    (hquote : ¬ ((k = 39 ∧ ¬ flags.quoteSingle) ∨ (k = 34 ∧ ¬ flags.quoteDouble))) :
    traverseForEntities tables flags (entityText name ++ tail) =
      UInt8.ofNat k :: traverseForEntities tables flags tail := by
  obtain ⟨halnum, hlen, hk, hresolve, hresolve'⟩ := basicEntities_spec h
  dsimp only at halnum hlen hk hresolve hresolve'
  have hne : name ≠ [] := List.ne_nil_of_length_pos (by omega)
  have hmap : resolveNamedEntityHtml name (unescapeInverseMap tables false flags.doctype) =
      some (k, 0) := by
    cases hd : flags.doctype with
    | HTML401 => exact hresolve' fun hname => hapos hname hd
    | XML1 => exact hresolve
    | XHTML => exact hresolve
    | HTML5 => exact hresolve
  have hhead : (entityText name ++ tail).getD 1 0 ≠ 35 := by
    obtain ⟨b, bytes, rfl⟩ := List.exists_cons_of_ne_nil hne
    rintro (rfl : b = 35)
    exact absurd (halnum 35 List.mem_cons_self) (by decide)
  have hbyte : entityByte tables flags (entityText name ++ tail) =
      (some (UInt8.ofNat k), 59 :: tail) := by
    have hdrop : (entityText name ++ tail).drop 1 = name ++ 59 :: tail := List.append_assoc name _ _
    rw [entityByte, if_neg hhead, hdrop, namedCode, processNamedEntityHtml_name halnum hne]
    dsimp only
    rw [Option.bind_some, hmap]
    dsimp only
    rw [Option.bind_some, decodedByte_ascii hk hquote]
  exact traverse_of_step (List.cons_ne_nil _ _) (traverseStep_entity hlen hbyte)

theorem processNumericEntity_39 :
    processNumericEntity ([48, 51, 57] ++ 59 :: tail) = (some 39, 59 :: tail) := by
  obtain ⟨htake, hdrop⟩ := @takeWhile_name [48, 51, 57] tail isdigit (by decide +kernel) rfl
  have hstrtol : strtolDec ([48, 51, 57] ++ 59 :: tail) = (39, 59 :: tail) := by
    rw [strtolDec, htake, hdrop]
    rfl
  have hdigit : ¬ ¬ isdigit (([48, 51, 57] ++ 59 :: tail).headD 0) = true :=
    Decidable.not_not.mpr rfl
  have hmax : ¬ 0x10FFFF < 39 := by decide
  rw [processNumericEntity, if_neg (by exact of_decide_eq_false rfl), numericDigits,
    if_neg hdigit, hstrtol, if_neg headD_semicolon, if_neg hmax]

theorem traverse_numeric39 (hdoctype : flags.doctype = .HTML401)
    (hquote : flags.quoteSingle = true) :
    traverseForEntities tables flags (entityText numeric39 ++ tail) =
      39 :: traverseForEntities tables flags tail := by
  have hbyte : entityByte tables flags (entityText numeric39 ++ tail) = (some 39, 59 :: tail) := by
    have hhead : (entityText numeric39 ++ tail).getD 1 0 = 35 := rfl
    rw [entityByte, if_pos hhead]
    change (((numericCode flags ([48, 51, 57] ++ 59 :: tail)).1.bind (decodedByte flags)),
      (numericCode flags ([48, 51, 57] ++ 59 :: tail)).2) = _
    rw [numericCode, processNumericEntity_39, hdoctype]
    change ((decodedByte flags (39, 0)), 59 :: tail) = _
    rw [decodedByte_ascii (by decide)]
    · rfl
    · rintro (⟨-, hsingle⟩ | ⟨h34, -⟩)
      · exact hsingle hquote
      · exact absurd h34 (by decide)
  exact traverse_of_step (List.cons_ne_nil _ _) (traverseStep_entity (by decide) hbyte)

theorem traverse_escapedChar (hflags : flags.substituteDisallowedChars = false) (c : Char) :
    traverseForEntities tables flags (escapedChar flags c ++ tail) =
      String.utf8EncodeChar c ++ traverseForEntities tables flags tail := by
  rw [escapedChar]
  split
  · next h =>
    rw [encode_ascii (by omega), h]
    apply traverse_basic (by decide) (fun hname => absurd hname (by decide))
    rintro (⟨h39, -⟩ | ⟨h34, -⟩)
    · exact absurd h39 (by decide)
    · exact absurd h34 (by decide)
  next hamp =>
  rw [escapeChar]
  split
  · exact traverse_literal (not_mem_encode hamp)
  next hquote =>
  cases hrep : findEntityForCharBasic c.toNat (determineEntityTable flags.doctype) with
  | none =>
    dsimp only
    rw [if_neg (by rw [hflags]; exact fun h => Bool.false_ne_true h.1)]
    exact traverse_literal (not_mem_encode hamp)
  | some rep =>
    dsimp only
    rcases findEntity_eq_some hrep with ⟨hbasic, hapos⟩ | ⟨rfl, h39, hdoctype⟩
    · rw [encode_ascii (basicEntities_spec hbasic).2.2.1, traverse_basic hbasic hapos hquote]
      rfl
    · have hsingle : flags.quoteSingle = true := by
        by_contra hne
        exact hquote (Or.inl ⟨h39, hne⟩)
      rw [encode_ascii (by omega), h39, traverse_numeric39 hdoctype hsingle]
      rfl

theorem unescape_escape (hflags : flags.substituteDisallowedChars = false) (chars : List Char) :
    phpUnescapeHtmlEntities tables flags
        (phpEscapeHtmlEntitiesEx tables flags true (encodeChars chars)) = encodeChars chars := by
  rw [phpEscapeHtmlEntitiesEx, escapeLoop_encode, Option.getD_some, phpUnescapeHtmlEntities]
  induction chars with
  | nil =>
    rw [List.flatMap_nil, traverseForEntities, dif_pos rfl]
    rfl
  | cons c chars ih =>
    rw [List.flatMap_cons, traverse_escapedChar hflags, ih]
    rfl

end PhpRuntime.Html
