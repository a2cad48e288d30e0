import PhpRuntime.Hash.Table
import PhpRuntime.Html.NextCharExact
import PhpRuntime.Lib.ChunkedCoding
import PhpRuntime.Lib.Positional
import PhpRuntime.Text.CInt

/-!
# Entities

The encoder and the decoder for HTML entities, with `all` = 0, as `htmlspecialchars` and
`htmlspecialchars_decode` call them, and with the character set UTF-8. A pointer into a string is
the rest of the string from there on; behind the last byte of a string is its `NUL`.
-/

set_option autoImplicit false

namespace PhpRuntime.Html

open PhpRuntime.Hash (zendInlineHashFunc)
open PhpRuntime.Lib.Chunked (hexValue)
open PhpRuntime.Text (isdigit isalnum)

/-! ## The flags -/

/-- `flags & ENT_HTML_DOC_TYPE_MASK` -/
inductive DocType where
  | HTML401
  | XML1
  | XHTML
  | HTML5
  deriving DecidableEq, Repr

/-- The bits of `flags`. -/
structure Flags where
  quoteSingle : Bool
  quoteDouble : Bool
  ignoreErrors : Bool
  substituteErrors : Bool
  substituteDisallowedChars : Bool
  doctype : DocType
  deriving DecidableEq, Repr

/-! ## The tables -/

/-- `amp` -/
def amp : List UInt8 := [97, 109, 112]
/-- `lt` -/
def lt : List UInt8 := [108, 116]
/-- `gt` -/
def gt : List UInt8 := [103, 116]
/-- `quot` -/
def quot : List UInt8 := [113, 117, 111, 116]
/-- `apos` -/
def apos : List UInt8 := [97, 112, 111, 115]
/-- `#039` -/
def numeric39 : List UInt8 := [35, 48, 51, 57]

/-- `stage3_table_be_noapos_00000` -/
def stage3TableBeNoapos (k : ℕ) : Option (List UInt8) :=
  if k = 34 then some quot
  else if k = 38 then some amp
  else if k = 39 then some numeric39
  else if k = 60 then some lt
  else if k = 62 then some gt
  else none

/-- `stage3_table_be_apos_00000` -/
def stage3TableBeApos (k : ℕ) : Option (List UInt8) :=
  if k = 34 then some quot
  else if k = 38 then some amp
  else if k = 39 then some apos
  else if k = 60 then some lt
  else if k = 62 then some gt
  else none

/-- `entity_cp_map` -/
structure EntityCpMap where
  entity : List UInt8
  codepoint1 : ℕ
  codepoint2 : ℕ
  deriving DecidableEq, Repr

/-- `entity_ht` -/
structure EntityHt where
  numElems : ℕ
  buckets : List (List EntityCpMap)
  deriving DecidableEq, Repr

/-- `ent_ht_be_noapos` -/
def entHtBeNoapos : EntityHt where
  numElems := 16
  buckets := [[⟨gt, 0x3E, 0⟩], [], [], [⟨amp, 0x26, 0⟩], [⟨numeric39, 0x27, 0⟩], [⟨lt, 0x3C, 0⟩],
    [], [], [], [], [], [], [], [], [⟨quot, 0x22, 0⟩], []]

/-- `ent_ht_be_apos` -/
def entHtBeApos : EntityHt where
  numElems := 16
  buckets := [[⟨gt, 0x3E, 0⟩], [], [], [⟨amp, 0x26, 0⟩], [], [⟨lt, 0x3C, 0⟩],
    [], [], [⟨apos, 0x27, 0⟩], [], [], [], [], [], [⟨quot, 0x22, 0⟩], []]

/-- `ent_ht_html4` and `ent_ht_html5` -/
structure EntityTables where
  html4 : EntityHt
  html5 : EntityHt

/-- `determine_entity_table`, with `all` = 0 -/
def determineEntityTable (doctype : DocType) : ℕ → Option (List UInt8) :=
  if doctype = .HTML401 then stage3TableBeNoapos else stage3TableBeApos

/-- `unescape_inverse_map` -/
def unescapeInverseMap (tables : EntityTables) (all : Bool) (doctype : DocType) : EntityHt :=
  if all then
    match doctype with
    | .HTML401 | .XHTML => tables.html4
    | .HTML5 => tables.html5
    | .XML1 => entHtBeApos
  else
    match doctype with
    | .HTML401 => entHtBeNoapos
    | _ => entHtBeApos

/-- `find_entity_for_char_basic` -/
def findEntityForCharBasic (k : ℕ) (table : ℕ → Option (List UInt8)) : Option (List UInt8) :=
  if 64 ≤ k then none else table k

/-- `resolve_named_entity_html`: the two code points. -/
def resolveNamedEntityHtml (start : List UInt8) (ht : EntityHt) : Option (ℕ × ℕ) :=
  let hash := zendInlineHashFunc start
  let s := ht.buckets.getD (hash.toNat % ht.numElems) []
  (s.find? fun entry => entry.entity = start).map fun entry => (entry.codepoint1, entry.codepoint2)

/-! ## The code points -/

/-- `unicode_cp_is_allowed` -/
def unicodeCpIsAllowed (cp : ℕ) : DocType → Bool
  | .HTML401 =>
    (0x20 ≤ cp ∧ cp ≤ 0x7E) ∨ (cp = 0x0A ∨ cp = 0x09 ∨ cp = 0x0D) ∨
      (0xA0 ≤ cp ∧ cp ≤ 0xD7FF) ∨ (0xE000 ≤ cp ∧ cp ≤ 0x10FFFF)
  | .HTML5 =>
    (0x20 ≤ cp ∧ cp ≤ 0x7E) ∨ (0x09 ≤ cp ∧ cp ≤ 0x0D ∧ cp ≠ 0x0B) ∨
      (0xA0 ≤ cp ∧ cp ≤ 0xD7FF) ∨
      (0xE000 ≤ cp ∧ cp ≤ 0x10FFFF ∧ cp &&& 0xFFFF < 0xFFFE ∧ (cp < 0xFDD0 ∨ 0xFDEF < cp))
  | .XHTML | .XML1 =>
    (0x20 ≤ cp ∧ cp ≤ 0xD7FF) ∨ (cp = 0x0A ∨ cp = 0x09 ∨ cp = 0x0D) ∨
      (0xE000 ≤ cp ∧ cp ≤ 0x10FFFF ∧ cp ≠ 0xFFFE ∧ cp ≠ 0xFFFF)

/-- `numeric_entity_is_allowed` -/
def numericEntityIsAllowed (cp : ℕ) : DocType → Bool
  | .HTML401 => cp ≤ 0x10FFFF
  | .HTML5 =>
    (0x20 ≤ cp ∧ cp ≤ 0x7E) ∨ (0x09 ≤ cp ∧ cp ≤ 0x0C ∧ cp ≠ 0x0B) ∨
      (0xA0 ≤ cp ∧ cp ≤ 0x10FFFF ∧ cp &&& 0xFFFF < 0xFFFE ∧ (cp < 0xFDD0 ∨ 0xFDEF < cp))
  | .XHTML => unicodeCpIsAllowed cp .XHTML
  | .XML1 => unicodeCpIsAllowed cp .XML1

/-! ## The text of an entity -/

/-- `isxdigit` -/
def isxdigit (c : UInt8) : Bool := (hexValue c).isSome

/-- The value of the digits, as `strtol` gives it. -/
def digitsValue (base : ℕ) (digits : List UInt8) : ℕ :=
  min (Lib.Positional.value base (digits.map fun c => (hexValue c).getD 0)) 9223372036854775807

/-- A `0x` in front of a digit is skipped. -/
def skipPrefix : List UInt8 → List UInt8
  | 48 :: x :: c :: rest =>
    if (x = 120 ∨ x = 88) ∧ isxdigit c then c :: rest else 48 :: x :: c :: rest
  | buf => buf

/-- `strtol(buf, &endptr, 16)` of a text that begins with a digit. -/
def strtolHex (buf : List UInt8) : ℕ × List UInt8 :=
  (digitsValue 16 ((skipPrefix buf).takeWhile isxdigit), (skipPrefix buf).dropWhile isxdigit)

/-- `strtol(buf, &endptr, 10)` of a text that begins with a digit. -/
def strtolDec (buf : List UInt8) : ℕ × List UInt8 :=
  (digitsValue 10 (buf.takeWhile isdigit), buf.dropWhile isdigit)

/-- The digits of a numeric entity and what follows them. -/
def numericDigits (isDigitOf : UInt8 → Bool) (strtol : List UInt8 → ℕ × List UInt8)
    (buf : List UInt8) : Option ℕ × List UInt8 :=
  if ¬ isDigitOf (buf.headD 0) then (none, buf)
  else if (strtol buf).2.headD 0 ≠ 59 then (none, (strtol buf).2)
  else if 0x10FFFF < (strtol buf).1 then (none, (strtol buf).2)
  else (some (strtol buf).1, (strtol buf).2)

/-- `process_numeric_entity`: the code point, if it is `SUCCESS`, and where `*buf` points then. -/
def processNumericEntity (buf : List UInt8) : Option ℕ × List UInt8 :=
  if buf.headD 0 = 120 ∨ buf.headD 0 = 88 then numericDigits isxdigit strtolHex buf.tail
  else numericDigits isdigit strtolDec buf

/-- `process_named_entity_html`: the name, if it is `SUCCESS`, and where `*buf` points then. -/
def processNamedEntityHtml (buf : List UInt8) : Option (List UInt8) × List UInt8 :=
  let next := buf.dropWhile isalnum
  if next.headD 0 ≠ 59 then (none, next)
  else if (buf.takeWhile isalnum).length = 0 then (none, next)
  else (some (buf.takeWhile isalnum), next)

def textUpTo (start pos : List UInt8) : List UInt8 := start.take (start.length - pos.length)

theorem length_dropWhile_le {p : UInt8 → Bool} (l : List UInt8) :
    (l.dropWhile p).length ≤ l.length := (List.dropWhile_suffix p).length_le

theorem skipPrefix_cases (buf : List UInt8) : skipPrefix buf = buf ∨
    ∃ x c rest, buf = 48 :: x :: c :: rest ∧ (x = 120 ∨ x = 88) ∧ isxdigit c = true ∧
      skipPrefix buf = c :: rest := by
  unfold skipPrefix
  split
  · next x c rest =>
    split
    · next h => exact Or.inr ⟨x, c, rest, rfl, h.1, h.2, rfl⟩
    · exact Or.inl rfl
  · exact Or.inl rfl

theorem length_strtolHex_le (buf : List UInt8) : (strtolHex buf).2.length ≤ buf.length := by
  apply Nat.le_trans (length_dropWhile_le (skipPrefix buf))
  rcases skipPrefix_cases buf with h | ⟨x, c, rest, rfl, -, -, h⟩
  · exact Nat.le_of_eq (congrArg List.length h)
  · rw [h]
    exact Nat.le_add_right _ 2

theorem length_numericDigits_le {isDigitOf : UInt8 → Bool} {strtol : List UInt8 → ℕ × List UInt8}
    (hstrtol : ∀ buf, (strtol buf).2.length ≤ buf.length) (buf : List UInt8) :
    (numericDigits isDigitOf strtol buf).2.length ≤ buf.length := by
  rw [numericDigits]
  split
  · exact Nat.le_refl _
  split
  · exact hstrtol buf
  split
  · exact hstrtol buf
  · exact hstrtol buf

theorem length_processNumericEntity_le (buf : List UInt8) :
    (processNumericEntity buf).2.length ≤ buf.length := by
  rw [processNumericEntity]
  split
  · have h := @length_numericDigits_le isxdigit strtolHex length_strtolHex_le buf.tail
    rw [List.length_tail] at h
    exact Nat.le_trans h (Nat.sub_le _ _)
  · exact length_numericDigits_le (fun buf => length_dropWhile_le buf) buf

theorem length_processNamedEntityHtml_le (buf : List UInt8) :
    (processNamedEntityHtml buf).2.length ≤ buf.length := by
  rw [processNamedEntityHtml]
  split
  · exact length_dropWhile_le buf
  split
  · exact length_dropWhile_le buf
  · exact length_dropWhile_le buf

/-! ## The decoder -/

section Decoder

variable (tables : EntityTables) (flags : Flags)

/-- The code point of a numeric entity, if it may be decoded. -/
def numericCode (buf : List UInt8) : Option (ℕ × ℕ) × List UInt8 :=
  let r := processNumericEntity buf
  (r.1.bind fun code =>
    if 63 < code ∨ stage3TableBeApos code = none then none
    else if ¬ unicodeCpIsAllowed code flags.doctype ∨ (flags.doctype = .HTML5 ∧ code = 0x0D) then
      none
    else some (code, 0), r.2)

def namedCode (buf : List UInt8) : Option (ℕ × ℕ) × List UInt8 :=
  let r := processNamedEntityHtml buf
  (r.1.bind fun name =>
    match resolveNamedEntityHtml name (unescapeInverseMap tables false flags.doctype) with
    | some code => some code
    | none => if flags.doctype = .XHTML ∧ name = apos then some (39, 0) else none, r.2)

/-- The byte that is written: quotes are decoded as the flags say, and `map_from_unicode` and
`write_octet_sequence` are those of `cs_8859_1`. -/
def decodedByte (code : ℕ × ℕ) : Option UInt8 :=
  if (code.1 = 39 ∧ ¬ flags.quoteSingle) ∨ (code.1 = 34 ∧ ¬ flags.quoteDouble) then none
  else if 0xFF < code.1 ∨ code.2 ≠ 0 then none
  else some (UInt8.ofNat code.1)

/-- The entity behind the `&` that `p` points to: the byte it stands for, and `next`. -/
def entityByte (p : List UInt8) : Option UInt8 × List UInt8 :=
  let r := if p.getD 1 0 = 35 then numericCode flags (p.drop 2) else namedCode tables flags (p.drop 1)
  (r.1.bind (decodedByte flags), r.2)

/-- The body of the loop of `traverse_for_entities`, with `all` = 0: what is written, and where
`p` points then. -/
def traverseStep (p : List UInt8) : List UInt8 × List UInt8 :=
  if p.headD 0 ≠ 38 ∨ p.length ≤ 3 then (p.take 1, p.drop 1)
  else
    match entityByte tables flags p with
    | (some c, next) => ([c], next.drop 1)
    | (none, next) => (textUpTo p next, next)

theorem length_entityByte_lt {p : List UInt8} (hp : p ≠ []) :
    (entityByte tables flags p).2.length < p.length := by
  have hpos := List.length_pos_of_ne_nil hp
  rw [entityByte]
  dsimp only
  split
  · have h := length_processNumericEntity_le (p.drop 2)
    rw [List.length_drop] at h
    change (processNumericEntity (p.drop 2)).2.length < p.length
    omega
  · have h := length_processNamedEntityHtml_le (p.drop 1)
    rw [List.length_drop] at h
    change (processNamedEntityHtml (p.drop 1)).2.length < p.length
    omega

theorem length_traverseStep_lt {p : List UInt8} (hp : p ≠ []) :
    (traverseStep tables flags p).2.length < p.length := by
  have hpos := List.length_pos_of_ne_nil hp
  have hlt := length_entityByte_lt tables flags hp
  rw [traverseStep]
  split
  · rw [List.length_drop]
    omega
  split
  · next next heq =>
    rw [heq] at hlt
    rw [List.length_drop]
    exact Nat.lt_of_le_of_lt (Nat.sub_le _ _) hlt
  · next next heq =>
    rw [heq] at hlt
    exact hlt

/-- `traverse_for_entities`, with `all` = 0 -/
def traverseForEntities (p : List UInt8) : List UInt8 :=
  if h : p = [] then []
  else
    have := length_traverseStep_lt tables flags h
    (traverseStep tables flags p).1 ++ traverseForEntities (traverseStep tables flags p).2
termination_by p.length

/-- `php_unescape_html_entities`, with `all` = 0 -/
def phpUnescapeHtmlEntities (old : List UInt8) : List UInt8 := traverseForEntities tables flags old

end Decoder

/-! ## The encoder -/

section Encoder

variable (tables : EntityTables) (flags : Flags)

def replacement : List UInt8 := [0xEF, 0xBF, 0xBD]

def entityText (name : List UInt8) : List UInt8 := 38 :: name ++ [59]

/-- What is written for a character that is no `&`. -/
def escapeChar (thisChar : ℕ) (mbsequence : List UInt8) : List UInt8 :=
  if (thisChar = 39 ∧ ¬ flags.quoteSingle) ∨ (thisChar = 34 ∧ ¬ flags.quoteDouble) then mbsequence
  else
    match findEntityForCharBasic thisChar (determineEntityTable flags.doctype) with
    | some rep => entityText rep
    | none =>
      if flags.substituteDisallowedChars ∧ ¬ unicodeCpIsAllowed thisChar flags.doctype then
        replacement
      else mbsequence

/-- The valid entity behind a `&`, without its `;`. -/
def validEntity (next : List UInt8) : Option (List UInt8) :=
  if next.headD 0 = 35 then
    match processNumericEntity next.tail with
    | (none, _) => none
    | (some code, pos) =>
      if flags.substituteDisallowedChars ∧ ¬ numericEntityIsAllowed code flags.doctype then none
      else some (textUpTo next pos)
  else
    match (processNamedEntityHtml next).1 with
    | none => none
    | some name =>
      match resolveNamedEntityHtml name (unescapeInverseMap tables true flags.doctype) with
      | some _ => some name
      | none => if flags.doctype = .XHTML ∧ name = apos then some name else none

/-- The body of the loop of `php_escape_html_entities_ex`, with `all` = 0: what is written, and
where the cursor is then. Nothing when the function gives up. -/
def escapeStep (doubleEncode : Bool) (old : List UInt8) : Option (List UInt8 × List UInt8) :=
  let r := getNextChar old 0
  let mbsequence := old.take r.cursor
  let next := old.drop r.cursor
  if r.status = .FAILURE then
    if flags.ignoreErrors then some ([], next)
    else if flags.substituteErrors then some (replacement, next)
    else none
  else if r.thisChar ≠ 38 then some (escapeChar flags r.thisChar mbsequence, next)
  else if doubleEncode then some (entityText amp, next)
  else
    match validEntity tables flags next with
    | none => some (entityText amp, next)
    | some ent => some (entityText ent, next.drop (ent.length + 1))

theorem length_escapeStep_lt {doubleEncode : Bool} {old chunk next : List UInt8} (hold : old ≠ [])
    (h : escapeStep tables flags doubleEncode old = some (chunk, next)) :
    next.length < old.length := by
  have hpos := List.length_pos_of_ne_nil hold
  have hcursor := (getNextChar_cursor hpos).1
  have hnext : (old.drop (getNextChar old 0).cursor).length < old.length := by
    rw [List.length_drop]
    omega
  have close : ∀ {o : Option (List UInt8 × List UInt8)} {c : List UInt8},
      some (c, old.drop (getNextChar old 0).cursor) = o → o = some (chunk, next) →
      next.length < old.length := by
    rintro o c rfl h
    cases h
    exact hnext
  rw [escapeStep] at h
  split at h
  · split at h
    · exact close rfl h
    split at h
    · exact close rfl h
    · cases h
  split at h
  · exact close rfl h
  split at h
  · exact close rfl h
  split at h
  · exact close rfl h
  · next ent _ =>
    cases h
    rw [List.length_drop]
    exact Nat.lt_of_le_of_lt (Nat.sub_le _ _) hnext

/-- The loop of `php_escape_html_entities_ex`. -/
def escapeLoop (doubleEncode : Bool) (old : List UInt8) : Option (List UInt8) :=
  if hold : old = [] then some []
  else
    match h : escapeStep tables flags doubleEncode old with
    | none => none
    | some (chunk, next) =>
      have := length_escapeStep_lt tables flags hold h
      (escapeLoop doubleEncode next).map (chunk ++ ·)
termination_by old.length

/-- `php_escape_html_entities_ex`, with `all` = 0: the empty string when it gives up. -/
def phpEscapeHtmlEntitiesEx (doubleEncode : Bool) (old : List UInt8) : List UInt8 :=
  (escapeLoop tables flags doubleEncode old).getD []

end Encoder

end PhpRuntime.Html
