import PhpRuntime.Request.Variables
import PhpRuntime.Url.Encode

/-!
# Query strings

The fields of a request are read into an array (`main/php_variables.c`), and an array is written
as such fields (`ext/standard/http.c`). What is written is read back.
-/

set_option autoImplicit false

namespace PhpRuntime.Request

open PhpRuntime.Hash PhpRuntime.Lib PhpRuntime.Lib.OrderedMap PhpRuntime.Text PhpRuntime.Url

/-! ## Reading -/

/-- `arg_separator.input`, `max_input_vars` and `max_input_nesting_level` -/
structure Settings where
  argSeparatorInput : List UInt8
  maxInputVars : ℤ
  maxInputNestingLevel : ℤ

/-- The tokens that one call of `php_strtok_r` after the other gives, with what is read of the
next one. Delimiters in front of a token are skipped. -/
def phpStrtokR (delim : List UInt8) : List UInt8 → List UInt8 → List (List UInt8)
  | tok, [] => if tok = [] then [] else [tok]
  | tok, c :: s =>
    if c ∈ delim then
      if tok = [] then phpStrtokR delim [] s else tok :: phpStrtokR delim [] s
    else phpStrtokR delim (tok ++ [c]) s

/-- What `memchr(s, '&', e - s)` divides the data into. Nothing stands behind a last `&`. -/
def postPieces : List UInt8 → List UInt8 → List (List UInt8)
  | piece, [] => if piece = [] then [] else [piece]
  | piece, c :: s =>
    if c = 38 then piece :: postPieces [] s else postPieces (piece ++ [c]) s

abbrev Vars := Table (Zval (List UInt8))

/-- A field `name=value` is decoded and registered. The name is a C string, the value has its
length with it. -/
def registerField (settings : Settings) (symbols cookies : Bool) (name val : List UInt8)
    (t : Vars) : Vars :=
  phpRegisterVariableEx settings.maxInputNestingLevel symbols cookies
    ((phpUrlDecode name).takeWhile (· ≠ 0)) (phpUrlDecode val) t

/-- What stands behind the first `=`. -/
def fieldValue (var : List UInt8) : List UInt8 := (var.dropWhile (· ≠ 61)).tail

/-- The loop of `php_default_treat_data` over the tokens. Spaces in front of the name of a cookie
are skipped. -/
def treatLoop (settings : Settings) (symbols cookies : Bool) :
    ℤ → List (List UInt8) → Vars → Vars
  | _, [], t => t
  | count, var :: rest, t =>
    let name := var.takeWhile (· ≠ 61)
    let name := if cookies = true then name.dropWhile isspace else name
    if cookies = true ∧ name = [] then treatLoop settings symbols cookies count rest t
    else if settings.maxInputVars < count + 1 then t
    else treatLoop settings symbols cookies (count + 1) rest
      (registerField settings symbols cookies name (fieldValue var) t)

/-- `arg` of `php_default_treat_data`, but for `PARSE_POST` -/
inductive Arg where
  | get
  | cookie
  | string
  deriving DecidableEq, Repr

/-- `php_default_treat_data` with the default input filter. Only `PARSE_STRING` has an array to
start with, which may be the symbol table. -/
def phpDefaultTreatData (settings : Settings) (arg : Arg) (symbols : Bool) (res : List UInt8)
    (destArray : Vars) : Vars :=
  let res := res.takeWhile (· ≠ 0)
  match arg with
  | .get => treatLoop settings false false 0 (phpStrtokR settings.argSeparatorInput [] res) .empty
  | .cookie => treatLoop settings false true 0 (phpStrtokR [59] [] res) .empty
  | .string =>
    treatLoop settings symbols false 0 (phpStrtokR settings.argSeparatorInput [] res) destArray

/-- The loop of `php_std_post_handler`. Data without a `=` is no field. -/
def postLoop (settings : Settings) :
    ℤ → List (List UInt8) → Vars → Vars
  | _, [], t => t
  | count, s :: rest, t =>
    if 61 ∈ s then
      if settings.maxInputVars < count + 1 then t
      else postLoop settings (count + 1) rest
        (registerField settings false false (s.takeWhile (· ≠ 61)) (fieldValue s) t)
    else postLoop settings count rest t

/-- `php_std_post_handler` -/
def phpStdPostHandler (settings : Settings) (postData : List UInt8)
    (t : Vars) : Vars :=
  postLoop settings 0 (postPieces [] postData) t

/-! ## Both readers -/

theorem phpStrtokR_eq_filter (tok s : List UInt8) :
    phpStrtokR [38] tok s = (postPieces tok s).filter (· ≠ []) := by
  induction s generalizing tok with
  | nil =>
    unfold phpStrtokR postPieces
    by_cases htok : tok = []
    · rw [if_pos htok]
      rfl
    · rw [if_neg htok, List.filter_cons_of_pos (by simpa using htok)]
      rfl
  | cons c s ih =>
    rw [phpStrtokR, postPieces]
    by_cases hc : c = 38
    · rw [if_pos (by simpa using hc), if_pos hc]
      by_cases htok : tok = []
      · rw [if_pos htok, List.filter_cons_of_neg (by simpa using htok), ih]
      · rw [if_neg htok, List.filter_cons_of_pos (by simpa using htok), ih]
    · rw [if_neg (by simpa using hc), if_neg hc, ih]

theorem treatLoop_cons (settings : Settings) (symbols : Bool) (count : ℤ) (var : List UInt8)
    (rest : List (List UInt8)) (t : Vars) :
    treatLoop settings symbols false count (var :: rest) t =
      if settings.maxInputVars < count + 1 then t
      else treatLoop settings symbols false (count + 1) rest
        (registerField settings symbols false (var.takeWhile (· ≠ 61)) (fieldValue var) t) :=
  rfl

theorem postLoop_eq_treatLoop (settings : Settings) {pieces : List (List UInt8)}
    (h : ∀ piece ∈ pieces, piece ≠ [] → 61 ∈ piece) (count : ℤ)
    (t : Vars) :
    postLoop settings count pieces t =
      treatLoop settings false false count (pieces.filter (· ≠ [])) t := by
  induction pieces generalizing count t with
  | nil => rfl
  | cons piece pieces ih =>
    have ih' := ih fun p hp => h p (List.mem_cons_of_mem _ hp)
    rw [postLoop]
    by_cases hnil : piece = []
    · rw [if_neg (by rw [hnil]; exact List.not_mem_nil), ih',
        List.filter_cons_of_neg (by simpa using hnil)]
    · rw [if_pos (h piece List.mem_cons_self hnil), List.filter_cons_of_pos (by simpa using hnil),
        treatLoop_cons, ih']

/-- **A posted body is read like a query string.** The two readers divide it differently and count
its fields differently, but only where a field has no `=`. -/
theorem phpStdPostHandler_eq (settings : Settings) (hsep : settings.argSeparatorInput = [38])
    {postData : List UInt8} (hnul : 0 ∉ postData)
    (hfields : ∀ piece ∈ postPieces [] postData, piece ≠ [] → 61 ∈ piece)
    (t : Vars) :
    phpStdPostHandler settings postData t =
      phpDefaultTreatData settings .string false postData t := by
  have hall : postData.takeWhile (· ≠ 0) = postData :=
    List.takeWhile_eq_self_iff.mpr fun c hc => decide_eq_true fun heq : c = 0 => hnul (heq ▸ hc)
  unfold phpStdPostHandler phpDefaultTreatData
  dsimp only
  rw [hall, hsep, phpStrtokR_eq_filter, postLoop_eq_treatLoop settings hfields]

theorem phpStdPostHandler_two :
    phpStdPostHandler ⟨[38], 2, 0⟩ [97, 61, 49, 38, 98, 61, 50] .empty =
      phpDefaultTreatData ⟨[38], 2, 0⟩ .string false [97, 61, 49, 38, 98, 61, 50] .empty :=
  phpStdPostHandler_eq ⟨[38], 2, 0⟩ rfl (by decide) (by decide) .empty

/-! ## Writing -/

/-- A value that is no array. A `bool` is written as a `long`. The text of a `double` is the one of
`%.*G`, which is not encoded. -/
inductive FormValue where
  | null
  | resource
  | long (n : ℤ)
  | double (text : {s : List UInt8 // ∀ c ∈ s, isPlain c = true})
  | string (s : List UInt8)

/-- The encoder of `enc_type`, which is that of RFC 3986 or the other one. -/
def queryEncode (rfc3986 : Bool) (s : List UInt8) : List UInt8 :=
  if rfc3986 = true then phpRawUrlEncode s else phpUrlEncode s

def FormValue.text (rfc3986 : Bool) : FormValue → Option (List UInt8)
  | null | resource => none
  | long n => some (decimal n)
  | double text => some text
  | string s => some (queryEncode rfc3986 s)

/-- A key as it is written. The `NUL` at its end is not. -/
def keyText (rfc3986 : Bool) (numPrefix : List UInt8) : Hash.Key → List UInt8
  | .str key => queryEncode rfc3986 (if key.getLast? = some 0 then key.dropLast else key)
  | .int idx => numPrefix ++ decimal (toLong idx)

/-- `%5B` -/
def openBracket : List UInt8 := [37, 53, 66]

/-- `%5D` -/
def closeBracket : List UInt8 := [37, 53, 68]

/-- A field is appended to `formstr`. -/
def addField (argSep formstr field : List UInt8) : List UInt8 :=
  (if formstr = [] then formstr else formstr ++ argSep) ++ field

mutual

/-- `php_url_encode_hash_ex` for an array -/
def phpUrlEncodeHashEx (rfc3986 : Bool)
    (argSep numPrefix keyPrefix keySuffix formstr : List UInt8) :
    Table (Zval FormValue) → List UInt8
  | ⟨elems, _⟩ => encodeElems rfc3986 argSep numPrefix keyPrefix keySuffix formstr elems

def encodeElems (rfc3986 : Bool) (argSep numPrefix keyPrefix keySuffix formstr : List UInt8) :
    List (Hash.Key × Zval FormValue) → List UInt8
  | [] => formstr
  | (key, zdata) :: elems =>
    encodeElems rfc3986 argSep numPrefix keyPrefix keySuffix
      (encodeZval rfc3986 argSep (keyPrefix ++ keyText rfc3986 numPrefix key ++ keySuffix) formstr
        zdata) elems

/-- One element. Arrays in it are written without a prefix for integer keys. -/
def encodeZval (rfc3986 : Bool) (argSep key formstr : List UInt8) : Zval FormValue → List UInt8
  | .scalar val =>
    match val.text rfc3986 with
    | none => formstr
    | some text => addField argSep formstr (key ++ 61 :: text)
  | .array ht => phpUrlEncodeHashEx rfc3986 argSep [] (key ++ openBracket) closeBracket formstr ht

end

/-! ## Data that comes back -/

/-- The value that is read back. A plus in the text of a `double` is read as a space. -/
def FormValue.value : FormValue → Option (List UInt8)
  | null | resource => none
  | long n => some (decimal n)
  | double text => some (phpUrlDecode text)
  | string s => some s

/-- Names that no rule for request variables changes, at the top and in brackets. -/
def IsName : Bool → List UInt8 → Prop
  | false, k => k ≠ [] ∧ ∀ c ∈ k, c ≠ 0 ∧ c ≠ 32 ∧ c ≠ 46 ∧ c ≠ 91
  | true, k => indexOf k = some k ∧ ∀ c ∈ k, c ≠ 0 ∧ c ≠ 93

/-- An array made by storing under new names, in which arrays are nested at most `levels` deep, with
`fields` values that are written. It is read back as `t`: values that are not written are missing,
and so are arrays without other values. -/
inductive Form : Bool → ℕ → ℕ → Table (Zval FormValue) → Vars → Prop
  | empty {inner : Bool} {levels : ℕ} : Form inner levels 0 .empty .empty
  | dropped {inner : Bool} {levels fields : ℕ} {d : Table (Zval FormValue)}
      {t : Vars} {k : List UInt8} {v : FormValue}
      (form : Form inner levels fields d t) (new : d.symtableFind k = none)
      (value : v.value = none) : Form inner levels fields (d.symtableUpdate k (.scalar v)) t
  | value {inner : Bool} {levels fields : ℕ} {d : Table (Zval FormValue)}
      {t : Vars} {k s : List UInt8} {v : FormValue}
      (form : Form inner levels fields d t) (name : IsName inner k)
      (new : d.symtableFind k = none) (value : v.value = some s) :
      Form inner levels (fields + 1) (d.symtableUpdate k (.scalar v))
        (t.symtableUpdate k (.scalar s))
  | array {inner : Bool} {levels fields fields' : ℕ} {d d' : Table (Zval FormValue)}
      {t t' : Vars} {k : List UInt8}
      (form : Form inner (levels + 1) fields d t) (name : IsName inner k)
      (new : d.symtableFind k = none) (form' : Form true levels fields' d' t') :
      Form inner (levels + 1) (fields + fields') (d.symtableUpdate k (.array d'))
        (if fields' = 0 then t else t.symtableUpdate k (.array t'))

/-! ## Storing under new names -/

section Tables

variable {V β : Type} {d : Table V} {t : Table (Zval β)} {k k' : List UInt8}

theorem elems_update_new (new : d.symtableFind k = none) (v : V) :
    (d.symtableUpdate k v).elems = d.elems ++ [(symtableKey k, v)] :=
  set_of_notMem (lookup_eq_none_iff.mp new)

theorem find_update_new (new : d.symtableFind k = none) (v : V) :
    (d.symtableUpdate k v).symtableFind k = some v := by
  unfold Table.symtableFind at new ⊢
  rw [elems_update_new new, lookup_append, new, lookup_cons, if_pos rfl]
  rfl

theorem find_update_of_ne (hne : k' ≠ k) (v : V) :
    (d.symtableUpdate k v).symtableFind k' = d.symtableFind k' :=
  lookup_set_of_ne fun heq => hne (symtableKey_injective heq)

theorem modify_update (v w : V) : (d.symtableUpdate k v).modify k w = d.symtableUpdate k w := by
  unfold Table.modify Table.symtableUpdate
  rw [replace_set]

theorem foldl_assign_inside (new : t.symtableFind k = none) {es : List (Entry β)} (hes : es ≠ []) :
    es.foldl (fun t e => assignAt (some k) (some e.base :: e.keys.map some) e.val t) t =
      t.symtableUpdate k (.array
        (es.foldl (fun t e => assignAt (some e.base) (e.keys.map some) e.val t) .empty)) := by
  have hstarted : ∀ (es : List (Entry β)) (sub : Table (Zval β)),
      es.foldl (fun t e => assignAt (some k) (some e.base :: e.keys.map some) e.val t)
          (t.symtableUpdate k (.array sub)) =
        t.symtableUpdate k (.array
          (es.foldl (fun t e => assignAt (some e.base) (e.keys.map some) e.val t) sub)) := by
    intro es
    induction es with
    | nil => exact fun _ => rfl
    | cons e es ih =>
      intro sub
      rw [List.foldl_cons, List.foldl_cons, ← ih, assignAt, Table.inside,
        find_update_new new]
      dsimp only
      rw [modify_update]
  obtain ⟨e, es, rfl⟩ := List.exists_cons_of_ne_nil hes
  rw [List.foldl_cons, List.foldl_cons, ← hstarted, assignAt, Table.inside, new]

theorem Form.new {inner : Bool} {levels fields : ℕ} {d : Table (Zval FormValue)}
    {t : Vars} (h : Form inner levels fields d t)
    (new : d.symtableFind k = none) : t.symtableFind k = none := by
  have hold : ∀ {d : Table (Zval FormValue)} {k' : List UInt8} {v : Zval FormValue},
      d.symtableFind k' = none → (d.symtableUpdate k' v).symtableFind k = none →
      k ≠ k' ∧ d.symtableFind k = none := by
    intro d k' v hnew hnone
    have hne : k ≠ k' := by
      rintro rfl
      rw [find_update_new hnew] at hnone
      cases hnone
    exact ⟨hne, find_update_of_ne hne v ▸ hnone⟩
  induction h with
  | empty => rfl
  | dropped _ hnew _ ih => exact ih (hold hnew new).2
  | value _ _ hnew _ ih =>
    obtain ⟨hne, hd⟩ := hold hnew new
    rw [find_update_of_ne hne]
    exact ih hd
  | array _ _ hnew _ ih _ =>
    obtain ⟨hne, hd⟩ := hold hnew new
    split
    · exact ih hd
    · rw [find_update_of_ne hne]
      exact ih hd

end Tables

/-! ## The fields that are written -/

theorem queryEncode_plain (rfc3986 : Bool) (s : List UInt8) :
    ∀ c ∈ queryEncode rfc3986 s, isPlain c = true := by
  unfold queryEncode
  split
  · exact isPlain_encode
  · exact isPlain_encode

theorem phpUrlDecode_queryEncode (rfc3986 : Bool) (s t : List UInt8) :
    phpUrlDecode (queryEncode rfc3986 s ++ t) = s ++ phpUrlDecode t := by
  unfold queryEncode
  split
  · exact decode_encode (fun _ => rfl) _ s t
  · exact decode_encode (fun _ => rfl) _ s t

theorem queryEncode_decimal (rfc3986 : Bool) (n : ℤ) :
    queryEncode rfc3986 (decimal n) = decimal n := by
  have hbyte : ∀ c ∈ decimal n, c = 45 ∨ isDigit c = true := by
    have hdigits := isDigit_digitBytes
      (Positional.canonical_numeral (b := 10) (by decide) n.natAbs).lt
    intro c hc
    unfold decimal at hc
    split at hc
    · exact (List.mem_cons.mp hc).imp_right (hdigits c)
    · exact Or.inr (hdigits c hc)
  have hkept : ∀ plus tilde : Bool, ∀ c ∈ decimal n, encodeByte plus tilde c = [c] := by
    intro plus tilde c hc
    refine encodeByte_kept ((hbyte c hc).imp_right fun hd => ?_) plus tilde
    rwa [isDigit, Bool.and_eq_true, decide_eq_true_eq, decide_eq_true_eq] at hd
  unfold queryEncode phpRawUrlEncode phpUrlEncode
  rw [List.flatMap_congr (hkept false true), List.flatMap_congr (hkept true false),
    List.flatMap_singleton', ite_self]

theorem keyText_symtableKey (rfc3986 : Bool) (k : List UInt8) :
    keyText rfc3986 [] (symtableKey k) = queryEncode rfc3986 k := by
  cases hk : zendHandleNumericEx (k ++ [0]) with
  | some idx =>
    obtain ⟨n, -, rfl, hn⟩ := zendHandleNumericEx_eq_some.mp hk
    rw [symtableKey_of_some hk, keyText, hn, List.nil_append, queryEncode_decimal]
  | none =>
    rw [symtableKey_of_none hk, keyText, List.getLast?_concat, if_pos rfl, List.dropLast_concat]

theorem FormValue.text_none {v : FormValue} (h : v.value = none) (rfc3986 : Bool) :
    v.text rfc3986 = none := by
  cases v with
  | null => rfl
  | resource => rfl
  | _ => cases h

theorem FormValue.text_some {v : FormValue} {s : List UInt8} (h : v.value = some s)
    (rfc3986 : Bool) : ∃ text, v.text rfc3986 = some text ∧ phpUrlDecode text = s ∧
      ∀ c ∈ text, isPlain c = true := by
  have hencoded : ∀ s, phpUrlDecode (queryEncode rfc3986 s) = s := fun s => by
    have hs := phpUrlDecode_queryEncode rfc3986 s []
    rwa [List.append_nil, show phpUrlDecode [] = [] from rfl, List.append_nil] at hs
  cases v with
  | null => cases h
  | resource => cases h
  | long n =>
    cases h
    refine ⟨_, rfl, ?_⟩
    rw [← queryEncode_decimal rfc3986 n]
    exact ⟨(hencoded _).trans (queryEncode_decimal _ n).symm, queryEncode_plain _ _⟩
  | double text =>
    cases h
    exact ⟨_, rfl, rfl, text.2⟩
  | string s =>
    cases h
    exact ⟨_, rfl, hencoded s, queryEncode_plain _ _⟩

abbrev Field := Entry (List UInt8) × List UInt8

/-- The name of a field behind the prefix and the suffix of its array. -/
def nameText (rfc3986 : Bool) (keyPrefix keySuffix : List UInt8) (e : Entry (List UInt8)) :
    List UInt8 :=
  keyPrefix ++ queryEncode rfc3986 e.base ++ keySuffix ++
    e.keys.flatMap fun k => openBracket ++ queryEncode rfc3986 k ++ closeBracket

def fieldText (rfc3986 : Bool) (keyPrefix keySuffix : List UInt8)
    (f : Field) : List UInt8 :=
  nameText rfc3986 keyPrefix keySuffix f.1 ++ 61 :: f.2

/-- A field that is read back. -/
structure IsField (inner : Bool) (levels : ℕ) (f : Field) : Prop where
  name : IsName inner f.1.base
  keys : ∀ k ∈ f.1.keys, IsName true k
  depth : f.1.keys.length ≤ levels
  value : phpUrlDecode f.2 = f.1.val
  plain : ∀ c ∈ f.2, isPlain c = true

def assignEntry (t : Vars) (e : Entry (List UInt8)) : Vars :=
  assignAt (some e.base) (e.keys.map some) e.val t

/-- The fields that are written for an array, and the array that they assign. -/
structure Written (rfc3986 inner : Bool) (levels : ℕ) (d : Table (Zval FormValue))
    (t : Vars) (fs : List Field) : Prop where
  fields : ∀ f ∈ fs, IsField inner levels f
  text : ∀ argSep keyPrefix keySuffix formstr,
    phpUrlEncodeHashEx rfc3986 argSep [] keyPrefix keySuffix formstr d =
      fs.foldl (fun s f => addField argSep s (fieldText rfc3986 keyPrefix keySuffix f)) formstr
  assigned : (fs.map Prod.fst).foldl assignEntry .empty = t

section Fields

variable {rfc3986 inner : Bool} {levels fields : ℕ} {d d' : Table (Zval FormValue)}
  {t t' : Vars} {k s : List UInt8}
  {fs fs' : List Field}

theorem encodeElems_append (argSep numPrefix keyPrefix keySuffix formstr : List UInt8)
    (elems elems' : List (Hash.Key × Zval FormValue)) :
    encodeElems rfc3986 argSep numPrefix keyPrefix keySuffix formstr (elems ++ elems') =
      encodeElems rfc3986 argSep numPrefix keyPrefix keySuffix
        (encodeElems rfc3986 argSep numPrefix keyPrefix keySuffix formstr elems) elems' := by
  induction elems generalizing formstr with
  | nil => rfl
  | cons e elems ih => exact ih _

theorem encode_update_new (new : d.symtableFind k = none) (v : Zval FormValue)
    (argSep keyPrefix keySuffix formstr : List UInt8) :
    phpUrlEncodeHashEx rfc3986 argSep [] keyPrefix keySuffix formstr (d.symtableUpdate k v) =
      encodeZval rfc3986 argSep (keyPrefix ++ queryEncode rfc3986 k ++ keySuffix)
        (phpUrlEncodeHashEx rfc3986 argSep [] keyPrefix keySuffix formstr d) v := by
  have helems : ∀ d : Table (Zval FormValue),
      phpUrlEncodeHashEx rfc3986 argSep [] keyPrefix keySuffix formstr d =
        encodeElems rfc3986 argSep [] keyPrefix keySuffix formstr d.elems := by
    rintro ⟨elems, _⟩
    rw [phpUrlEncodeHashEx]
  rw [helems, helems, elems_update_new new, encodeElems_append, ← keyText_symtableKey]
  rfl

theorem Written.value (h : Written rfc3986 inner levels d t fs) (name : IsName inner k)
    (new : d.symtableFind k = none) {v : FormValue} {text : List UInt8}
    (htext : v.text rfc3986 = some text) (hvalue : phpUrlDecode text = s)
    (hplain : ∀ c ∈ text, isPlain c = true) :
    Written rfc3986 inner levels (d.symtableUpdate k (.scalar v)) (t.symtableUpdate k (.scalar s))
      (fs ++ [(⟨k, [], s⟩, text)]) where
  fields := by
    intro f hf
    rcases List.mem_append.mp hf with hf | hf
    · exact h.fields f hf
    · rw [List.mem_singleton.mp hf]
      exact ⟨name, fun _ hk => absurd hk List.not_mem_nil, Nat.zero_le _, hvalue, hplain⟩
  text := by
    intro argSep keyPrefix keySuffix formstr
    have hfield : fieldText rfc3986 keyPrefix keySuffix (⟨k, [], s⟩, text) =
        keyPrefix ++ queryEncode rfc3986 k ++ keySuffix ++ 61 :: text := by
      rw [fieldText, nameText, List.flatMap_nil, List.append_nil]
    rw [encode_update_new new, h.text, List.foldl_append, encodeZval, htext, List.foldl_cons,
      hfield]
    rfl
  assigned := by
    rw [List.map_append, List.foldl_append, h.assigned]
    rfl

def pushName (k : List UInt8) (f : Field) :
    Entry (List UInt8) × List UInt8 :=
  (⟨k, f.1.base :: f.1.keys, f.1.val⟩, f.2)

theorem fieldText_pushName (keyPrefix keySuffix : List UInt8)
    (f : Field) :
    fieldText rfc3986 keyPrefix keySuffix (pushName k f) =
      fieldText rfc3986 (keyPrefix ++ queryEncode rfc3986 k ++ keySuffix ++ openBracket)
        closeBracket f := by
  simp only [fieldText, nameText, pushName, List.flatMap_cons, List.append_assoc]

theorem Written.array (h : Written rfc3986 inner (levels + 1) d t fs) (name : IsName inner k)
    (new : d.symtableFind k = none) (hnew : t.symtableFind k = none)
    (h' : Written rfc3986 true levels d' t' fs') :
    Written rfc3986 inner (levels + 1) (d.symtableUpdate k (.array d'))
      (if fs'.length = 0 then t else t.symtableUpdate k (.array t'))
      (fs ++ fs'.map (pushName k)) where
  fields := by
    intro f hf
    rcases List.mem_append.mp hf with hf | hf
    · exact h.fields f hf
    · obtain ⟨f', hf', rfl⟩ := List.mem_map.mp hf
      have hfield := h'.fields f' hf'
      exact ⟨name, List.forall_mem_cons.mpr ⟨hfield.name, hfield.keys⟩,
        Nat.succ_le_succ hfield.depth, hfield.value, hfield.plain⟩
  text := by
    intro argSep keyPrefix keySuffix formstr
    rw [encode_update_new new, h.text, List.foldl_append, encodeZval, h'.text, List.foldl_map]
    simp only [fieldText_pushName]
  assigned := by
    rw [List.map_append, List.foldl_append, h.assigned, List.map_map, ← h'.assigned]
    by_cases hnil : fs' = []
    · subst hnil
      rfl
    · have hne : fs'.map Prod.fst ≠ [] := by simpa using hnil
      have hinside := foldl_assign_inside hnew hne
      rw [if_neg (by simpa using hnil)]
      refine Eq.trans ?_ hinside
      rw [List.foldl_map, List.foldl_map]
      rfl

theorem Form.written (h : Form inner levels fields d t) (rfc3986 : Bool) :
    ∃ fs, fs.length = fields ∧ Written rfc3986 inner levels d t fs := by
  induction h with
  | empty =>
    exact ⟨[], rfl, fun _ hf => absurd hf List.not_mem_nil, fun _ _ _ _ => rfl, rfl⟩
  | dropped _ new value ih =>
    obtain ⟨fs, hlen, hw⟩ := ih
    refine ⟨fs, hlen, hw.fields, fun argSep keyPrefix keySuffix formstr => ?_, hw.assigned⟩
    rw [encode_update_new new, encodeZval, FormValue.text_none value, hw.text]
  | value _ name new value ih =>
    obtain ⟨fs, hlen, hw⟩ := ih
    obtain ⟨text, htext, hvalue, hplain⟩ := FormValue.text_some value rfc3986
    refine ⟨_, ?_, hw.value name new htext hvalue hplain⟩
    rw [List.length_append, hlen, List.length_singleton]
  | array form name new form' ih ih' =>
    obtain ⟨fs, hlen, hw⟩ := ih
    obtain ⟨fs', hlen', hw'⟩ := ih'
    refine ⟨_, ?_, hlen' ▸ hw.array name new (form.new new) hw'⟩
    rw [List.length_append, hlen, List.length_map, hlen']

/-! ## Reading the fields -/

variable {argSep delim : List UInt8}

theorem phpStrtokR_token {x : List UInt8} (hx : ∀ c ∈ x, c ∉ delim) (tok s : List UInt8) :
    phpStrtokR delim tok (x ++ s) = phpStrtokR delim (tok ++ x) s := by
  induction x generalizing tok with
  | nil => rw [List.append_nil, List.nil_append]
  | cons c x ih =>
    rw [List.cons_append, phpStrtokR, if_neg (hx c List.mem_cons_self),
      ih fun c hc => hx c (List.mem_cons_of_mem _ hc), List.append_assoc, List.singleton_append]

theorem phpStrtokR_delims (hsep : ∀ c ∈ argSep, c ∈ delim) (s : List UInt8) :
    phpStrtokR delim [] (argSep ++ s) = phpStrtokR delim [] s := by
  induction argSep with
  | nil => rfl
  | cons c sep ih =>
    rw [List.cons_append, phpStrtokR, if_pos (hsep c List.mem_cons_self), if_pos rfl,
      ih fun c hc => hsep c (List.mem_cons_of_mem _ hc)]

theorem foldl_addField {xs : List (List UInt8)} {formstr : List UInt8} (hne : formstr ≠ []) :
    xs.foldl (addField argSep) formstr = formstr ++ xs.flatMap (argSep ++ ·) := by
  induction xs generalizing formstr with
  | nil => rw [List.flatMap_nil, List.append_nil]; rfl
  | cons x xs ih =>
    rw [List.foldl_cons, addField, if_neg hne, ih (by simp [hne]), List.flatMap_cons]
    simp only [List.append_assoc]

theorem mem_foldl_addField {xs : List (List UInt8)} {formstr : List UInt8} {c : UInt8}
    (hc : c ∈ xs.foldl (addField argSep) formstr) :
    c ∈ formstr ∨ c ∈ argSep ∨ ∃ x ∈ xs, c ∈ x := by
  induction xs generalizing formstr with
  | nil => exact Or.inl hc
  | cons x xs ih =>
    rcases ih hc with hc | hc | ⟨y, hy, hc⟩
    · rcases List.mem_append.mp hc with hc | hc
      · split at hc
        · exact Or.inl hc
        · exact (List.mem_append.mp hc).imp_right Or.inl
      · exact Or.inr (Or.inr ⟨x, List.mem_cons_self, hc⟩)
    · exact Or.inr (Or.inl hc)
    · exact Or.inr (Or.inr ⟨y, List.mem_cons_of_mem _ hy, hc⟩)

theorem phpStrtokR_fields {xs : List (List UInt8)} (hxs : ∀ x ∈ xs, x ≠ [] ∧ ∀ c ∈ x, c ∉ delim)
    (hne : argSep ≠ []) (hsep : ∀ c ∈ argSep, c ∈ delim) :
    phpStrtokR delim [] (xs.foldl (addField argSep) []) = xs := by
  have hrest : ∀ {xs : List (List UInt8)}, (∀ x ∈ xs, x ≠ [] ∧ ∀ c ∈ x, c ∉ delim) →
      ∀ tok ≠ [], phpStrtokR delim tok (xs.flatMap (argSep ++ ·)) = tok :: xs := by
    intro xs
    induction xs with
    | nil => exact fun _ tok htok => if_neg htok
    | cons x xs ih =>
      intro hxs tok htok
      obtain ⟨hx, hrest⟩ := List.forall_mem_cons.mp hxs
      obtain ⟨c, sep, rfl⟩ := List.exists_cons_of_ne_nil hne
      rw [List.flatMap_cons, List.cons_append, List.cons_append, phpStrtokR,
        if_pos (hsep c List.mem_cons_self), if_neg htok, List.append_assoc,
        phpStrtokR_delims fun c hc => hsep c (List.mem_cons_of_mem _ hc),
        phpStrtokR_token hx.2, List.nil_append, ih hrest x hx.1]
  cases xs with
  | nil => rfl
  | cons x xs =>
    obtain ⟨hx, htail⟩ := List.forall_mem_cons.mp hxs
    rw [List.foldl_cons, addField, if_pos rfl, List.nil_append, foldl_addField hx.1,
      phpStrtokR_token hx.2, List.nil_append, hrest htail x hx.1]

variable {f : Field}

theorem nameText_plain (rfc3986 : Bool) (e : Entry (List UInt8)) :
    ∀ c ∈ nameText rfc3986 [] [] e, isPlain c = true := by
  intro c hc
  rw [nameText, List.append_nil, List.nil_append] at hc
  rcases List.mem_append.mp hc with hc | hc
  · exact queryEncode_plain _ _ c hc
  · obtain ⟨k, -, hc⟩ := List.mem_flatMap.mp hc
    have hbrackets : ∀ c ∈ openBracket ++ closeBracket, isPlain c = true :=
      List.all_eq_true.mp rfl
    rcases List.mem_append.mp hc with hc | hc
    · rcases List.mem_append.mp hc with hc | hc
      · exact hbrackets c (List.mem_append_left _ hc)
      · exact queryEncode_plain _ _ c hc
    · exact hbrackets c (List.mem_append_right _ hc)

theorem phpUrlDecode_nameText (rfc3986 : Bool) (e : Entry (List UInt8)) :
    phpUrlDecode (nameText rfc3986 [] [] e) = e.name := by
  have hopen : ∀ s, phpUrlDecode (openBracket ++ s) = 91 :: phpUrlDecode s :=
    fun s => decode_percent (by decide) true s
  have hclose : ∀ s, phpUrlDecode (closeBracket ++ s) = 93 :: phpUrlDecode s :=
    fun s => decode_percent (by decide) true s
  have hkeys : ∀ ks : List (List UInt8), phpUrlDecode
      (ks.flatMap fun k => openBracket ++ queryEncode rfc3986 k ++ closeBracket) =
        brackets ks := by
    intro ks
    induction ks with
    | nil => rfl
    | cons k ks ih =>
      rw [List.flatMap_cons, brackets_cons, List.append_assoc, List.append_assoc, hopen,
        phpUrlDecode_queryEncode, hclose, ih]
  rw [nameText, List.nil_append, List.append_nil, phpUrlDecode_queryEncode, hkeys, Entry.name]

theorem Entry.name_no_nul (h : IsField false levels f) : ∀ c ∈ f.1.name, c ≠ 0 := by
  intro c hc
  rcases List.mem_append.mp hc with hc | hc
  · exact (h.name.2 c hc).1
  · obtain ⟨k, hk, hc⟩ := List.mem_flatMap.mp hc
    rcases List.mem_cons.mp hc with rfl | hc
    · decide
    · rcases List.mem_append.mp hc with hc | hc
      · exact ((h.keys k hk).2 c hc).1
      · rw [List.mem_singleton.mp hc]
        decide

theorem registerField_fieldText (settings : Settings) (h : IsField false levels f)
    (hlevels : (levels : ℤ) ≤ max 0 settings.maxInputNestingLevel) (rfc3986 : Bool)
    (t : Vars) :
    registerField settings false false ((fieldText rfc3986 [] [] f).takeWhile (· ≠ 61))
        (fieldValue (fieldText rfc3986 [] [] f)) t = assignEntry t f.1 := by
  have hequals : 61 ∉ nameText rfc3986 [] [] f.1 :=
    fun hmem => absurd (nameText_plain rfc3986 f.1 61 hmem) (by decide)
  have hbase : ∀ c ∈ f.1.base, c ≠ 32 ∧ c ≠ 46 ∧ c ≠ 91 := fun c hc => (h.name.2 c hc).2
  have hvar : f.1.var = f.1.base := by
    have hdrop : f.1.base.dropWhile (· = 32) = f.1.base := by
      cases hcons : f.1.base with
      | nil => rfl
      | cons c base =>
        exact List.dropWhile_cons_of_neg (by simpa using (hbase c (hcons ▸ List.mem_cons_self)).1)
    rw [Entry.var, hdrop]
    refine (List.map_congr_left fun c hc => ?_).trans (List.map_id _)
    exact if_neg (not_or.mpr ⟨(hbase c hc).1, (hbase c hc).2.1⟩)
  have hkeys : f.1.keys.map indexOf = f.1.keys.map some :=
    List.map_congr_left fun k hk => (h.keys k hk).1
  have hnamed : f.1.Named :=
    ⟨h.name.1, fun hmem => (hbase 91 hmem).2.2 rfl,
      fun k hk hmem => ((h.keys k hk).2 93 hmem).2 rfl⟩
  obtain ⟨c, hc⟩ := List.exists_mem_of_ne_nil _ h.name.1
  unfold registerField fieldValue fieldText
  rw [takeWhile_before hequals, dropWhile_before hequals, List.tail_cons,
    phpUrlDecode_nameText, h.value,
    List.takeWhile_eq_self_iff.mpr fun c hc => decide_eq_true (Entry.name_no_nul h c hc),
    phpRegisterVariableEx_assign _ hnamed ⟨c, hc, (hbase c hc).1⟩, Entry.assign, if_pos, hvar,
    hkeys]
  · rfl
  · exact (Int.ofNat_le.mpr h.depth).trans hlevels

theorem treatLoop_fields (settings : Settings) (rfc3986 : Bool)
    (hlevels : (levels : ℤ) ≤ max 0 settings.maxInputNestingLevel)
    (h : ∀ f ∈ fs, IsField false levels f) {count : ℤ}
    (hcount : count + fs.length ≤ settings.maxInputVars) (t : Vars) :
    treatLoop settings false false count (fs.map (fieldText rfc3986 [] [])) t =
      (fs.map Prod.fst).foldl assignEntry t := by
  induction fs generalizing count t with
  | nil => rfl
  | cons f fs ih =>
    obtain ⟨hf, hrest⟩ := List.forall_mem_cons.mp h
    rw [List.length_cons, Nat.cast_succ] at hcount
    rw [List.map_cons, treatLoop_cons, if_neg (by omega),
      registerField_fieldText settings hf hlevels, ih hrest (by omega)]
    rfl

end Fields

/-- The name of a cookie in front of its `=`, which is not decoded yet. -/
def cookieName (var : List UInt8) : List UInt8 := (var.takeWhile (· ≠ 61)).dropWhile isspace

theorem treatLoop_cookie (settings : Settings) (count : ℤ) (var : List UInt8)
    (rest : List (List UInt8)) (t : Vars) :
    treatLoop settings false true count (var :: rest) t =
      if cookieName var = [] then treatLoop settings false true count rest t
      else if settings.maxInputVars < count + 1 then t
      else treatLoop settings false true (count + 1) rest
        (registerField settings false true (cookieName var) (fieldValue var) t) := by
  rw [treatLoop]
  simp only [if_true, true_and]
  rfl

theorem find_registerField_cookie (settings : Settings) {name : List UInt8}
    (hname : 91 ∉ phpUrlDecode name) (val : List UInt8) {t : Vars} {k : List UInt8}
    {v : Zval (List UInt8)} (h : t.symtableFind k = some v) :
    (registerField settings false true name val t).symtableFind k = some v := by
  unfold registerField phpRegisterVariableEx
  dsimp only
  generalize hrest : ((phpUrlDecode name).takeWhile (· ≠ 0)).dropWhile (· = 32) = rest
  have hplain : rest.dropWhile (· ≠ 91) = [] := by
    refine List.dropWhile_eq_nil_iff.mpr fun c hc => decide_eq_true ?_
    rintro rfl
    rw [← hrest] at hc
    exact hname ((List.takeWhile_prefix _).subset ((List.dropWhile_suffix _).subset hc))
  rw [hplain]
  generalize (rest.takeWhile (· ≠ 91)).map underscore = var
  split
  · exact h
  · rw [if_neg fun hsymbols => Bool.noConfusion hsymbols.1]
    dsimp only [Table.plainVar]
    split
    · exact h
    · next hfree =>
      by_cases hk : k = var
      · refine absurd ⟨rfl, ?_⟩ hfree
        rw [Table.symtableExists, ← hk, h]
        rfl
      · rw [find_update_of_ne hk, h]

theorem find_treatLoop_cookie (settings : Settings) {vars : List (List UInt8)}
    (hvars : ∀ var ∈ vars, 91 ∉ phpUrlDecode (cookieName var)) (count : ℤ) {t : Vars}
    {k : List UInt8} {v : Zval (List UInt8)} (h : t.symtableFind k = some v) :
    (treatLoop settings false true count vars t).symtableFind k = some v := by
  induction vars generalizing count t with
  | nil => exact h
  | cons var vars ih =>
    obtain ⟨hvar, hrest⟩ := List.forall_mem_cons.mp hvars
    rw [treatLoop_cookie]
    split
    · exact ih hrest count h
    · split
      · exact h
      · exact ih hrest _ (find_registerField_cookie settings hvar _ h)

theorem phpStrtokR_delim {delim : List UInt8} {c : UInt8} (hc : c ∈ delim) (tok s s' : List UInt8) :
    phpStrtokR delim tok (s ++ c :: s') = phpStrtokR delim tok s ++ phpStrtokR delim [] s' := by
  induction s generalizing tok with
  | nil =>
    refine (if_pos hc).trans ?_
    by_cases htok : tok = []
    · rw [if_pos htok, phpStrtokR, if_pos htok, List.nil_append]
    · rw [if_neg htok, phpStrtokR, if_neg htok, List.singleton_append]
  | cons d s ih =>
    rw [List.cons_append, phpStrtokR, phpStrtokR, ih, ih]
    split
    · split
      · rfl
      · rfl
    · rfl

/-- **The first cookie of a name counts.** What the cookies at the front of the header have stored
is not changed by those behind them, if these have no bracket in their names. -/
theorem phpDefaultTreatData_cookie (settings : Settings) {front behind : List UInt8}
    (hnul : 0 ∉ front) (hbehind : ∀ var ∈ phpStrtokR [59] [] (behind.takeWhile (· ≠ 0)),
      91 ∉ phpUrlDecode (cookieName var)) {k : List UInt8} {v : Zval (List UInt8)} (t : Vars)
    (h : (phpDefaultTreatData settings .cookie false front t).symtableFind k = some v) :
    (phpDefaultTreatData settings .cookie false (front ++ 59 :: behind) t).symtableFind k =
      some v := by
  have hloop : ∀ (vars : List (List UInt8)) (count : ℤ) (t : Vars),
      (treatLoop settings false true count vars t).symtableFind k = some v →
      (treatLoop settings false true count
        (vars ++ phpStrtokR [59] [] (behind.takeWhile (· ≠ 0))) t).symtableFind k = some v := by
    intro vars
    induction vars with
    | nil => exact fun count t h => find_treatLoop_cookie settings hbehind count h
    | cons var vars ih =>
      intro count t h
      rw [treatLoop_cookie] at h
      rw [List.cons_append, treatLoop_cookie]
      split
      · next hnil =>
        rw [if_pos hnil] at h
        exact ih _ _ h
      · next hnil =>
        rw [if_neg hnil] at h
        split
        · next hmax => rwa [if_pos hmax] at h
        · next hmax =>
          rw [if_neg hmax] at h
          exact ih _ _ h
  have hfront : ∀ c ∈ front, decide (c ≠ 0) = true :=
    fun c hc => decide_eq_true fun heq : c = 0 => hnul (heq ▸ hc)
  unfold phpDefaultTreatData at h ⊢
  dsimp only at h ⊢
  rw [List.takeWhile_append_of_pos hfront, List.takeWhile_cons_of_pos (by decide),
    phpStrtokR_delim List.mem_cons_self]
  rw [List.takeWhile_eq_self_iff.mpr hfront] at h
  exact hloop _ 0 _ h

theorem phpDefaultTreatData_twoCookies :
    (phpDefaultTreatData ⟨[38], 9, 9⟩ .cookie false [97, 61, 49, 59, 32, 97, 61, 50]
      .empty).symtableFind [97] = some (.scalar [49]) :=
  @phpDefaultTreatData_cookie ⟨[38], 9, 9⟩ [97, 61, 49] [32, 97, 61, 50] (by decide) (by decide)
    [97] (.scalar [49]) .empty rfl

/-! ## `GLOBALS` -/

section Other

variable {α : Type} {t : Table (Zval α)} {k var : List UInt8}

theorem find_modify_of_ne (hne : k ≠ var) (v : Zval α) :
    (t.modify var v).symtableFind k = t.symtableFind k := by
  unfold Table.modify Table.symtableFind
  dsimp only
  by_cases hmem : symtableKey var ∈ keys t.elems
  · rw [← set_of_mem hmem]
    exact lookup_set_of_ne fun heq => hne (symtableKey_injective heq)
  · rw [replace_of_notMem hmem]

theorem find_del_of_ne (hne : k ≠ var) : (t.symtableDel var).symtableFind k = t.symtableFind k := by
  unfold Table.symtableDel Table.symtableFind lookup erase
  dsimp only
  rw [List.find?_filter]
  congr 2
  funext e
  by_cases he : e.1 = symtableKey k
  · simpa [he] using fun heq => hne (symtableKey_injective heq)
  · simp [he]

theorem find_plainVar_of_ne (cookies : Bool) (hne : k ≠ var) (val : α) :
    (t.plainVar cookies (some var) val).symtableFind k = t.symtableFind k := by
  unfold Table.plainVar
  dsimp only
  split
  · rfl
  · exact find_update_of_ne hne _

theorem find_registerLoop_of_ne (hne : k ≠ var) (hunclosed : ∀ ip, k ≠ var ++ 95 :: ip)
    (levels : ℕ) (cookies : Bool) (ip : List UInt8) (val : α) :
    (registerLoop levels cookies t (.var var) ip val).1.symtableFind k = t.symtableFind k := by
  cases levels with
  | zero => rfl
  | succ levels =>
    rw [registerLoop]
    cases readIndex ip with
    | none => exact find_plainVar_of_ne cookies (hunclosed ip) val
    | some read =>
      dsimp only [Index.name]
      split
      · exact find_modify_of_ne hne _
      · exact find_update_of_ne hne _

/-- **What comes with a request is kept out of `GLOBALS`** in the symbol table. -/
theorem registerVariable_globals (maxInputNestingLevel : ℤ) (cookies : Bool) (varName : List UInt8)
    (val : α) (t : Table (Zval α)) :
    (phpRegisterVariableEx maxInputNestingLevel true cookies varName val t).symtableFind
      globalsName = t.symtableFind globalsName := by
  unfold phpRegisterVariableEx
  dsimp only
  generalize varName.dropWhile (· = 32) = name
  generalize (name.takeWhile (· ≠ 91)).map underscore = var
  split
  · rfl
  · split
    · rfl
    · next hglobals =>
      have hne : globalsName ≠ var := fun heq => hglobals ⟨rfl, heq.symm⟩
      have hunclosed : ∀ ip, globalsName ≠ var ++ 95 :: ip := fun ip heq =>
        absurd (heq ▸ List.mem_append_right _ List.mem_cons_self : (95 : UInt8) ∈ globalsName)
          (by decide)
      cases name.dropWhile (· ≠ 91) with
      | nil => exact find_plainVar_of_ne cookies hne val
      | cons c ip =>
        have hloop := find_registerLoop_of_ne (t := t) hne hunclosed maxInputNestingLevel.toNat
          cookies ip val
        dsimp only
        split
        · next heq =>
          rw [heq] at hloop
          exact (find_del_of_ne hne).trans hloop
        · next heq =>
          rw [heq] at hloop
          exact hloop

end Other

end PhpRuntime.Request
