import PhpRuntime.Lib.Fallible
import PhpRuntime.Lib.SymbolSearch
import PhpRuntime.Text.CInt

/-!
# Parsing a URL

`php_url_parse_ex`. Pointers are indices into the string, behind which is a `NUL`; every read
and every copy is checked against the string and this `NUL`. A label of the source that is the
target of a `goto` is a function of its own.
-/

set_option autoImplicit false

namespace PhpRuntime.Url

open PhpRuntime.Lib
open PhpRuntime.Text (Undefined isdigit isalnum isspace toupper)

/-- `php_url`. A component that is not there is `NULL`. -/
structure Url where
  scheme : Option (List UInt8)
  user : Option (List UInt8)
  pass : Option (List UInt8)
  host : Option (List UInt8)
  port : ℕ
  path : Option (List UInt8)
  query : Option (List UInt8)
  fragment : Option (List UInt8)
  deriving DecidableEq, Repr

/-- What `ecalloc` gives. -/
def emptyUrl : Url := ⟨none, none, none, none, 0, none, none, none⟩

/-! ## Reads and copies -/

/-- `*(str + i)` -/
def readAt (str : List UInt8) (i : ℕ) : Except Undefined UInt8 :=
  if i ≤ str.length then .ok (str.getD i 0) else .error .outsideString

/-- `memchr(s, c, e - s)` -/
def memchr (str : List UInt8) (s e : ℕ) (c : UInt8) : Except Undefined (Option ℕ) :=
  if s ≤ e ∧ e ≤ str.length then .ok (firstIn str c s e) else .error .outsideString

/-- `zend_memrchr(s, c, e - s)` -/
def memrchr (str : List UInt8) (s e : ℕ) (c : UInt8) : Except Undefined (Option ℕ) :=
  if s ≤ e ∧ e ≤ str.length then .ok (lastIn str c s e) else .error .outsideString

/-- The end of the C string that begins at `s`. -/
def stringEnd (str : List UInt8) (s : ℕ) : ℕ := s + ((str.drop s).takeWhile (· ≠ 0)).length

/-- `strchr(s, c)` -/
def strchr (str : List UInt8) (s : ℕ) (c : UInt8) : Except Undefined (Option ℕ) :=
  if s ≤ str.length then .ok (firstIn str c s (stringEnd str s)) else .error .outsideString

/-- `iscntrl` -/
def iscntrl (c : UInt8) : Bool := c < 32 ∨ c = 127

/-- `php_replace_controlchars_ex` -/
def replaceControlchars (s : List UInt8) : List UInt8 := s.map fun c => if iscntrl c then 95 else c

/-- `estrndup(s, e - s)` and `php_replace_controlchars_ex` of the copy. -/
def copyPart (str : List UInt8) (s e : ℕ) : Except Undefined (List UInt8) :=
  if s ≤ e ∧ e ≤ str.length then .ok (replaceControlchars ((str.take e).drop s))
  else .error .outsideString

/-- The part from `s` up to `e` in place of `old`, when it is not empty. -/
def copyOver (str : List UInt8) (s e : ℕ) (old : Option (List UInt8)) :
    Except Undefined (Option (List UInt8)) :=
  if 0 < e - s then do
    let part ← copyPart str s e
    .ok (some part)
  else .ok old

/-- The digits at `p`; the loops over them end at the `NUL` at the latest. -/
def digitsAt (str : List UInt8) (p : ℕ) : List UInt8 := (str.drop p).takeWhile isdigit

def digitsValue (digits : List UInt8) : ℕ := digits.foldl (fun n c => n * 10 + (c.toNat - 48)) 0

/-- `strtol(port_buf, NULL, 10)` -/
def strtol (buf : List UInt8) : ℤ :=
  let buf := buf.dropWhile isspace
  match buf with
  | 45 :: rest => -digitsValue (rest.takeWhile isdigit)
  | 43 :: rest => digitsValue (rest.takeWhile isdigit)
  | rest => digitsValue (rest.takeWhile isdigit)

/-- The port in `port_buf`, which holds the characters from `p` up to `e`; nothing when it is
no port number. -/
def portValue (str : List UInt8) (p e : ℕ) : Except Undefined (Option ℕ) :=
  if p ≤ e ∧ e ≤ str.length ∧ e - p ≤ 5 then
    let port := strtol ((str.take e).drop p)
    if 0 < port ∧ port ≤ 65535 then .ok (some port.toNat) else .ok none
  else .error .outsideBuffer

section InsideString

variable {str : List UInt8} {s e i : ℕ} {c : UInt8}

theorem readAt_of_le (h : i ≤ str.length) : readAt str i = .ok (str.getD i 0) := if_pos h

theorem readAt_bind {β : Type} {f : UInt8 → Except Undefined β} (h : i ≤ str.length) :
    (readAt str i >>= f) = f (str.getD i 0) := by
  rw [readAt_of_le h]
  rfl

theorem memchr_of_le (hs : s ≤ e) (he : e ≤ str.length) :
    memchr str s e c = .ok (firstIn str c s e) := if_pos ⟨hs, he⟩

theorem memrchr_of_le (hs : s ≤ e) (he : e ≤ str.length) :
    memrchr str s e c = .ok (lastIn str c s e) := if_pos ⟨hs, he⟩

theorem strchr_of_le (hs : s ≤ str.length) :
    strchr str s c = .ok (firstIn str c s (stringEnd str s)) := if_pos hs

theorem copyPart_of_le (hs : s ≤ e) (he : e ≤ str.length) :
    copyPart str s e = .ok (replaceControlchars ((str.take e).drop s)) := if_pos ⟨hs, he⟩

theorem stringEnd_le (hs : s ≤ str.length) : stringEnd str s ≤ str.length := by
  have h := (List.takeWhile_prefix (l := str.drop s) (· ≠ 0)).length_le
  rw [List.length_drop] at h
  rw [stringEnd]
  omega

end InsideString

/-! ## The path, the query and the fragment -/

/-- `label_parse`: the fragment behind the `#` at `p`. -/
def labelParse (str : List UInt8) (p : ℕ) (ret : Url) : Except Undefined Url := do
  let p := p + 1
  if str.length ≠ p then do
    let fragment ← copyPart str p str.length
    .ok { ret with fragment := some fragment }
  else .ok ret

/-- The path from `s` up to `p`, when it is not empty. -/
def setPath (str : List UInt8) (s p : ℕ) (ret : Url) : Except Undefined Url :=
  if p ≠ s then do
    let path ← copyPart str s p
    .ok { ret with path := some path }
  else .ok ret

/-- The query from `p` up to `e`, when it is not empty. -/
def setQuery (str : List UInt8) (p e : ℕ) (ret : Url) : Except Undefined Url :=
  if e ≠ p then do
    let query ← copyPart str p e
    .ok { ret with query := some query }
  else .ok ret

/-- `nohost` -/
def nohost (str : List UInt8) (s : ℕ) (ret : Url) : Except Undefined Url := do
  let ue := str.length
  let question ← memchr str s ue 63
  match question with
  | some p => do
    let hash ← strchr str s 35
    match hash with
    | some pp =>
      if pp < p then do
        let ret ← setPath str s pp ret
        labelParse str pp ret
      else do
        let ret ← setPath str s p ret
        let ret ← setQuery str (p + 1) pp ret
        labelParse str pp ret
    | none => do
      let ret ← setPath str s p ret
      setQuery str (p + 1) ue ret
  | none => do
    let hash ← memchr str s ue 35
    match hash with
    | some p => do
      let ret ← setPath str s p ret
      labelParse str p ret
    | none => do
      let path ← copyPart str s ue
      .ok { ret with path := some path }

/-! ## The host -/

/-- The end of the host part that begins at `s`. -/
def hostEnd (str : List UInt8) (s : ℕ) : Except Undefined ℕ := do
  let ue := str.length
  let slash ← memchr str s ue 47
  match slash with
  | some p => .ok p
  | none => do
    let query ← memchr str s ue 63
    let fragment ← memchr str s ue 35
    match query, fragment with
    | some query, some fragment => .ok (if fragment < query then fragment else query)
    | some query, none => .ok query
    | none, some fragment => .ok fragment
    | none, none => .ok ue

/-- The login in front of the last `@`, and where the host begins. -/
def login (str : List UInt8) (s e : ℕ) (ret : Url) : Except Undefined (ℕ × Url) := do
  let sign ← memrchr str s e 64
  match sign with
  | none => .ok (s, ret)
  | some p => do
    let colon ← memchr str s p 58
    match colon with
    | some pp => do
      let user ← copyOver str s pp ret.user
      let pass ← copyOver str (pp + 1) p ret.pass
      .ok (p + 1, { ret with user := user, pass := pass })
    | none => do
      let user ← copyPart str s p
      .ok (p + 1, { ret with user := some user })

/-- The loop `for (p = e; *p != ':' && p >= s; p--)`: the colon at or behind `s`. It reads
`*(s - 1)` when there is none. -/
def portScan (str : List UInt8) (s : ℕ) : ℕ → Except Undefined (Option ℕ)
  | 0 => do
    let c ← readAt str 0
    if 0 < s then .ok none else if c = 58 then .ok (some 0)
    else .error .outsideString
  | p + 1 => do
    let c ← readAt str (p + 1)
    if p + 1 < s then .ok none else if c = 58 then .ok (some (p + 1)) else portScan str s p

/-- `*s == '[' && *(e-1) == ']'` -/
def isBracketed (str : List UInt8) (s e : ℕ) : Except Undefined Bool := do
  let c ← readAt str s
  if c = 91 then
    if e = 0 then .error .outsideString
    else do
      let c ← readAt str (e - 1)
      .ok (c = 93)
  else .ok false

/-- The end of the function once the host ends at `p` and the host part at `e`. -/
def finishHost (str : List UInt8) (s p e : ℕ) (ret : Url) : Except Undefined (Option Url) :=
  if p < s + 1 then .ok none
  else do
    let host ← copyPart str s p
    let ret := { ret with host := some host }
    if e = str.length then .ok (some ret) else (nohost str e ret).map some

/-- The port behind the colon at `p`, when there is none yet. -/
def hostPort (str : List UInt8) (s p e : ℕ) (ret : Url) : Except Undefined (Option Url) :=
  if ret.port ≠ 0 then finishHost str s p e ret
  else if 5 < e - (p + 1) then .ok none
  else if 0 < e - (p + 1) then do
    let port ← portValue str (p + 1) e
    match port with
    | none => .ok none
    | some port => finishHost str s p e { ret with port := port }
  else finishHost str s p e ret

/-- What follows once the host part is known to begin at `s`. -/
def hostPart (str : List UInt8) (s : ℕ) (ret : Url) : Except Undefined (Option Url) := do
  let e ← hostEnd str s
  let r ← login str s e ret
  let bracketed ← isBracketed str r.1 e
  if bracketed then finishHost str r.1 e e r.2
  else do
    let colon ← portScan str r.1 e
    match colon with
    | some p => hostPort str r.1 p e r.2
    | none => finishHost str r.1 e e r.2

/-! ## The scheme -/

/-- A relative-scheme URL at the beginning of the string, or else a path. -/
def relativeScheme (str : List UInt8) : Except Undefined (Option Url) := do
  let c ← readAt str 0
  if c = 47 then do
    let c ← readAt str 1
    if c = 47 then hostPart str 2 emptyUrl else (nohost str 0 emptyUrl).map some
  else (nohost str 0 emptyUrl).map some

/-- `parse_port`, with the colon at `e`. -/
def parsePort (str : List UInt8) (e : ℕ) : Except Undefined (Option Url) := do
  let p := e + 1
  let pp := p + min 6 (digitsAt str p).length
  let c ← readAt str pp
  if 0 < pp - p ∧ pp - p < 6 ∧ (c = 47 ∨ c = 0) then do
    let port ← portValue str p pp
    match port with
    | none => .ok none
    | some port => hostPart str 0 { emptyUrl with port := port }
  else if pp = p ∧ c = 0 then .ok none
  else relativeScheme str

def isSchemeChar (c : UInt8) : Bool := isalnum c ∨ c = 43 ∨ c = 46 ∨ c = 45

/-- `!strncasecmp("file", scheme, sizeof("file"))` -/
def isFile (scheme : List UInt8) : Prop := scheme.map toupper = [70, 73, 76, 69]

instance (scheme : List UInt8) : Decidable (isFile scheme) := by unfold isFile; infer_instance

/-- A valid scheme in front of the colon at `e`. -/
def withScheme (str : List UInt8) (e : ℕ) : Except Undefined (Option Url) := do
  let c ← readAt str (e + 1)
  if c = 0 then do
    -- only the scheme is available
    let scheme ← copyPart str 0 e
    .ok (some { emptyUrl with scheme := some scheme })
  else if c ≠ 47 then do
    -- a port, as in `a.com:80`
    let p := e + 1 + (digitsAt str (e + 1)).length
    let c ← readAt str p
    if (c = 0 ∨ c = 47) ∧ p - e < 7 then parsePort str e
    else do
      let scheme ← copyPart str 0 e
      (nohost str (e + 1) { emptyUrl with scheme := some scheme }).map some
  else do
    let scheme ← copyPart str 0 e
    let ret := { emptyUrl with scheme := some scheme }
    let c ← readAt str (e + 2)
    if c = 47 then
      if isFile scheme then do
        let c ← readAt str (e + 3)
        if c = 47 then do
          -- a windows drive letter
          let c ← readAt str (e + 5)
          (nohost str (if c = 58 then e + 4 else e + 3) ret).map some
        else hostPart str (e + 3) ret
      else hostPart str (e + 3) ret
    -- both for `file` and for another scheme
    else (nohost str (e + 1) ret).map some

/-- `php_url_parse_ex`; nothing where it returns `NULL`. -/
def urlParse (str : List UInt8) : Except Undefined (Option Url) := do
  let colon ← memchr str 0 str.length 58
  match colon with
  | none => relativeScheme str
  | some e =>
    if 0 < e then
      if (str.take e).all isSchemeChar then withScheme str e
      else if e + 1 < str.length then parsePort str e
      else (nohost str 0 emptyUrl).map some
    else parsePort str e

end PhpRuntime.Url
