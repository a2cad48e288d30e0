import PhpRuntime.Lib.ChunkedCoding
import PhpRuntime.Lib.InPlace
import PhpRuntime.Lib.Positional
import PhpRuntime.Text.CInt

/-!
# Escaping with backslashes

`php_addslashes` and `php_addcslashes` write a new string, and `php_stripslashes` and
`php_stripcslashes` decode a string in place. The memory that is decoded begins at the string and
goes on behind its `NUL`.
-/

set_option autoImplicit false

namespace PhpRuntime.Text

/-! ## Lists of characters -/

/-- `mask`: which of the 256 bytes are set. -/
abbrev CharMask := UInt8 → Bool

/-- `memset(mask+c, 1, d - c + 1)` -/
def CharMask.setRange (mask : CharMask) (c d : UInt8) : CharMask :=
  fun b => (c ≤ b && b ≤ d) || mask b

/-- The loop of `php_charmask`: the mask and the warnings, in their order. `left` is `input[-1]`,
or `none` at the begin of the list. The turns are counted from above. -/
def charmaskLoop : ℕ → Option UInt8 → List UInt8 → CharMask → CharMask × List String
  | 0, _, _, mask => (mask, [])
  | turns + 1, left, input, mask =>
    match input with
    | [] => (mask, [])
    | c :: rest =>
      if 3 < input.length ∧ input.getD 1 0 = 46 ∧ input.getD 2 0 = 46 ∧ c ≤ input.getD 3 0 then
        charmaskLoop turns (some (input.getD 3 0)) (input.drop 4) (mask.setRange c (input.getD 3 0))
      else if 1 < input.length ∧ c = 46 ∧ input.getD 1 0 = 46 then
        let warning :=
          match left with
          | none => "Invalid '..'-range, no character to the left of '..'"
          | some d =>
            if input.length ≤ 2 then "Invalid '..'-range, no character to the right of '..'"
            else if input.getD 2 0 < d then
              "Invalid '..'-range, '..'-range needs to be incrementing"
            else "Invalid '..'-range"
        let (mask, warnings) := charmaskLoop turns (some c) rest mask
        (mask, warning :: warnings)
      else charmaskLoop turns (some c) rest (mask.setRange c c)

/-- `php_charmask`: the mask and the warnings. It returns `SUCCESS` when there are none. -/
def charmask (input : List UInt8) : CharMask × List String :=
  charmaskLoop input.length none input fun _ => false

/-! ## Encoding -/

/-- What `php_addslashes` writes for a character. -/
def addslashesChar (c : UInt8) : List UInt8 :=
  if c = 0 then [92, 48] else if c = 39 ∨ c = 34 ∨ c = 92 then [92, c] else [c]

/-- `php_addslashes`: the new string and `*new_length`. A length of 0 stands for `strlen(str)`,
which is 0 as well. -/
def addslashes (str : List UInt8) : List UInt8 × ℤ :=
  let target := str.flatMap addslashesChar
  (target, toInt target.length)

/-- The letters of `\n`, `\t`, `\r`, `\a`, `\v`, `\b` and `\f`. -/
def controlLetters : List (UInt8 × UInt8) :=
  [(10, 110), (9, 116), (13, 114), (7, 97), (11, 118), (8, 98), (12, 102)]

/-- `sprintf(target, "%03o", (unsigned char) c)` -/
def octalDigits (c : UInt8) : List UInt8 :=
  [UInt8.ofNat (48 + c.toNat / 64), UInt8.ofNat (48 + c.toNat / 8 % 8),
    UInt8.ofNat (48 + c.toNat % 8)]

/-- What `php_addcslashes` writes for a character. -/
def addcslashesChar (flags : CharMask) (c : UInt8) : List UInt8 :=
  if flags c then
    if c < 32 ∨ 126 < c then
      match controlLetters.lookup c with
      | some letter => [92, letter]
      | none => 92 :: octalDigits c
    else [92, c]
  else [c]

/-- `php_addcslashes`: the new string and `*new_length`. A length of 0 stands for that of the string
or of the list, which is 0 as well. -/
def addcslashes (str what : List UInt8) : List UInt8 × ℤ :=
  let target := str.flatMap (addcslashesChar (charmask what).1)
  (target, toInt target.length)

/-! ## Decoding -/

/-- What a decoder leaves: the memory, how many bytes it wrote, and `*len`. -/
structure Decoded where
  str : List UInt8
  written : ℕ
  len : Option ℤ

/-- The loop `while (l > 0)` of `php_stripslashes`: `str`, `s`, `t` and `*len`. -/
def stripslashesLoop (str : List UInt8) (s t : ℕ) :
    ℕ → Option ℤ → List UInt8 × ℕ × ℕ × Option ℤ
  | 0, len => (str, s, t, len)
  | 1, len =>
    if str.getD t 0 = 92 then (str, s, t + 1, len.map (· - 1))
    else (str.set s (str.getD t 0), s + 1, t + 1, len)
  | l + 2, len =>
    if str.getD t 0 = 92 then
      if str.getD (t + 1) 0 = 48 then
        stripslashesLoop (str.set s 0) (s + 1) (t + 2) l (len.map (· - 1))
      else
        stripslashesLoop (str.set s (str.getD (t + 1) 0)) (s + 1) (t + 2) l (len.map (· - 1))
    else stripslashesLoop (str.set s (str.getD t 0)) (s + 1) (t + 1) (l + 1) len

/-- `php_stripslashes`. Without a length it is that of the string up to its `NUL`. -/
def stripslashes (str : List UInt8) (len : Option ℤ) : Decoded :=
  let l := match len with
    | some n => n.toNat
    | none => (str.takeWhile (· != 0)).length
  let (str, s, t, len) := stripslashesLoop str 0 0 l len
  ⟨if s ≠ t then str.set s 0 else str, s, len⟩

/-- The first seven cases of the switch and `\\`. -/
def letterEscapes : List (UInt8 × UInt8) :=
  [(110, 10), (114, 13), (97, 7), (116, 9), (118, 11), (98, 8), (102, 12), (92, 92)]

/-- `isxdigit` -/
def isxdigit (c : UInt8) : Bool := (Lib.Chunked.hexValue c).isSome

/-- `(char)strtol(numtmp, NULL, 16)` -/
def hexChar (numtmp : List UInt8) : UInt8 :=
  UInt8.ofNat (Lib.Positional.value 16 (numtmp.map fun c => (Lib.Chunked.hexValue c).getD 0))

/-- `(char)strtol(numtmp, NULL, 8)` -/
def octalChar (numtmp : List UInt8) : UInt8 :=
  UInt8.ofNat (Lib.Positional.value 8 (numtmp.map fun c => c.toNat - 48))

/-- The octal digits at `source`, as many as `room`. -/
def octalNumtmp (str : List UInt8) (fin : ℕ) : ℕ → ℕ → List UInt8
  | 0, _ => []
  | room + 1, source =>
    if source < fin ∧ 48 ≤ str.getD source 0 ∧ str.getD source 0 ≤ 55 then
      str.getD source 0 :: octalNumtmp str fin room (source + 1)
    else []

/-- The switch over the character behind a backslash: what is written, `source` at the end, and
what is taken from `nlen`. -/
def stripcslashesEscape (str : List UInt8) (source fin : ℕ) : UInt8 × ℕ × ℤ :=
  let c := str.getD source 0
  match letterEscapes.lookup c with
  | some b => (b, source, 1)
  | none =>
    if c = 120 ∧ source + 1 < fin ∧ isxdigit (str.getD (source + 1) 0) then
      if source + 2 < fin ∧ isxdigit (str.getD (source + 2) 0) then
        (hexChar [str.getD (source + 1) 0, str.getD (source + 2) 0], source + 2, 3)
      else (hexChar [str.getD (source + 1) 0], source + 1, 2)
    else
      let numtmp := octalNumtmp str fin 3 source
      if numtmp.length ≠ 0 then (octalChar numtmp, source + numtmp.length - 1, numtmp.length)
      else (c, source, 1)

/-- The loop of `php_stripcslashes`: `str`, `target` and `nlen`. The turns are counted from
above. -/
def stripcslashesLoop (fin : ℕ) : ℕ → List UInt8 → ℕ → ℕ → ℤ → List UInt8 × ℕ × ℤ
  | 0, str, _, target, nlen => (str, target, nlen)
  | turns + 1, str, source, target, nlen =>
    if source < fin then
      if str.getD source 0 = 92 ∧ source + 1 < fin then
        let (c, source, less) := stripcslashesEscape str (source + 1) fin
        stripcslashesLoop fin turns (str.set target c) (source + 1) (target + 1) (nlen - less)
      else
        stripcslashesLoop fin turns (str.set target (str.getD source 0)) (source + 1) (target + 1)
          nlen
    else (str, target, nlen)

/-- `php_stripcslashes` -/
def stripcslashes (str : List UInt8) (len : ℤ) : Decoded :=
  let (str, target, nlen) := stripcslashesLoop len.toNat len.toNat str 0 0 len
  ⟨if nlen ≠ 0 then str.set target 0 else str, target, some nlen⟩

end PhpRuntime.Text
