import PhpRuntime.Json.StringBytes

/-!
# String literals and decoded strings

The string literals of a text, read from the left, with the units they denote, and the strings that
the parser hands to the Zend API: the values and the keys.
-/

set_option autoImplicit false

namespace PhpRuntime.Json

open PhpRuntime.Lib.Chunked (hexValue hexValue_lt)
open PhpRuntime.Lib.Utf16 (codePoints encode IsUtf8)

/-! ## The literals of a text -/

def hexDigit (c : ℕ) : ℕ := (hexValue (UInt8.ofNat c)).getD 0

/-- The unit that a backslash and a character other than `u` denote. -/
def unescape (c : ℕ) : ℕ :=
  if c = 98 then 8
  else if c = 116 then 9
  else if c = 110 then 10
  else if c = 102 then 12
  else if c = 114 then 13
  else c

/-- The unit of `\uXXXX`. -/
def hexUnit (a b c d : ℕ) : ℕ :=
  hexDigit a * 4096 + hexDigit b * 256 + hexDigit c * 16 + hexDigit d

/-- The units of the string literals of a text, in their order. Inside of a literal the first
argument holds the units that are read. -/
def literalsFrom : Option (List ℕ) → List ℕ → List (List ℕ)
  | _, [] => []
  | none, c :: rest => if c = 34 then literalsFrom (some []) rest else literalsFrom none rest
  | some units, c :: rest =>
    if c = 34 then units :: literalsFrom none rest
    else if c = 92 then
      match rest with
      | [] => []
      | e :: rest =>
        if e = 117 then
          match rest with
          | x :: y :: z :: w :: rest => literalsFrom (some (units ++ [hexUnit x y z w])) rest
          | _ => []
        else literalsFrom (some (units ++ [unescape e])) rest
    else literalsFrom (some (units ++ [c])) rest

/-- The string literals of a text, keys and values. -/
def literals (text : List UInt16) : List (List ℕ) :=
  literalsFrom none (text.map UInt16.toNat)

variable {units rest : List ℕ} {c x y z w : ℕ}

alias literalsFrom_eq := literalsFrom.eq_def

theorem literalsFrom_open : literalsFrom none (34 :: rest) = literalsFrom (some []) rest :=
  if_pos rfl

theorem literalsFrom_none (hc : c ≠ 34) :
    literalsFrom none (c :: rest) = literalsFrom none rest :=
  if_neg hc

theorem literalsFrom_close :
    literalsFrom (some units) (34 :: rest) = units :: literalsFrom none rest := by
  rw [literalsFrom_eq]
  exact if_pos rfl

theorem literalsFrom_unit (hquote : c ≠ 34) (hbacks : c ≠ 92) :
    literalsFrom (some units) (c :: rest) = literalsFrom (some (units ++ [c])) rest := by
  rw [literalsFrom_eq]
  dsimp only
  rw [if_neg hquote, if_neg hbacks]

theorem literalsFrom_escape (hc : c ≠ 117) :
    literalsFrom (some units) (92 :: c :: rest) =
      literalsFrom (some (units ++ [unescape c])) rest := by
  rw [literalsFrom_eq]
  dsimp only
  rw [if_neg (by decide), if_pos rfl, if_neg hc]

theorem literalsFrom_hex :
    literalsFrom (some units) (92 :: 117 :: x :: y :: z :: w :: rest) =
      literalsFrom (some (units ++ [hexUnit x y z w])) rest := by
  rw [literalsFrom_eq]
  dsimp only
  rw [if_neg (by decide), if_pos rfl, if_pos rfl]

theorem hexDigit_lt (c : ℕ) : hexDigit c < 16 := by
  rw [hexDigit]
  cases hvalue : hexValue (UInt8.ofNat c) with
  | none => exact Nat.zero_lt_succ 15
  | some v => exact hexValue_lt hvalue

theorem hexUnit_lt (x y z w : ℕ) : hexUnit x y z w < 65536 := by
  have hx := hexDigit_lt x
  have hy := hexDigit_lt y
  have hz := hexDigit_lt z
  have hw := hexDigit_lt w
  rw [hexUnit]
  omega

theorem dehexchar_eq (hc : (hexValue (UInt8.ofNat c)).isSome) : dehexchar c = hexDigit c := by
  rw [dehexchar, hexDigit]
  cases hvalue : hexValue (UInt8.ofNat c) with
  | none =>
    rw [hvalue] at hc
    cases hc
  | some v => rfl

/-! ## The strings of the calls -/

/-- The bytes of a value that was a string literal. -/
def Child.strings : Child → List (List UInt8)
  | .zval type value =>
    match value with
    | .string bytes => if type = IS_STRING then [bytes] else []
    | _ => []
  | .container => []

/-- The strings of a call, a key before its value. -/
def Call.strings : Call → List (List UInt8)
  | .setResult bytes => [bytes]
  | .init _ _ => []
  | .addNextIndex _ child => child.strings
  | .addEntry _ key _ child => key :: child.strings

/-- The decoded string values and keys, in their order. -/
def decoded (calls : List Call) : List (List UInt8) := calls.flatMap Call.strings

theorem decoded_concat (calls : List Call) (call : Call) :
    decoded (calls ++ [call]) = decoded calls ++ call.strings := by
  rw [decoded, decoded, List.flatMap_append, List.flatMap_singleton]

theorem strings_current (options : Options) (jp : Parser) :
    (current options jp).strings = if jp.type = IS_STRING then [jp.buf] else [] := by
  rw [current, Child.strings.eq_def]
  dsimp only
  by_cases htype : jp.type = IS_STRING
  · rw [if_pos htype, htype, jsonCreateZval, if_neg (by decide), if_neg (by decide), if_pos rfl]
    dsimp only
    rw [if_pos rfl]
  · rw [if_neg htype]
    cases jsonCreateZval jp.buf jp.type options with
    | string bytes =>
      dsimp only
      rw [if_neg htype]
    | _ => rfl

/-- The strings are those that the literals denote: each one is UTF-8, and the encoding of the code
points of its literal. -/
def DecodesLiterals (text : List UInt16) (calls : List Call) : Prop :=
  List.Forall₂ (fun units bytes => IsUtf8 bytes ∧ bytes = encode (codePoints units))
    (literals text) (decoded calls)

end PhpRuntime.Json
