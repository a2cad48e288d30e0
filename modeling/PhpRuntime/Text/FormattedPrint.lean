import PhpRuntime.Text.CInt
import PhpRuntime.Lib.Positional
import Mathlib.Algebra.Order.Ring.Int
import Mathlib.Tactic.Ring

/-!
# `php_formatted_print`

The formats of `sprintf`. The format is read with its terminator, at a cursor that can leave it.
The result stands in a buffer that doubles, and every write to it is checked against its size.
The conversions of the arguments are a parameter, floating point numbers included.
-/

set_option autoImplicit false

namespace PhpRuntime.Text.Sprintf

open PhpRuntime.Lib

/-! ## What ends the function early -/

/-- An access with no meaning, a failed allocation, an `E_ERROR`, which does not return, or a
warning, with which the function returns `NULL`. -/
inductive Stop where
  | undefined (u : Undefined)
  | outsideArguments
  | outOfMemory
  | fatal (message : String)
  | warning (message : String)
  deriving DecidableEq, Repr

/-- The accesses that are outside of the format, of the arguments or of the buffer, and what else
has no meaning in C. -/
def Stop.Faulty : Stop → Prop
  | .undefined _ | .outsideArguments => True
  | _ => False

def fieldWidth (width : ℤ) : Stop := .fatal ("Field width " ++ toString width ++ " is too long")

/-- "Width must be greater than zero and less than %d", and the same with "Precision" -/
def numberRange (what : String) : Stop :=
  .warning (what ++ " must be greater than zero and less than " ++ toString INT_MAX)

/-! ## The buffer -/

/-- `*buffer` up to `*pos`, and `*size`. -/
structure PrintBuffer where
  bytes : List UInt8
  size : ℤ
  deriving DecidableEq, Repr

/-- `ALIGN_LEFT` and `ALIGN_RIGHT` -/
inductive Alignment where
  | left
  | right
  deriving DecidableEq, Repr

/-- Characters that are written one after the other, each with `(*pos)++`. -/
def PrintBuffer.write (b : PrintBuffer) (s : List UInt8) : Except Stop PrintBuffer :=
  if b.bytes.length + s.length ≤ b.size then .ok { b with bytes := b.bytes ++ s }
  else .error (.undefined .outsideBuffer)

/-- `memcpy(&(*buffer)[*pos], add, copy_len + 1); *pos += copy_len;` where `add` is terminated. -/
def PrintBuffer.copy (b : PrintBuffer) (add : List UInt8) (copyLen : ℤ) : Except Stop PrintBuffer :=
  if copyLen + 1 < 0 ∨ b.size < b.bytes.length + (copyLen + 1) then
    .error (.undefined .outsideBuffer)
  else if add.length < copyLen then .error (.undefined .outsideString)
  else .ok { b with
    bytes := (b.bytes ++ add.take copyLen.toNat).take (b.bytes.length + copyLen).toNat }

/-- `php_sprintf_appendchar`. The request for a negative number of bytes fails. -/
def appendChar (b : PrintBuffer) (add : UInt8) : Except Stop PrintBuffer :=
  if b.size ≤ b.bytes.length + 1 then
    let size := toInt (b.size * 2)
    if size < 0 then .error .outOfMemory else { b with size := size }.write [add]
  else b.write [add]

/-- `while (req_size > *size) ... *size <<= 1;` with a bound on the turns. -/
def growTo (reqSize : ℤ) : ℕ → ℤ → Except Stop ℤ
  | 0, _ => .error (.undefined .endless)
  | turns + 1, size =>
    if size < reqSize then
      if INT_MAX / 2 < size then .error (fieldWidth reqSize) else growTo reqSize turns (size * 2)
    else .ok size

/-- The text that is still to be written, and `copy_len`. -/
structure Pending where
  b : PrintBuffer
  add : List UInt8
  copyLen : ℤ

/-- `php_sprintf_appendstring` in front of the text: a sign that stands before zeros, and the
padding. -/
def padBefore (p : Pending) (npad : ℕ) (padding : UInt8) (neg alwaysSign : Bool) :
    Except Stop Pending := do
  let p ← if (neg || alwaysSign) = true ∧ padding = 48 then do
      let b ← p.b.write [if neg then 45 else 43]
      .ok ⟨b, p.add.tail, p.copyLen - 1⟩
    else .ok p
  let b ← p.b.write (List.replicate npad padding)
  .ok { p with b := b }

/-- `php_sprintf_appendstring` -/
def appendString (b : PrintBuffer) (add : List UInt8) (minWidth maxWidth : ℤ) (padding : UInt8)
    (alignment : Alignment) (neg expprec alwaysSign : Bool) : Except Stop PrintBuffer :=
  let copyLen := if expprec then min maxWidth add.length else add.length
  let npad := (minWidth - copyLen).toNat
  let mWidth := max minWidth copyLen
  if INT_MAX - b.bytes.length - 1 < mWidth then .error (fieldWidth mWidth)
  else do
    let size ← growTo (b.bytes.length + mWidth + 1) 32 b.size
    let b := { b with size := size }
    match alignment with
    | .right => do
      let p ← padBefore ⟨b, add, copyLen⟩ npad padding neg alwaysSign
      p.b.copy p.add p.copyLen
    | .left => do
      let b ← b.copy add copyLen
      b.write (List.replicate npad padding)

/-! ## Numbers -/

/-- `NUM_BUF_SIZE` -/
def NUM_BUF_SIZE : ℕ := 500

/-- `(unsigned long) x` -/
def toUnsignedLong (x : ℤ) : ℕ := (x % 18446744073709551616).toNat

/-- The loop of decimal digits. `i` is the place in `numbuf`, and the digits from there on are
given. -/
def decimalLoop : ℕ → ℕ → List UInt8 → List UInt8
  | 0, _, numbuf => numbuf
  | i + 1, magn, numbuf =>
    let nmagn := magn / 10
    let numbuf := UInt8.ofNat (magn - nmagn * 10 + 48) :: numbuf
    if 0 < nmagn then decimalLoop i nmagn numbuf else numbuf

def integerPadding (alignment : Alignment) (padding : UInt8) : UInt8 :=
  if alignment = .left ∧ padding = 48 then 32 else padding

/-- `php_sprintf_appendint` -/
def appendInt (b : PrintBuffer) (number width : ℤ) (padding : UInt8) (alignment : Alignment)
    (alwaysSign : Bool) : Except Stop PrintBuffer :=
  let neg : Bool := number < 0
  let magn := if neg then toUnsignedLong (toUnsignedLong (-(number + 1)) + 1)
    else toUnsignedLong number
  let padding := integerPadding alignment padding
  let numbuf := decimalLoop (NUM_BUF_SIZE - 1) magn []
  let numbuf := if neg then 45 :: numbuf else if alwaysSign then 43 :: numbuf else numbuf
  appendString b numbuf width 0 padding alignment neg false alwaysSign

/-- `php_sprintf_appenduint` -/
def appendUint (b : PrintBuffer) (number : ℕ) (width : ℤ) (padding : UInt8)
    (alignment : Alignment) : Except Stop PrintBuffer :=
  let padding := integerPadding alignment padding
  appendString b (decimalLoop (NUM_BUF_SIZE - 1) number []) width 0 padding alignment false false
    false

/-- `hexchars` -/
def hexchars : List UInt8 :=
  [48, 49, 50, 51, 52, 53, 54, 55, 56, 57, 97, 98, 99, 100, 101, 102]

/-- `HEXCHARS` -/
def HEXCHARS : List UInt8 :=
  [48, 49, 50, 51, 52, 53, 54, 55, 56, 57, 65, 66, 67, 68, 69, 70]

/-- The loop of groups of `n` bits. It does not look at `i`. -/
def bitsLoop (n : ℕ) (chartable : List UInt8) : ℕ → ℕ → List UInt8 → Except Stop (List UInt8)
  | 0, _, _ => .error (.undefined .outsideBuffer)
  | i + 1, num, numbuf =>
    let numbuf := chartable.getD (num &&& ((1 <<< n) - 1)) 0 :: numbuf
    let num := num >>> n
    if 0 < num then bitsLoop n chartable i num numbuf else .ok numbuf

/-- `php_sprintf_append2n` -/
def append2n (b : PrintBuffer) (number width : ℤ) (padding : UInt8) (alignment : Alignment)
    (n : ℕ) (chartable : List UInt8) (expprec : Bool) : Except Stop PrintBuffer := do
  let numbuf ← bitsLoop n chartable (NUM_BUF_SIZE - 1) (toUnsignedLong number) []
  appendString b numbuf width 0 padding alignment false expprec false

/-- A `double`: the text of a finite one is what `php_conv_fp` and `php_gcvt` make of it with a
precision, a format and the sign flag, and whether it is negative. -/
inductive Double where
  | nan
  | inf (negative : Bool)
  | finite (text : ℤ → UInt8 → Bool → List UInt8 × Bool)

/-- `FLOAT_PRECISION` -/
def FLOAT_PRECISION : ℤ := 6

/-- `MAX_FLOAT_PRECISION` -/
def MAX_FLOAT_PRECISION : ℤ := 53

/-- `php_sprintf_appenddouble`. The precision is set where `adjust` has `ADJ_PRECISION`. -/
def appendDouble (b : PrintBuffer) (number : Double) (width : ℤ) (padding : UInt8)
    (alignment : Alignment) (precision : ℤ) (adjust : Bool) (fmt : UInt8) (alwaysSign : Bool) :
    Except Stop PrintBuffer :=
  match number with
  | .nan => appendString b [78, 97, 78] 3 0 padding alignment false false alwaysSign
  | .inf negative => appendString b [73, 78, 70] 3 0 padding alignment negative false alwaysSign
  | .finite text =>
    let precision := if adjust = false then FLOAT_PRECISION else min precision MAX_FLOAT_PRECISION
    let (s, isNegative) := text precision fmt alwaysSign
    appendString b s width 0 padding alignment isNegative false alwaysSign

/-! ## The format -/

/-- A place in the terminated format: what follows there, or `none` behind the terminator. -/
abbrev Cursor := Option (List UInt8)

/-- `format[inpos]` -/
def Cursor.read : Cursor → Except Stop UInt8
  | some rest => .ok (rest.headD 0)
  | none => .error (.undefined .outsideString)

/-- `inpos++` -/
def Cursor.next : Cursor → Cursor
  | some (_ :: rest) => some rest
  | _ => none

theorem Cursor.read_some (rest : List UInt8) : Cursor.read (some rest) = .ok (rest.headD 0) := rfl

theorem Cursor.next_cons (c : UInt8) (rest : List UInt8) :
    Cursor.next (some (c :: rest)) = some rest := rfl

theorem Cursor.next_nil : Cursor.next (some []) = none := rfl

/-- `while (isdigit((int)format[temppos])) temppos++;` The terminator is not a digit. -/
def Cursor.skipDigits : Cursor → Except Stop Cursor
  | some rest => .ok (some (rest.dropWhile isdigit))
  | none => .error (.undefined .outsideString)

def digitsValue (digits : List UInt8) : ℕ := Positional.value 10 (digits.map fun c => c.toNat - 48)

/-- `strtol(s, &endptr, 10)`, with `endptr - s`. -/
def strtol (s : List UInt8) : ℤ × ℕ :=
  let blanks := s.takeWhile isspace
  let t := s.drop blanks.length
  let signs := if t.headD 0 = 45 ∨ t.headD 0 = 43 then 1 else 0
  let digits := (t.drop signs).takeWhile isdigit
  if digits = [] then (0, 0)
  else
    let num : ℤ := if t.headD 0 = 45 then -digitsValue digits else digitsValue digits
    (max (-LONG_MAX - 1) (min LONG_MAX num), blanks.length + signs + digits.length)

/-- `php_sprintf_getnumber`. It gives minus one where the number is out of range. -/
def getNumber : Cursor → Except Stop (ℤ × Cursor)
  | some rest =>
    let (num, i) := strtol rest
    .ok (if INT_MAX ≤ num ∨ num < 0 then -1 else num, some (rest.drop i))
  | none => .error (.undefined .outsideString)

/-- `padding`, `alignment` and `always_sign` -/
structure Modifiers where
  padding : UInt8
  alignment : Alignment
  alwaysSign : Bool
  deriving DecidableEq, Repr

/-- The loop of modifiers, with a bound on its turns. A quote takes the next character as the
padding, whatever it is. -/
def modifiersLoop : ℕ → Cursor → Modifiers → Except Stop (Modifiers × Cursor)
  | 0, _, _ => .error (.undefined .endless)
  | turns + 1, inpos, m => do
    let c ← inpos.read
    if c = 32 ∨ c = 48 then modifiersLoop turns inpos.next { m with padding := c }
    else if c = 45 then modifiersLoop turns inpos.next { m with alignment := .left }
    else if c = 43 then modifiersLoop turns inpos.next { m with alwaysSign := true }
    else if c = 39 then do
      let padding ← inpos.next.read
      modifiersLoop turns inpos.next.next { m with padding := padding }
    else .ok (m, inpos)

/-- A format specifier up to its type: `argnum` where it is given, the modifiers, `width`,
`precision`, and whether the precision is given. -/
structure Specifier where
  argnum : Option ℤ
  modifiers : Modifiers
  width : ℤ
  precision : ℤ
  expprec : Bool
  deriving DecidableEq, Repr

/-- `argnum`, where the digits end with a dollar sign. -/
def parseArgnum (inpos : Cursor) : Except Stop (Option ℤ × Cursor) := do
  let temppos ← inpos.skipDigits
  let c ← temppos.read
  if c = 36 then do
    let (argnum, inpos) ← getNumber inpos
    if argnum ≤ 0 then .error (.warning "Argument number must be greater than zero")
    else .ok (some argnum, inpos.next)
  else .ok (none, inpos)

/-- `width` -/
def parseWidth (inpos : Cursor) : Except Stop (ℤ × Cursor) := do
  let c ← inpos.read
  if isdigit c = true then do
    let (width, inpos) ← getNumber inpos
    if width < 0 then .error (numberRange "Width") else .ok (width, inpos)
  else .ok (0, inpos)

/-- `precision`, and whether it is given. -/
def parsePrecision (inpos : Cursor) : Except Stop (ℤ × Bool × Cursor) := do
  let c ← inpos.read
  if c = 46 then do
    let inpos := inpos.next
    let c ← inpos.read
    if isdigit c = true then do
      let (precision, inpos) ← getNumber inpos
      if precision < 0 then .error (numberRange "Precision") else .ok (precision, true, inpos)
    else .ok (0, false, inpos)
  else .ok (0, false, inpos)

/-- `isascii((int)c) && !isalpha((int)c)` -/
def beginsModifiers (c : UInt8) : Bool :=
  c < 128 ∧ ¬ (65 ≤ c ∧ c ≤ 90 ∨ 97 ≤ c ∧ c ≤ 122)

/-- The number of turns that the modifiers can take. -/
def Cursor.turns : Cursor → ℕ
  | some rest => rest.length + 2
  | none => 1

/-- What stands between the percent sign and the type. -/
def parseSpecifier (inpos : Cursor) : Except Stop (Specifier × Cursor) := do
  let c ← inpos.read
  if beginsModifiers c = true then do
    let (argnum, inpos) ← parseArgnum inpos
    let (modifiers, inpos) ← modifiersLoop inpos.turns inpos ⟨32, .right, false⟩
    let (width, inpos) ← parseWidth inpos
    let (precision, expprec, inpos) ← parsePrecision inpos
    .ok (⟨argnum, modifiers, width, precision, expprec⟩, inpos)
  else .ok (⟨none, ⟨32, .right, false⟩, 0, 0, false⟩, inpos)

/-! ## The arguments -/

variable {ζ : Type}

/-- What the function reads of an argument. -/
structure Conversions (ζ : Type) where
  toString : ζ → List UInt8
  toLong : ζ → ℤ
  toDouble : ζ → Double
  elements : ζ → List ζ

/-- `args[argnum]` -/
def argAt (args : List ζ) (argnum : ℤ) : Except Stop ζ :=
  if argnum < 0 then .error .outsideArguments
  else match args[argnum.toNat]? with
    | some arg => .ok arg
    | none => .error .outsideArguments

/-- The `switch` on the type. -/
def convert (conv : Conversions ζ) (b : PrintBuffer) (s : Specifier) (type : UInt8) (arg : ζ) :
    Except Stop PrintBuffer :=
  let m := s.modifiers
  if type = 115 then
    appendString b (conv.toString arg) s.width s.precision m.padding m.alignment false s.expprec
      false
  else if type = 100 then
    appendInt b (conv.toLong arg) s.width m.padding m.alignment m.alwaysSign
  else if type = 117 then
    appendUint b (toUnsignedLong (conv.toLong arg)) s.width m.padding m.alignment
  else if type ∈ [103, 71, 101, 69, 102, 70] then
    appendDouble b (conv.toDouble arg) s.width m.padding m.alignment s.precision s.expprec type
      m.alwaysSign
  else if type = 99 then appendChar b (UInt8.ofNat (toUnsignedLong (conv.toLong arg)))
  else if type = 111 then
    append2n b (conv.toLong arg) s.width m.padding m.alignment 3 hexchars s.expprec
  else if type = 120 then
    append2n b (conv.toLong arg) s.width m.padding m.alignment 4 hexchars s.expprec
  else if type = 88 then
    append2n b (conv.toLong arg) s.width m.padding m.alignment 4 HEXCHARS s.expprec
  else if type = 98 then
    append2n b (conv.toLong arg) s.width m.padding m.alignment 1 hexchars s.expprec
  else if type = 37 then appendChar b 37
  else .ok b

/-- `inpos`, `currarg` and the buffer. -/
structure Printing where
  inpos : Cursor
  currarg : ℤ
  b : PrintBuffer

def printSpecifier (conv : Conversions ζ) (args : List ζ) (formatOffset : ℤ) (p : Printing) :
    Except Stop Printing := do
  let (s, inpos) ← parseSpecifier p.inpos
  let argnum := s.argnum.getD p.currarg + formatOffset
  let currarg := if s.argnum.isSome then p.currarg else p.currarg + 1
  if args.length ≤ argnum then .error (.warning "Too few arguments")
  else do
    let c ← inpos.read
    let inpos := if c = 108 then inpos.next else inpos
    let arg ← argAt args argnum
    let type ← inpos.read
    let b ← convert conv p.b s type arg
    .ok ⟨inpos.next, currarg, b⟩

/-- A turn of the loop, at a character of the format. -/
def printTurn (conv : Conversions ζ) (args : List ζ) (formatOffset : ℤ) (p : Printing) :
    Except Stop Printing := do
  let c ← p.inpos.read
  if c ≠ 37 then do
    let b ← appendChar p.b c
    .ok { p with inpos := p.inpos.next, b := b }
  else do
    let c ← p.inpos.next.read
    if c = 37 then do
      let b ← appendChar p.b 37
      .ok { p with inpos := p.inpos.next.next, b := b }
    else printSpecifier conv args formatOffset { p with inpos := p.inpos.next }

/-- `inpos < Z_STRLEN_PP(args[format_offset])` -/
def Cursor.Inside (inpos : Cursor) : Prop := (inpos.getD []) ≠ []

instance (inpos : Cursor) : Decidable inpos.Inside :=
  inferInstanceAs (Decidable (inpos.getD [] ≠ []))

def printLoop (conv : Conversions ζ) (args : List ζ) (formatOffset : ℤ) :
    ℕ → Printing → Except Stop Printing
  | 0, _ => .error (.undefined .endless)
  | turns + 1, p =>
    if p.inpos.Inside then do
      let p ← printTurn conv args formatOffset p
      printLoop conv args formatOffset turns p
    else .ok p

/-- `args` and `format_offset` that the loop works with: with `use_array` the arguments behind the
format are the elements of an array. `none` is the wrong number of parameters. -/
def printArguments (conv : Conversions ζ) (args : List ζ) (useArray : Bool) (formatOffset : ℕ) :
    Option (List ζ × ℕ) :=
  if useArray then
    match args.drop formatOffset with
    | [format, array] => some (format :: conv.elements array, 0)
    | _ => none
  else if args.length < 1 + formatOffset then none
  else some (args, formatOffset)

def PrintBuffer.new : PrintBuffer := ⟨[], 240⟩

/-- `php_formatted_print`, where the arguments are of the right number. `result[outpos] = 0;` is the
last write. -/
def formattedPrint (conv : Conversions ζ) (args : List ζ) (formatOffset : ℕ) :
    Except Stop (List UInt8) := do
  let arg ← argAt args formatOffset
  let format := conv.toString arg
  let p ← printLoop conv args formatOffset (format.length + 1) ⟨some format, 1, PrintBuffer.new⟩
  let b ← p.b.write [0]
  .ok b.bytes.dropLast

/-- `php_formatted_print` -/
def phpFormattedPrint (conv : Conversions ζ) (args : List ζ) (useArray : Bool)
    (formatOffset : ℕ) : Except Stop (Option (List UInt8)) :=
  match printArguments conv args useArray formatOffset with
  | none => .ok none
  | some (args, formatOffset) => do
    let result ← formattedPrint conv args formatOffset
    .ok (some result)

/-! ## What is appended -/

variable {b : PrintBuffer} {add : List UInt8} {minWidth maxWidth : ℤ} {padding : UInt8}
  {alignment : Alignment} {neg expprec alwaysSign : Bool}

def copied (add : List UInt8) (maxWidth : ℤ) (expprec : Bool) : List UInt8 :=
  if expprec then add.take maxWidth.toNat else add

def fieldLength (text : List UInt8) (minWidth : ℤ) : ℕ := max minWidth.toNat text.length

/-- What `php_sprintf_appendstring` appends. Where there is no text, the last character of the
padding is lost to the sign. -/
def field (text : List UInt8) (minWidth : ℤ) (padding : UInt8) (alignment : Alignment)
    (neg alwaysSign : Bool) : List UInt8 :=
  let pad := List.replicate (minWidth.toNat - text.length) padding
  match alignment with
  | .left => text ++ pad
  | .right =>
    if (neg || alwaysSign) = true ∧ padding = 48 then
      ((if neg then 45 else 43) :: pad ++ text.tail).take (fieldLength text minWidth)
    else pad ++ text

theorem write_eq {s : List UInt8} (h : (b.bytes.length + s.length : ℤ) ≤ b.size) :
    b.write s = .ok { b with bytes := b.bytes ++ s } := by
  rw [PrintBuffer.write, if_pos h]

theorem length_field (text : List UInt8) :
    (field text minWidth padding alignment neg alwaysSign).length = fieldLength text minWidth := by
  unfold field fieldLength
  cases alignment with
  | left =>
    simp only [List.length_append, List.length_replicate]
    omega
  | right =>
    dsimp only
    split
    · simp only [List.length_take, List.length_append, List.length_cons, List.length_replicate,
        List.length_tail]
      omega
    · simp only [List.length_append, List.length_replicate]
      omega

theorem length_copied (add : List UInt8) (expprec : Bool) (hmax : 0 ≤ maxWidth) :
    ((copied add maxWidth expprec).length : ℤ) =
      if expprec then min maxWidth add.length else add.length := by
  unfold copied
  cases expprec with
  | false => rfl
  | true =>
    simp only [if_true, List.length_take]
    omega

theorem copied_eq_take : copied add maxWidth expprec =
    add.take (copied add maxWidth expprec).length := by
  unfold copied
  cases expprec with
  | false => simp
  | true => simp

theorem copy_eq {n : ℕ} (hn : n ≤ add.length) (hroom : (b.bytes.length + (n + 1) : ℤ) ≤ b.size) :
    b.copy add n = .ok { b with bytes := b.bytes ++ add.take n } := by
  rw [PrintBuffer.copy, if_neg (by omega), if_neg (by omega), Int.toNat_natCast]
  congr 2
  rw [← Int.natCast_add, Int.toNat_natCast, List.take_of_length_le]
  simp only [List.length_append, List.length_take]
  omega

theorem padBefore_plain {npad : ℕ} {copyLen : ℤ} (hsign : ¬ ((neg || alwaysSign) = true ∧ padding = 48))
    (hroom : (b.bytes.length + npad : ℤ) ≤ b.size) :
    padBefore ⟨b, add, copyLen⟩ npad padding neg alwaysSign =
      .ok ⟨{ b with bytes := b.bytes ++ List.replicate npad padding }, add, copyLen⟩ := by
  rw [padBefore, if_neg hsign, ok_bind]
  dsimp only
  rw [write_eq (by simpa using hroom), ok_bind]

theorem padBefore_sign {npad : ℕ} {copyLen : ℤ} (hsign : (neg || alwaysSign) = true ∧ padding = 48)
    (hroom : (b.bytes.length + (npad + 1) : ℤ) ≤ b.size) :
    padBefore ⟨b, add, copyLen⟩ npad padding neg alwaysSign =
      .ok ⟨{ b with bytes := b.bytes ++ (if neg then 45 else 43) :: List.replicate npad padding },
        add.tail, copyLen - 1⟩ := by
  rw [padBefore, if_pos hsign]
  dsimp only
  rw [write_eq (by simp only [List.length_singleton]; omega), ok_bind, ok_bind]
  dsimp only
  rw [write_eq, ok_bind]
  · simp only [List.append_assoc, List.singleton_append]
  · simp only [List.length_append, List.length_singleton, List.length_replicate]
    omega

theorem appendString_eq {size : ℤ} (hmin : 0 ≤ minWidth) (hmax : 0 ≤ maxWidth)
    (hwidth : (fieldLength (copied add maxWidth expprec) minWidth : ℤ) ≤
      INT_MAX - b.bytes.length - 1)
    (hsize : growTo (b.bytes.length + fieldLength (copied add maxWidth expprec) minWidth + 1) 32
      b.size = .ok size)
    (hroom : (b.bytes.length + fieldLength (copied add maxWidth expprec) minWidth + 1 : ℤ) ≤ size) :
    appendString b add minWidth maxWidth padding alignment neg expprec alwaysSign =
      .ok ⟨b.bytes ++ field (copied add maxWidth expprec) minWidth padding alignment neg alwaysSign,
        size⟩ := by
  have hle : (copied add maxWidth expprec).length ≤ add.length := by
    rw [copied_eq_take]
    exact List.length_take_le' _ _
  have htake : copied add maxWidth expprec = add.take (copied add maxWidth expprec).length :=
    copied_eq_take
  have hlen := length_copied add expprec hmax
  generalize copied add maxWidth expprec = text at *
  have hfield : max minWidth (text.length : ℤ) = fieldLength text minWidth := by
    unfold fieldLength
    omega
  have hpad : (minWidth - text.length).toNat = minWidth.toNat - text.length := by omega
  have hsum : minWidth.toNat - text.length + text.length = fieldLength text minWidth := by
    unfold fieldLength
    omega
  unfold appendString field
  simp only [← hlen, hfield, hpad]
  rw [if_neg (by omega), hsize, ok_bind]
  cases alignment with
  | left =>
    dsimp only
    rw [copy_eq hle (by dsimp only; omega), ok_bind, write_eq, ← htake]
    · simp only [List.append_assoc]
    · simp only [List.length_append, List.length_replicate, ← htake]
      omega
  | right =>
    dsimp only
    by_cases hsign : (neg || alwaysSign) = true ∧ padding = 48
    · rw [padBefore_sign hsign (by dsimp only; omega), ok_bind, if_pos hsign]
      cases text with
      | nil =>
        -- the sign is all that is written, and the place goes back by one
        have hpad : minWidth.toNat = fieldLength [] minWidth := by simpa using hsum
        simp only [List.length_nil, Nat.sub_zero, List.tail_nil, List.append_nil, Nat.cast_zero,
          hpad]
        rw [PrintBuffer.copy, if_neg, if_neg (by omega)]
        · simp only [show ((0 : ℤ) - 1).toNat = 0 from rfl, List.take_zero, List.append_nil]
          congr 2
          rw [List.take_append, List.take_of_length_le]
          · congr 2
            simp only [List.length_append, List.length_cons, List.length_replicate]
            omega
          · simp only [List.length_append, List.length_cons, List.length_replicate]
            omega
        · simp only [List.length_append, List.length_cons, List.length_replicate]
          omega
      | cons c text =>
        obtain ⟨rest, hadd, htext⟩ : ∃ rest, add = c :: rest ∧ text = rest.take text.length := by
          cases add with
          | nil => simp at htake
          | cons a rest =>
            rw [List.length_cons, List.take_succ_cons] at htake
            exact ⟨rest, by rw [(List.cons.inj htake).1], (List.cons.inj htake).2⟩
        rw [List.length_cons] at hsum hle ⊢
        have hlast : ((text.length + 1 : ℕ) : ℤ) - 1 = (text.length : ℕ) := by omega
        dsimp only
        rw [hlast, hadd, List.tail_cons, copy_eq, ← htext, List.tail_cons]
        · rw [List.take_of_length_le]
          · simp only [List.append_assoc, List.cons_append]
          · simp only [List.cons_append, List.length_cons, List.length_append,
              List.length_replicate]
            omega
        · rw [hadd, List.length_cons] at hle
          omega
        · simp only [List.length_append, List.length_cons, List.length_replicate]
          omega
    · rw [padBefore_plain hsign (by dsimp only; omega), ok_bind, if_neg hsign]
      dsimp only
      rw [copy_eq hle, ← htake]
      · simp only [List.append_assoc]
      · simp only [List.length_append, List.length_replicate]
        omega

/-- Doubling the size comes to the room for a field and for the terminator. -/
def Accepted (b : PrintBuffer) (n : ℕ) : Prop :=
  ∃ k, (b.bytes.length + n + 1 : ℤ) ≤ b.size * 2 ^ k ∧ b.size * 2 ^ k ≤ INT_MAX

theorem growTo_eq {reqSize size : ℤ} {k turns : ℕ} (hpos : 0 < size)
    (hreq : reqSize ≤ size * 2 ^ k) (hmax : size * 2 ^ k ≤ INT_MAX) (hk : k < turns) :
    ∃ size', growTo reqSize turns size = .ok size' ∧ reqSize ≤ size' := by
  induction turns generalizing k size with
  | zero => omega
  | succ turns ih =>
    rw [growTo]
    by_cases hlt : size < reqSize
    · cases k with
      | zero =>
        rw [pow_zero, mul_one] at hreq
        omega
      | succ k =>
        have hdouble : size * 2 ^ (k + 1) = size * 2 * 2 ^ k := by ring
        rw [hdouble] at hreq hmax
        have hone : (1 : ℤ) ≤ 2 ^ k := one_le_pow₀ (by decide)
        have hle : size * 2 ≤ INT_MAX := by
          have hmul := Int.mul_le_mul_of_nonneg_left hone (show 0 ≤ size * 2 by omega)
          omega
        rw [if_pos hlt, if_neg (by omega)]
        exact ih (by omega) hreq hmax (by omega)
    · exact ⟨size, if_neg hlt, by omega⟩

theorem Accepted.growTo {n : ℕ} (h : Accepted b n) :
    ∃ size, growTo (b.bytes.length + n + 1) 32 b.size = .ok size ∧
      (b.bytes.length + n + 1 : ℤ) ≤ size := by
  obtain ⟨k, hreq, hmax⟩ := h
  have hpow : (1 : ℤ) ≤ 2 ^ k := one_le_pow₀ (by decide)
  have hpos : 0 < b.size := by
    by_contra hneg
    have hmul : b.size * 2 ^ k ≤ 0 := mul_nonpos_of_nonpos_of_nonneg (by omega) (by omega)
    omega
  refine growTo_eq hpos hreq hmax ?_
  by_contra hk
  have hbig : (2 : ℤ) ^ 31 ≤ 2 ^ k := pow_le_pow_right₀ (by decide) (by omega)
  have hmul : 1 * (2 : ℤ) ^ k ≤ b.size * 2 ^ k := Int.mul_le_mul_of_nonneg_right hpos (by omega)
  rw [INT_MAX] at hmax
  omega

theorem appendString_accepted (hmin : 0 ≤ minWidth) (hmax : 0 ≤ maxWidth)
    (h : Accepted b (fieldLength (copied add maxWidth expprec) minWidth)) :
    Returns (appendString b add minWidth maxWidth padding alignment neg expprec alwaysSign)
      (·.bytes = b.bytes ++
        field (copied add maxWidth expprec) minWidth padding alignment neg alwaysSign) := by
  obtain ⟨size, hsize, hroom⟩ := h.growTo
  obtain ⟨k, hreq, hle⟩ := h
  exact ⟨_, appendString_eq hmin hmax (by omega) hsize hroom, rfl⟩

theorem appendString_plain (hmin : 0 ≤ minWidth) (h : Accepted b (fieldLength add minWidth)) :
    Returns (appendString b add minWidth 0 padding alignment neg false alwaysSign)
      (·.bytes = b.bytes ++ field add minWidth padding alignment neg alwaysSign) := by
  have hcopied : Accepted b (fieldLength (copied add 0 false) minWidth) := h
  exact appendString_accepted hmin (Int.le_refl 0) hcopied

end PhpRuntime.Text.Sprintf
