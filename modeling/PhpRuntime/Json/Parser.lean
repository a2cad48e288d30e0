import PhpRuntime.Lib.ChunkedCoding
import PhpRuntime.Lib.Positional
import PhpRuntime.Lib.Utf16
import PhpRuntime.Text.CInt

/-!
# The JSON parser

`parse_JSON_ex`: an automaton with a stack of modes, which collects the text of the current value
in a buffer and builds arrays and objects as it goes. What it does to them is the list of its calls
of the Zend API, in their order.
-/

set_option autoImplicit false

namespace PhpRuntime.Json

open PhpRuntime.Lib.Chunked (hexValue)

/-! ## The tables -/

/-- The classes of characters. -/
inductive Class where
  | C_SPACE | C_WHITE | C_LCURB | C_RCURB | C_LSQRB | C_RSQRB | C_COLON | C_COMMA | C_QUOTE
  | C_BACKS | C_SLASH | C_PLUS | C_MINUS | C_POINT | C_ZERO | C_DIGIT | C_LOW_A | C_LOW_B
  | C_LOW_C | C_LOW_D | C_LOW_E | C_LOW_F | C_LOW_L | C_LOW_N | C_LOW_R | C_LOW_S | C_LOW_T
  | C_LOW_U | C_ABCDF | C_E | C_ETC
  deriving DecidableEq, Repr

def Class.all : List Class :=
  [.C_SPACE, .C_WHITE, .C_LCURB, .C_RCURB, .C_LSQRB, .C_RSQRB, .C_COLON, .C_COMMA, .C_QUOTE,
    .C_BACKS, .C_SLASH, .C_PLUS, .C_MINUS, .C_POINT, .C_ZERO, .C_DIGIT, .C_LOW_A, .C_LOW_B,
    .C_LOW_C, .C_LOW_D, .C_LOW_E, .C_LOW_F, .C_LOW_L, .C_LOW_N, .C_LOW_R, .C_LOW_S, .C_LOW_T,
    .C_LOW_U, .C_ABCDF, .C_E, .C_ETC]

/-- `ascii_class`. A character without a class is an error. -/
def asciiClass : List (Option Class) :=
  List.flatten
    [List.replicate 9 none, [some .C_WHITE, some .C_WHITE, none, none, some .C_WHITE],
      List.replicate 18 none,
      [some .C_SPACE, some .C_ETC, some .C_QUOTE], List.replicate 8 (some .C_ETC),
      [some .C_PLUS, some .C_COMMA, some .C_MINUS, some .C_POINT, some .C_SLASH],
      [some .C_ZERO], List.replicate 9 (some .C_DIGIT), [some .C_COLON],
      List.replicate 6 (some .C_ETC),
      List.replicate 4 (some .C_ABCDF), [some .C_E, some .C_ABCDF], List.replicate 20 (some .C_ETC),
      [some .C_LSQRB, some .C_BACKS, some .C_RSQRB], List.replicate 3 (some .C_ETC),
      [some .C_LOW_A, some .C_LOW_B, some .C_LOW_C, some .C_LOW_D, some .C_LOW_E, some .C_LOW_F],
      List.replicate 5 (some .C_ETC), [some .C_LOW_L, some .C_ETC, some .C_LOW_N],
      List.replicate 3 (some .C_ETC),
      [some .C_LOW_R, some .C_LOW_S, some .C_LOW_T, some .C_LOW_U], List.replicate 5 (some .C_ETC),
      [some .C_LCURB, some .C_ETC, some .C_RCURB, some .C_ETC, some .C_ETC]]

/-- The states of the automaton. -/
inductive State where
  | GO | OK | OB | KE | CO | VA | AR | ST | ES | U1 | U2 | U3 | U4 | MI | ZE | IN | FR | E1 | E2
  | E3 | T1 | T2 | T3 | F1 | F2 | F3 | F4 | N1 | N2 | N3
  deriving DecidableEq, Repr

def State.all : List State :=
  [.GO, .OK, .OB, .KE, .CO, .VA, .AR, .ST, .ES, .U1, .U2, .U3, .U4, .MI, .ZE, .IN, .FR, .E1, .E2,
    .E3, .T1, .T2, .T3, .F1, .F2, .F3, .F4, .N1, .N2, .N3]

/-- An entry of the table: the next state, or an action by its number, which is negative in the
source. -/
inductive Next where
  | goto (state : State)
  | act (n : ℕ)
  deriving DecidableEq, Repr

section Table

open State Next

/-- `__` -/
def xx : Next := act 1

/-- A row of `state_transition_table`, without the errors at its end. -/
def transitionRow : State → List Next
  | .GO => [goto GO, goto GO, act 6, xx, act 5, xx, xx, xx, goto ST]
  | .OK => [goto OK, goto OK, xx, act 8, xx, act 7, xx, act 3]
  | .OB => [goto OB, goto OB, xx, act 9, xx, xx, xx, xx, goto ST]
  | .KE => [goto KE, goto KE, xx, xx, xx, xx, xx, xx, goto ST]
  | .CO => [goto CO, goto CO, xx, xx, xx, xx, act 2]
  | .VA => [goto VA, goto VA, act 6, xx, act 5, xx, xx, xx, goto ST, xx, xx, xx, goto MI, xx,
    goto ZE, goto IN, xx, xx, xx, xx, xx, goto F1, xx, goto N1, xx, xx, goto T1]
  | .AR => [goto AR, goto AR, act 6, xx, act 5, act 7, xx, xx, goto ST, xx, xx, xx, goto MI, xx,
    goto ZE, goto IN, xx, xx, xx, xx, xx, goto F1, xx, goto N1, xx, xx, goto T1]
  | .ST => [goto ST, xx, goto ST, goto ST, goto ST, goto ST, goto ST, goto ST, act 4, goto ES,
    goto ST, goto ST, goto ST, goto ST, goto ST, goto ST, goto ST, goto ST, goto ST, goto ST,
    goto ST, goto ST, goto ST, goto ST, goto ST, goto ST, goto ST, goto ST, goto ST, goto ST,
    goto ST]
  | .ES => [xx, xx, xx, xx, xx, xx, xx, xx, goto ST, goto ST, goto ST, xx, xx, xx, xx, xx, xx,
    goto ST, xx, xx, xx, goto ST, xx, goto ST, goto ST, xx, goto ST, goto U1]
  | .U1 => [xx, xx, xx, xx, xx, xx, xx, xx, xx, xx, xx, xx, xx, xx, goto U2, goto U2, goto U2,
    goto U2, goto U2, goto U2, goto U2, goto U2, xx, xx, xx, xx, xx, xx, goto U2, goto U2]
  | .U2 => [xx, xx, xx, xx, xx, xx, xx, xx, xx, xx, xx, xx, xx, xx, goto U3, goto U3, goto U3,
    goto U3, goto U3, goto U3, goto U3, goto U3, xx, xx, xx, xx, xx, xx, goto U3, goto U3]
  | .U3 => [xx, xx, xx, xx, xx, xx, xx, xx, xx, xx, xx, xx, xx, xx, goto U4, goto U4, goto U4,
    goto U4, goto U4, goto U4, goto U4, goto U4, xx, xx, xx, xx, xx, xx, goto U4, goto U4]
  | .U4 => [xx, xx, xx, xx, xx, xx, xx, xx, xx, xx, xx, xx, xx, xx, goto ST, goto ST, goto ST,
    goto ST, goto ST, goto ST, goto ST, goto ST, xx, xx, xx, xx, xx, xx, goto ST, goto ST]
  | .MI => [xx, xx, xx, xx, xx, xx, xx, xx, xx, xx, xx, xx, xx, xx, goto ZE, goto IN]
  | .ZE => [goto OK, goto OK, xx, act 8, xx, act 7, xx, act 3, xx, xx, xx, xx, xx, goto FR, xx,
    xx, xx, xx, xx, xx, goto E1, xx, xx, xx, xx, xx, xx, xx, xx, goto E1]
  | .IN => [goto OK, goto OK, xx, act 8, xx, act 7, xx, act 3, xx, xx, xx, xx, xx, goto FR,
    goto IN, goto IN, xx, xx, xx, xx, goto E1, xx, xx, xx, xx, xx, xx, xx, xx, goto E1]
  | .FR => [goto OK, goto OK, xx, act 8, xx, act 7, xx, act 3, xx, xx, xx, xx, xx, xx, goto FR,
    goto FR, xx, xx, xx, xx, goto E1, xx, xx, xx, xx, xx, xx, xx, xx, goto E1]
  | .E1 => [xx, xx, xx, xx, xx, xx, xx, xx, xx, xx, xx, goto E2, goto E2, xx, goto E3, goto E3]
  | .E2 => [xx, xx, xx, xx, xx, xx, xx, xx, xx, xx, xx, xx, xx, xx, goto E3, goto E3]
  | .E3 => [goto OK, goto OK, xx, act 8, xx, act 7, xx, act 3, xx, xx, xx, xx, xx, xx, goto E3,
    goto E3]
  | .T1 => [xx, xx, xx, xx, xx, xx, xx, xx, xx, xx, xx, xx, xx, xx, xx, xx, xx, xx, xx, xx, xx,
    xx, xx, xx, goto T2]
  | .T2 => [xx, xx, xx, xx, xx, xx, xx, xx, xx, xx, xx, xx, xx, xx, xx, xx, xx, xx, xx, xx, xx,
    xx, xx, xx, xx, xx, xx, goto T3]
  | .T3 => [xx, xx, xx, xx, xx, xx, xx, xx, xx, xx, xx, xx, xx, xx, xx, xx, xx, xx, xx, xx,
    goto OK]
  | .F1 => [xx, xx, xx, xx, xx, xx, xx, xx, xx, xx, xx, xx, xx, xx, xx, xx, goto F2]
  | .F2 => [xx, xx, xx, xx, xx, xx, xx, xx, xx, xx, xx, xx, xx, xx, xx, xx, xx, xx, xx, xx, xx,
    xx, goto F3]
  | .F3 => [xx, xx, xx, xx, xx, xx, xx, xx, xx, xx, xx, xx, xx, xx, xx, xx, xx, xx, xx, xx, xx,
    xx, xx, xx, xx, goto F4]
  | .F4 => [xx, xx, xx, xx, xx, xx, xx, xx, xx, xx, xx, xx, xx, xx, xx, xx, xx, xx, xx, xx,
    goto OK]
  | .N1 => [xx, xx, xx, xx, xx, xx, xx, xx, xx, xx, xx, xx, xx, xx, xx, xx, xx, xx, xx, xx, xx,
    xx, xx, xx, xx, xx, xx, goto N2]
  | .N2 => [xx, xx, xx, xx, xx, xx, xx, xx, xx, xx, xx, xx, xx, xx, xx, xx, xx, xx, xx, xx, xx,
    xx, goto N3]
  | .N3 => [xx, xx, xx, xx, xx, xx, xx, xx, xx, xx, xx, xx, xx, xx, xx, xx, xx, xx, xx, xx, xx,
    xx, goto OK]

end Table

/-- `state_transition_table` -/
def stateTransitionTable (state : State) (class' : Class) : Next :=
  (transitionRow state).getD (Class.all.idxOf class') xx

/-! ## Values -/

def IS_NULL : ℤ := 0
def IS_LONG : ℤ := 1
def IS_DOUBLE : ℤ := 2
def IS_BOOL : ℤ := 3
def IS_STRING : ℤ := 6

/-- The bits of `options`. -/
structure Options where
  objectAsArray : Bool
  bigintAsString : Bool
  deriving DecidableEq, Repr

/-- A scalar value. A double is the text that `zend_strtod` is given. -/
inductive Zval where
  | null
  | bool (b : Bool)
  | long (n : ℤ)
  | double (text : List UInt8)
  | string (bytes : List UInt8)
  deriving DecidableEq, Repr

def digitsValue (digits : List UInt8) : ℕ :=
  Lib.Positional.value 10 (digits.map fun c => c.toNat - 48)

/-- Whether the digits are those of a number that is no `long`; `long_min_digits` has 19 digits. -/
def isBigint (negative : Bool) (digits : List UInt8) : Bool :=
  19 < digits.length ∨
    (digits.length = 19 ∧ ¬ (digitsValue digits < 9223372036854775808 ∨
      (digitsValue digits = 9223372036854775808 ∧ negative)))

/-- `json_create_zval` -/
def jsonCreateZval (buf : List UInt8) (type : ℤ) (options : Options) : Zval :=
  if type = IS_LONG then
    let negative := buf.headD 0 = 45
    let digits := if negative then buf.tail else buf
    if isBigint negative digits then
      if options.bigintAsString then .string buf else .double buf
    else .long (if negative then -digitsValue digits else digitsValue digits)
  else if type = IS_DOUBLE then .double buf
  else if type = IS_STRING then .string buf
  else if type = IS_BOOL then .bool (buf.headD 0 = 116)
  else .null

/-- What is put into an array or an object: the value of `json_create_zval` and the type it was
given, or the array or object that is opened. -/
inductive Child where
  | zval (type : ℤ) (value : Zval)
  | container
  deriving DecidableEq, Repr

/-- The calls that build the value. An array or an object is named by its place on
`the_zstack`. -/
inductive Call where
  | setResult (bytes : List UInt8)
  | init (top : ℕ) (isObject : Bool)
  | addNextIndex (top : ℕ) (child : Child)
  | addEntry (top : ℕ) (key name : List UInt8) (child : Child)
  deriving DecidableEq, Repr

/-- The name that an entry gets for its key: `_empty_` for the empty key of an object. -/
def entryName (options : Options) (key : List UInt8) : List UInt8 :=
  if key.length ≠ 0 ∨ options.objectAsArray then key else [95, 101, 109, 112, 116, 121, 95]

/-! ## The characters of a string -/

/-- `dehexchar` -/
def dehexchar (c : ℕ) : ℤ :=
  match hexValue (UInt8.ofNat c) with
  | some d => d
  | none => -1

/-- The last bytes of a buffer, by their distance from its end. -/
def fromEnd (buf : List UInt8) (k : ℕ) : ℕ := (buf.getD (buf.length - k) 0).toNat

/-- `utf16_to_utf8` -/
def utf16ToUtf8 (buf : List UInt8) (utf16 : ℕ) : List UInt8 :=
  if utf16 < 0x80 then buf ++ [UInt8.ofNat utf16]
  else if utf16 < 0x800 then
    buf ++ [UInt8.ofNat (0xc0 ||| utf16 >>> 6), UInt8.ofNat (0x80 ||| utf16 &&& 0x3f)]
  else if utf16 &&& 0xfc00 = 0xdc00 ∧ 3 ≤ buf.length ∧ fromEnd buf 3 = 0xed ∧
      fromEnd buf 2 &&& 0xf0 = 0xa0 ∧ fromEnd buf 1 &&& 0xc0 = 0x80 then
    -- found surrogate pair
    let utf32 := ((fromEnd buf 2 &&& 0xf) <<< 16 ||| (fromEnd buf 1 &&& 0x3f) <<< 10 |||
      utf16 &&& 0x3ff) + 0x10000
    buf.take (buf.length - 3) ++
      [UInt8.ofNat (0xf0 ||| utf32 >>> 18), UInt8.ofNat (0x80 ||| utf32 >>> 12 &&& 0x3f),
        UInt8.ofNat (0x80 ||| utf32 >>> 6 &&& 0x3f), UInt8.ofNat (0x80 ||| utf32 &&& 0x3f)]
  else
    buf ++ [UInt8.ofNat (0xe0 ||| utf16 >>> 12), UInt8.ofNat (0x80 ||| utf16 >>> 6 &&& 0x3f),
      UInt8.ofNat (0x80 ||| utf16 &&& 0x3f)]

/-! ## The automaton -/

inductive Mode where
  | MODE_ARRAY
  | MODE_DONE
  | MODE_KEY
  | MODE_OBJECT
  deriving DecidableEq, Repr

inductive Error where
  | DEPTH
  | STATE_MISMATCH
  | CTRL_CHAR
  | SYNTAX
  deriving DecidableEq, Repr

/-- The parser and the variables of `parse_JSON_ex`; the top of the stack is its head. -/
structure Parser where
  state : State
  depth : ℕ
  stack : List Mode
  buf : List UInt8
  key : List UInt8
  utf16 : ℕ
  type : ℤ
  calls : List Call
  deriving DecidableEq, Repr

/-- `new_JSON_parser`, for a depth of at least 1, as its caller checks. -/
def newJsonParser (depth : ℕ) : Parser := ⟨.GO, depth, [.MODE_DONE], [], [], 0, -1, []⟩

/-- `push` -/
def push (jp : Parser) (mode : Mode) : Except Error Parser :=
  if jp.depth ≤ jp.stack.length then .error .DEPTH else .ok { jp with stack := mode :: jp.stack }

/-- `pop` -/
def pop (jp : Parser) (mode : Mode) : Except Error Parser :=
  if jp.stack.head? = some mode then .ok { jp with stack := jp.stack.tail }
  else .error .STATE_MISMATCH

/-- `jp->top` -/
def top (jp : Parser) : ℕ := jp.stack.length - 1

/-- What a character adds to the buffer of a string. -/
def appendString (jp : Parser) (nextChar : ℕ) (nextState : State) : Parser :=
  if nextState = .ST ∧ jp.state ≠ .U4 then
    if jp.state ≠ .ES then { jp with buf := utf16ToUtf8 jp.buf nextChar }
    else if nextChar = 98 then { jp with buf := jp.buf ++ [8] }
    else if nextChar = 116 then { jp with buf := jp.buf ++ [9] }
    else if nextChar = 110 then { jp with buf := jp.buf ++ [10] }
    else if nextChar = 102 then { jp with buf := jp.buf ++ [12] }
    else if nextChar = 114 then { jp with buf := jp.buf ++ [13] }
    else { jp with buf := utf16ToUtf8 jp.buf nextChar }
  else if nextState = .U2 then
    { jp with utf16 := (dehexchar nextChar * 4096 % 65536).toNat }
  else if nextState = .U3 then
    { jp with utf16 := ((jp.utf16 + dehexchar nextChar * 256) % 65536).toNat }
  else if nextState = .U4 then
    { jp with utf16 := ((jp.utf16 + dehexchar nextChar * 16) % 65536).toNat }
  else if nextState = .ST ∧ jp.state = .U4 then
    let utf16 := ((jp.utf16 + dehexchar nextChar) % 65536).toNat
    { jp with utf16 := utf16, buf := utf16ToUtf8 jp.buf utf16 }
  else jp

def appendOther (jp : Parser) (nextChar : ℕ) (nextClass : Class) (nextState : State) : Parser :=
  if jp.type < IS_LONG ∧ (nextClass = .C_DIGIT ∨ nextClass = .C_ZERO) then
    { jp with type := IS_LONG, buf := jp.buf ++ [UInt8.ofNat nextChar] }
  else if jp.type = IS_LONG ∧ nextState = .E1 then
    { jp with type := IS_DOUBLE, buf := jp.buf ++ [UInt8.ofNat nextChar] }
  else if jp.type < IS_DOUBLE ∧ nextClass = .C_POINT then
    { jp with type := IS_DOUBLE, buf := jp.buf ++ [UInt8.ofNat nextChar] }
  else if jp.type < IS_STRING ∧ nextClass = .C_QUOTE then { jp with type := IS_STRING }
  else if jp.type < IS_BOOL ∧
      ((jp.state = .T3 ∧ nextState = .OK) ∨ (jp.state = .F4 ∧ nextState = .OK)) then
    { jp with type := IS_BOOL }
  else if jp.type < IS_NULL ∧ jp.state = .N3 ∧ nextState = .OK then { jp with type := IS_NULL }
  else if jp.type ≠ IS_STRING ∧ nextClass ≠ .C_SPACE ∧ nextClass ≠ .C_WHITE then
    { jp with buf := utf16ToUtf8 jp.buf nextChar }
  else jp

def changeState (jp : Parser) (nextChar : ℕ) (nextClass : Class) (nextState : State) : Parser :=
  let jp' := if jp.type = IS_STRING then appendString jp nextChar nextState
    else appendOther jp nextChar nextClass nextState
  { jp' with state := nextState }

/-- `add_property_zval_ex` or `add_assoc_zval_ex` for the current key, which is used up. -/
def addEntry (options : Options) (jp : Parser) (at' : ℕ) (child : Child) : Parser :=
  { jp with
    calls := jp.calls ++ [.addEntry at' jp.key (entryName options jp.key) child]
    key := [] }

def addNextIndex (jp : Parser) (at' : ℕ) (child : Child) : Parser :=
  { jp with calls := jp.calls ++ [.addNextIndex at' child] }

/-- The value in the buffer, as `json_create_zval` makes it. -/
def current (options : Options) (jp : Parser) : Child :=
  .zval jp.type (jsonCreateZval jp.buf jp.type options)

/-- `buf.len = 0` and `JSON_RESET_TYPE` -/
def resetValue (jp : Parser) : Parser := { jp with buf := [], type := -1 }

/-- `attach_zval` of what is opened on top of the stack. -/
def attachZval (options : Options) (jp : Parser) : Parser :=
  match jp.stack.tail.head? with
  | some .MODE_ARRAY => addNextIndex jp (top jp - 1) .container
  | some .MODE_OBJECT => addEntry options jp (top jp - 1) .container
  | _ => jp

/-- `{` and `[`, behind the push. -/
def openContainer (options : Options) (jp : Parser) (isObject : Bool) : Parser :=
  if 0 < top jp then
    let jp := { jp with calls := jp.calls ++ [.init (top jp) isObject] }
    let jp := if 1 < top jp then attachZval options jp else jp
    { jp with type := -1 }
  else jp

def act (options : Options) (jp : Parser) : ℕ → Except Error Parser
  -- empty }
  | 9 => do
    let jp ← pop jp .MODE_KEY
    .ok { jp with state := .OK }
  -- }
  | 8 => do
    let jp := if jp.type ≠ -1 ∧ jp.stack.head? = some .MODE_OBJECT then
      resetValue (addEntry options jp (top jp) (current options jp)) else jp
    let jp ← pop jp .MODE_OBJECT
    .ok { jp with state := .OK }
  -- ]
  | 7 => do
    let jp := if jp.type ≠ -1 ∧ jp.stack.head? = some .MODE_ARRAY then
      resetValue (addNextIndex jp (top jp) (current options jp)) else jp
    let jp ← pop jp .MODE_ARRAY
    .ok { jp with state := .OK }
  -- {
  | 6 => do
    let jp ← push jp .MODE_KEY
    .ok (openContainer options { jp with state := .OB } (¬ options.objectAsArray))
  -- [
  | 5 => do
    let jp ← push jp .MODE_ARRAY
    .ok (openContainer options { jp with state := .AR } false)
  -- "
  | 4 =>
    match jp.stack.head? with
    | some .MODE_KEY => .ok { jp with state := .CO, key := jp.buf, buf := [], type := -1 }
    | some .MODE_ARRAY | some .MODE_OBJECT => .ok { jp with state := .OK }
    | some .MODE_DONE =>
      if jp.type = IS_STRING then
        .ok { jp with state := .OK, calls := jp.calls ++ [.setResult jp.buf] }
      else .error .SYNTAX
    | none => .error .SYNTAX
  -- ,
  | 3 =>
    match jp.stack.head? with
    | some .MODE_OBJECT =>
      match (do push (← pop jp .MODE_OBJECT) .MODE_KEY) with
      | .ok jp' =>
        let jp' :=
          if jp.type ≠ -1 then addEntry options jp' (top jp') (current options jp) else jp'
        .ok (resetValue { jp' with state := .KE })
      -- the push that fails has put the top back
      | .error _ => .ok (resetValue jp)
    | some .MODE_ARRAY =>
      let jp' := if jp.type ≠ -1 then addNextIndex jp (top jp) (current options jp) else jp
      .ok (resetValue { jp' with state := .VA })
    | _ => .error .SYNTAX
  -- :
  | 2 =>
    match (do push (← pop jp .MODE_KEY) .MODE_OBJECT) with
    | .ok jp => .ok { jp with state := .VA }
    | .error _ => .error .SYNTAX
  -- syntax error
  | _ => .error .SYNTAX

def classOf (nextChar : ℕ) : Except Error Class :=
  if 128 ≤ nextChar then .ok .C_ETC
  else
    match asciiClass.getD nextChar none with
    | none => .error .CTRL_CHAR
    | some nextClass => .ok nextClass

def parseChar (options : Options) (jp : Parser) (nextChar : ℕ) : Except Error Parser := do
  let nextClass ← classOf nextChar
  match stateTransitionTable jp.state nextClass with
  | .goto nextState => .ok (changeState jp nextChar nextClass nextState)
  | .act n => act options jp n

def parseLoop (options : Options) (jp : Parser) : List UInt16 → Except Error Parser
  | [] => .ok jp
  | c :: rest => do
    let jp ← parseChar options jp c.toNat
    parseLoop options jp rest

/-- `parse_JSON_ex` with a new parser: the calls it makes, when it accepts. -/
def parseJsonEx (options : Options) (depth : ℕ) (text : List UInt16) :
    Except Error (List Call) := do
  let jp ← parseLoop options (newJsonParser depth) text
  if jp.state = .OK ∧ jp.stack.head? = some .MODE_DONE then .ok jp.calls else .error .SYNTAX

end PhpRuntime.Json
