import PhpRuntime.Text.CInt
import Mathlib.Data.List.Basic

/-!
# `wordwrap`

The function has two loops. With a break of one byte and without cutting it overwrites spaces in
a copy of the text, and otherwise it builds the result in a buffer, whose size is kept in
`alloced` and whose budget of breaks is kept in `chk`.
-/

set_option autoImplicit false

namespace PhpRuntime.Text

/-- `' '` -/
def space : UInt8 := 32

/-- `!strncmp(s, t, n)` -/
def strncmpEq : ℕ → List UInt8 → List UInt8 → Bool
  | 0, _, _ => true
  | n + 1, s, t =>
    s.headD 0 == t.headD 0 && (s.headD 0 == 0 || strncmpEq n s.tail t.tail)

/-! ## The loop in place -/

/-- The variables of the loop for a break of one byte. -/
structure InPlace where
  newtext : List UInt8
  laststart : ℕ
  lastspace : ℕ
  deriving DecidableEq, Repr

def InPlace.turn (text : List UInt8) (linelength : ℤ) (breakchar : UInt8) (w : InPlace)
    (current : ℕ) : InPlace :=
  if text.getD current 0 = breakchar then
    { w with laststart := current + 1, lastspace := current + 1 }
  else if text.getD current 0 = space then
    if linelength ≤ (current : ℤ) - w.laststart then
      { newtext := w.newtext.set current breakchar, laststart := current + 1, lastspace := current }
    else { w with lastspace := current }
  else if linelength ≤ (current : ℤ) - w.laststart ∧ w.laststart ≠ w.lastspace then
    { w with newtext := w.newtext.set w.lastspace breakchar, laststart := w.lastspace + 1 }
  else w

/-- The first `n` turns. -/
def InPlace.turns (text : List UInt8) (linelength : ℤ) (breakchar : UInt8) (n : ℕ) : InPlace :=
  (List.range n).foldl (InPlace.turn text linelength breakchar) ⟨text, 0, 0⟩

/-! ## The loop that builds the result -/

/-- The variables of the other loop. `newtext` holds the first `newtextlen` bytes. -/
structure Building where
  newtext : List UInt8
  current : ℕ
  laststart : ℕ
  lastspace : ℕ
  chk : ℤ
  alloced : ℤ
  deriving DecidableEq, Repr

namespace Building

/-- `memcpy(newtext+newtextlen, s, n); newtextlen += n;`. A length above `INT_MAX` wraps, and
the next write is then in front of the buffer. -/
def write (w : Building) (s : List UInt8) : Except Undefined Building :=
  if w.alloced < w.newtext.length + s.length then .error .outsideBuffer
  else if INT_MAX < w.newtext.length + s.length then .error .overflow
  else .ok { w with newtext := w.newtext ++ s }

/-- The bytes of the text from `laststart` up to `stop`. -/
def line (text : List UInt8) (w : Building) (stop : ℕ) : List UInt8 :=
  (text.drop w.laststart).take (stop - w.laststart)

/-- The reallocation when the budget of breaks is used up. -/
def grow (textlen : ℕ) (linelength : ℤ) (breakcharlen : ℕ) (w : Building) :
    Except Undefined Building :=
  if w.chk ≤ 0 then
    if linelength = 0 then .error .divisionByZero
    else do
      let more ← intValue
        (toInt ((Int.tdiv (textlen - w.current + 1) linelength + 1) * breakcharlen) + 1)
      let chk ← intValue (toInt (Int.tdiv (textlen - w.current) linelength) + 1)
      .ok { w with alloced := w.alloced + more, chk := chk }
  else .ok w

def AtBreak (text breakchar : List UInt8) (current : ℕ) : Prop :=
  text.getD current 0 = breakchar.headD 0 ∧ current + breakchar.length < text.length ∧
    strncmpEq breakchar.length (text.drop current) breakchar = true

instance (text breakchar : List UInt8) (current : ℕ) :
    Decidable (AtBreak text breakchar current) :=
  inferInstanceAs (Decidable (_ ∧ _ ∧ _))

def place (text : List UInt8) (linelength : ℤ) (breakchar : List UInt8) (docut : Bool)
    (w : Building) : Except Undefined Building :=
  let current := w.current
  -- "when we hit an existing break, copy to new buffer, and fix up laststart and lastspace"
  if AtBreak text breakchar current then do
    let w ← w.write (line text w (current + breakchar.length))
    .ok { w with
      current := current + breakchar.length
      laststart := current + breakchar.length
      lastspace := current + breakchar.length
      chk := w.chk - 1 }
  -- "if it is a space, check if it is at the line boundary, copy and insert a break, or just
  -- keep track of it"
  else if text.getD current 0 = space then
    if linelength ≤ (current : ℤ) - w.laststart then do
      let w ← w.write (line text w current)
      let w ← w.write breakchar
      .ok { w with
        current := current + 1
        laststart := current + 1
        lastspace := current
        chk := w.chk - 1 }
    else .ok { w with current := current + 1, lastspace := current }
  -- "if we are cutting, and we've accumulated enough characters, and we haven't see a space for
  -- this line, copy and insert a break."
  else if linelength ≤ (current : ℤ) - w.laststart ∧ docut = true ∧ w.lastspace ≤ w.laststart then do
    let w ← w.write (line text w current)
    let w ← w.write breakchar
    .ok { w with
      current := current + 1
      laststart := current
      lastspace := current
      chk := w.chk - 1 }
  -- "if the current word puts us over the linelength, copy back up until the last space, insert
  -- a break, and move up the laststart"
  else if linelength ≤ (current : ℤ) - w.laststart ∧ w.laststart < w.lastspace then do
    let stop := w.lastspace
    let w ← w.write (line text w stop)
    let w ← w.write breakchar
    .ok { w with
      current := current + 1
      laststart := stop + 1
      lastspace := stop + 1
      chk := w.chk - 1 }
  else .ok { w with current := current + 1 }

/-- The loop. Each turn moves `current`, so `textlen` turns are enough. -/
def loop (text : List UInt8) (linelength : ℤ) (breakchar : List UInt8) (docut : Bool) :
    ℕ → Building → Except Undefined Building
  | 0, w => .ok w
  | n + 1, w =>
    if w.current < text.length then do
      let w ← w.grow text.length linelength breakchar.length
      let w ← w.place text linelength breakchar docut
      w.loop text linelength breakchar docut n
    else .ok w

def stragglers (text : List UInt8) (w : Building) : Except Undefined Building :=
  if w.laststart ≠ w.current then w.write (line text w w.current) else .ok w

/-- What follows the loop: the final zero byte, and "free unused memory". -/
def finish (text : List UInt8) (w : Building) : Except Undefined (List UInt8) := do
  let w ← w.stragglers text
  if w.alloced < w.newtext.length + 1 then .error .outsideBuffer
  else do
    let _ ← intValue (w.newtext.length + 1)
    .ok w.newtext

/-- The buffer of the start: `safe_emalloc(chk, breakcharlen, textlen + 1)`, or
`safe_emalloc(textlen, breakcharlen + 1, 1)`. -/
def start (textlen : ℕ) (linelength : ℤ) (breakcharlen : ℕ) : Except Undefined Building := do
  if 0 < linelength then
    let chk := toInt (Int.tdiv textlen linelength + 1)
    let _ ← intValue (textlen + 1)
    let product ← intValue (chk * breakcharlen)
    let sum ← intValue (textlen + product)
    let alloced ← intValue (sum + 1)
    .ok ⟨[], 0, 0, 0, chk, alloced⟩
  else
    let factor ← intValue (breakcharlen + 1)
    let product ← intValue (textlen * factor)
    let alloced ← intValue (product + 1)
    .ok ⟨[], 0, 0, 0, textlen, alloced⟩

end Building

/-- `wordwrap`. No text is `RETURN_FALSE`. -/
def wordwrap (text : List UInt8) (linelength : ℤ) (breakchar : List UInt8) (docut : Bool) :
    Except Undefined (Option (List UInt8)) :=
  if text = [] then .ok (some [])
  else if breakchar = [] then .ok none
  else if linelength = 0 ∧ docut = true then .ok none
  else if breakchar.length = 1 ∧ docut = false then
    .ok (some (InPlace.turns text linelength (breakchar.headD 0) text.length).newtext)
  else do
    let w ← Building.start text.length linelength breakchar.length
    let w ← w.loop text linelength breakchar docut text.length
    let newtext ← w.finish text
    .ok (some newtext)

end PhpRuntime.Text
