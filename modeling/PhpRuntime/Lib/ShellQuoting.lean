import Mathlib.Data.List.Basic

/-!
# Quoting in the shell

How a POSIX shell reads quotes and backslashes. A text is the list of its characters, of one byte or
more, and is read from the left: the state says whether the next character is quoted.
-/

set_option autoImplicit false

namespace PhpRuntime.Lib.ShellQuoting

abbrev Character := List UInt8

/-- Where the reader stands: outside of quotes or behind a backslash there, between single quotes,
between double quotes or behind a backslash there. -/
inductive State where
  | unquoted
  | escaped
  | single
  | double
  | doubleEscaped
deriving DecidableEq

/-- `"`, `'` and the backslash. -/
def doubleQuote : Character := [34]

@[inherit_doc doubleQuote] def singleQuote : Character := [39]

@[inherit_doc doubleQuote] def backslash : Character := [92]

/-- A backslash between double quotes is active in front of `$`, a backquote, `"`, itself and a line
break, and an ordinary character in front of others. -/
def activeInDouble (c : Character) : Bool := [[36], [96], doubleQuote, backslash, [10]].contains c

def step : State → Character → State
  | .unquoted, c =>
    if c = backslash then .escaped
    else if c = singleQuote then .single
    else if c = doubleQuote then .double
    else .unquoted
  | .escaped, _ => .unquoted
  | .single, c => if c = singleQuote then .unquoted else .single
  | .double, c =>
    if c = doubleQuote then .unquoted else if c = backslash then .doubleEscaped else .double
  | .doubleEscaped, _ => .double

def scan (s : State) (cs : List Character) : State := cs.foldl step s

/-- The characters of a text with the states in which they are read. -/
def visits : State → List Character → List (State × Character)
  | _, [] => []
  | s, c :: cs => (s, c) :: visits (step s c) cs

/-- The backslash in front of a character that is read in this state is active. -/
def Active (s : State) (c : Character) : Prop :=
  s = .escaped ∨ s = .doubleEscaped ∧ activeInDouble c = true

/-- Characters that end a word or are not themselves when they are not quoted. -/
def special : List Character :=
  [[124], [38], [59], [60], [62], [40], [41], [36], [96], [32], [9], [10], [42], [63], [91], [35],
    [126]]

/-- What a character adds to the value of a word. There is no value where the word ends, or where
something is expanded. -/
def readChar : State → Character → Option (List Character)
  | .unquoted, c =>
    if c = backslash ∨ c = singleQuote ∨ c = doubleQuote then some []
    else if special.contains c then none
    else some [c]
  | .escaped, c => if c = [10] then some [] else some [c]
  | .single, c => if c = singleQuote then some [] else some [c]
  | .double, c =>
    if c = doubleQuote ∨ c = backslash then some []
    else if c = [36] ∨ c = [96] then none
    else some [c]
  | .doubleEscaped, c =>
    if c = [10] then some [] else if activeInDouble c then some [c] else some [backslash, c]

def value : State → List Character → Option (List Character)
  | s, [] => if s = .unquoted then some [] else none
  | s, c :: cs =>
    match readChar s c with
    | none => none
    | some v => (value (step s c) cs).map (v ++ ·)

variable {s : State} {c : Character} {cs ds : List Character}

theorem scan_cons : scan s (c :: cs) = scan (step s c) cs := rfl

theorem step_single (h : c ≠ singleQuote) : step .single c = .single := if_neg h

theorem value_skip (h : readChar s c = some []) (cs : List Character) :
    value s (c :: cs) = value (step s c) cs := by
  rw [value, h]
  exact Option.map_id'

theorem value_keep (h : readChar s c = some [c]) (cs : List Character) :
    value s (c :: cs) = (value (step s c) cs).map (c :: ·) := by
  rw [value, h]
  rfl

end PhpRuntime.Lib.ShellQuoting
