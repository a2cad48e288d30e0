import PhpRuntime.Json.Literals
import PhpRuntime.Lib.Fallible

/-!
# What the transition table does

The facts about the rows of `state_transition_table` that the runs of the parser rest on, and the
invariant of the parser: which type the current value can have in a state.
-/

set_option autoImplicit false

namespace PhpRuntime.Json

open PhpRuntime.Lib.Chunked (hexValue)

/-! ## Kinds of states -/

/-- Where a state stands: where a value or a key may begin, in a word, in a number, in a string,
or behind a value. -/
inductive Kind where
  | start
  | word
  | number
  | string
  | done
  deriving DecidableEq, Repr

def State.kind : State → Kind
  | .GO | .OB | .KE | .CO | .VA | .AR => .start
  | .ST | .ES | .U1 | .U2 | .U3 | .U4 => .string
  | .ZE | .IN | .FR | .E1 | .E2 | .E3 => .number
  | .MI | .T1 | .T2 | .T3 | .F1 | .F2 | .F3 | .F4 | .N1 | .N2 | .N3 => .word
  | .OK => .done

theorem State.mem_all (state : State) : state ∈ State.all := by cases state <;> decide

theorem Class.mem_all (nextClass : Class) : nextClass ∈ Class.all := by cases nextClass <;> decide

def types : List ℤ := [-1, 0, 1, 2, 3, 6]

/-- The types that the current value can have in a state. -/
def TypeAllowed (state : State) (type : ℤ) : Prop :=
  match state.kind with
  | .start | .word => type = -1
  | .number => type = IS_LONG ∨ type = IS_DOUBLE
  | .string => type = IS_STRING
  | .done => type ∈ types

instance (state : State) (type : ℤ) : Decidable (TypeAllowed state type) := by
  unfold TypeAllowed
  cases state.kind <;> infer_instance

theorem TypeAllowed.mem_types {state : State} {type : ℤ} (h : TypeAllowed state type) :
    type ∈ types := by
  rw [TypeAllowed] at h
  cases hkind : state.kind with
  | done =>
    rw [hkind] at h
    exact h
  | number =>
    rw [hkind] at h
    rcases h with rfl | rfl <;> decide
  | _ =>
    rw [hkind] at h
    subst h
    decide

/-- The key is read and waits for the end of its value. -/
def KeyWaits (state : State) (type : ℤ) (inObject : Bool) : Prop :=
  state = .CO ∨ (inObject = true ∧ (state ≠ .OK ∨ type ≠ -1))

instance (state : State) (type : ℤ) (inObject : Bool) :
    Decidable (KeyWaits state type inObject) := by
  unfold KeyWaits
  infer_instance

/-- The type that `changeState` leaves. -/
def nextType (type : ℤ) (state : State) (nextClass : Class) (nextState : State) : ℤ :=
  if type = IS_STRING then type
  else if type < IS_LONG ∧ (nextClass = .C_DIGIT ∨ nextClass = .C_ZERO) then IS_LONG
  else if type = IS_LONG ∧ nextState = .E1 then IS_DOUBLE
  else if type < IS_DOUBLE ∧ nextClass = .C_POINT then IS_DOUBLE
  else if type < IS_STRING ∧ nextClass = .C_QUOTE then IS_STRING
  else if type < IS_BOOL ∧
      ((state = .T3 ∧ nextState = .OK) ∨ (state = .F4 ∧ nextState = .OK)) then IS_BOOL
  else if type < IS_NULL ∧ state = .N3 ∧ nextState = .OK then IS_NULL
  else type

/-! ## The rows -/

def Next.state? : Next → Option State
  | .goto state => some state
  | .act _ => none

def Next.action? : Next → Option ℕ
  | .goto _ => none
  | .act n => some n

def StepsOutside (state : State) (nextClass : Class) (next : State) (type : ℤ) : Prop :=
  let type' := nextType type state nextClass next
  next.kind ≠ .string ∧ TypeAllowed next type' ∧
    (∀ inObject ∈ [true, false], KeyWaits next type' inObject ↔ KeyWaits state type inObject) ∧
    (next.kind = .start → state.kind = .start ∧ (nextClass = .C_SPACE ∨ nextClass = .C_WHITE)) ∧
    (type' = IS_STRING ∧ next = .OK ↔ type = IS_STRING ∧ state = .OK)

instance (state : State) (nextClass : Class) (next : State) (type : ℤ) :
    Decidable (StepsOutside state nextClass next type) := by
  unfold StepsOutside
  infer_instance

theorem steps_outside_table : ∀ state ∈ State.all, state.kind ≠ .string →
    ∀ nextClass ∈ Class.all, nextClass ≠ .C_QUOTE →
    ∀ next ∈ (stateTransitionTable state nextClass).state?,
    ∀ type ∈ types, TypeAllowed state type → StepsOutside state nextClass next type := by
  decide

theorem quote_table : ∀ state ∈ State.all, state.kind ≠ .string →
    ∀ next ∈ (stateTransitionTable state .C_QUOTE).state?,
    next = .ST ∧ state.kind = .start ∧ state ≠ .CO := by
  decide

def hexClasses : List Class :=
  [.C_ZERO, .C_DIGIT, .C_LOW_A, .C_LOW_B, .C_LOW_C, .C_LOW_D, .C_LOW_E, .C_LOW_F, .C_ABCDF, .C_E]

def StepsInside (state : State) (nextClass : Class) (next : State) : Prop :=
  match state with
  | .ST => (nextClass = .C_BACKS ∧ next = .ES) ∨
      (nextClass ≠ .C_BACKS ∧ nextClass ≠ .C_QUOTE ∧ next = .ST)
  | .ES => (nextClass = .C_LOW_U ∧ next = .U1) ∨ (nextClass ≠ .C_LOW_U ∧ next = .ST)
  | .U1 => nextClass ∈ hexClasses ∧ next = .U2
  | .U2 => nextClass ∈ hexClasses ∧ next = .U3
  | .U3 => nextClass ∈ hexClasses ∧ next = .U4
  | .U4 => nextClass ∈ hexClasses ∧ next = .ST
  | _ => False

instance (state : State) (nextClass : Class) (next : State) :
    Decidable (StepsInside state nextClass next) := by
  unfold StepsInside
  cases state <;> infer_instance

theorem steps_inside_table : ∀ state ∈ State.all, state.kind = .string →
    ∀ nextClass ∈ Class.all, ∀ next ∈ (stateTransitionTable state nextClass).state?,
    StepsInside state nextClass next := by
  decide

def Acts (state : State) (nextClass : Class) : ℕ → Prop
  | 9 => state = .OB
  | 8 => state.kind = .number ∨ state = .OK
  | 7 => state.kind = .number ∨ state = .OK ∨ state = .AR
  | 6 | 5 => state = .GO ∨ state = .VA ∨ state = .AR
  | 4 => state = .ST ∧ nextClass = .C_QUOTE
  | 3 => state.kind = .number ∨ state = .OK
  | 2 => state = .CO
  | n => n = 1

instance (state : State) (nextClass : Class) (n : ℕ) : Decidable (Acts state nextClass n) := by
  unfold Acts
  split <;> infer_instance

theorem acts_table : ∀ state ∈ State.all, ∀ nextClass ∈ Class.all,
    ∀ n ∈ (stateTransitionTable state nextClass).action?,
    n < 10 ∧ Acts state nextClass n ∧
      (n = 1 ∨ n = 4 ∨ (nextClass ≠ .C_QUOTE ∧ state.kind ≠ .string)) := by
  decide

/-! ## The classes -/

theorem class_table : ∀ c < 128, ∀ nextClass ∈ asciiClass.getD c none,
    (nextClass = .C_QUOTE ↔ c = 34) ∧ (nextClass = .C_BACKS ↔ c = 92) ∧
      (nextClass = .C_LOW_U ↔ c = 117) ∧
      (nextClass ∈ hexClasses → (hexValue (UInt8.ofNat c)).isSome = true) := by
  decide

variable {c : ℕ} {nextClass : Class}

theorem classOf_spec (h : classOf c = .ok nextClass) :
    (nextClass = .C_QUOTE ↔ c = 34) ∧ (nextClass = .C_BACKS ↔ c = 92) ∧
      (nextClass = .C_LOW_U ↔ c = 117) ∧
      (nextClass ∈ hexClasses → (hexValue (UInt8.ofNat c)).isSome = true) := by
  rw [classOf] at h
  split at h
  · next hlarge =>
    cases h
    have hfree : Class.C_ETC ≠ .C_QUOTE ∧ Class.C_ETC ≠ .C_BACKS ∧ Class.C_ETC ≠ .C_LOW_U ∧
        Class.C_ETC ∉ hexClasses := by decide
    exact ⟨iff_of_false hfree.1 (by omega), iff_of_false hfree.2.1 (by omega),
      iff_of_false hfree.2.2.1 (by omega), fun hmem => absurd hmem hfree.2.2.2⟩
  · next hsmall =>
    cases hclass : asciiClass.getD c none with
    | none =>
      rw [hclass] at h
      cases h
    | some cls =>
      rw [hclass] at h
      cases h
      exact class_table c (Nat.lt_of_not_le hsmall) nextClass hclass

end PhpRuntime.Json
