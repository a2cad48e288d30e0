import PhpRuntime.Json.Automaton

/-!
# Runs of the JSON parser

The parser follows the scanner of string literals: what it has handed on, what waits in its key and
its buffer, and the literals of the text that is left are the literals of the whole text. So the
decoded strings of an accepted text are the encodings of its literals, and they are UTF-8 as long
as no literal has half of a surrogate pair alone.
-/

set_option autoImplicit false

namespace PhpRuntime.Json

open PhpRuntime.Lib (bind_eq_ok)
open PhpRuntime.Lib.Utf16 (codePoints encode IsUtf8 Paired appendUnit foldl_appendUnit appendUnit_lt
  isUtf8_encode_iff)

variable {options : Options} {jp jp' : Parser} {literal : Option (List ℕ)}
  {escape units rest text : List ℕ} {c n u : ℕ} {mode : Mode} {nextClass : Class} {next : State}

/-! ## The simulation -/

/-- The parser between two characters. -/
structure Valid (jp : Parser) : Prop where
  bottom : jp.stack.getLast? = some .MODE_DONE
  depth : jp.stack.length ≤ max 1 jp.depth
  type : TypeAllowed jp.state jp.type
  empty : jp.state.kind = .start → jp.buf = []

/-- The characters of an escape sequence that are read. -/
def IsEscape (state : State) (utf16 : ℕ) (escape : List ℕ) : Prop :=
  match state with
  | .ES => escape = [92]
  | .U1 => escape = [92, 117]
  | .U2 => ∃ x, escape = [92, 117, x] ∧ utf16 = hexDigit x * 4096
  | .U3 => ∃ x y, escape = [92, 117, x, y] ∧ utf16 = hexDigit x * 4096 + hexDigit y * 256
  | .U4 => ∃ x y z, escape = [92, 117, x, y, z] ∧
      utf16 = hexDigit x * 4096 + hexDigit y * 256 + hexDigit z * 16
  | _ => escape = []

/-- The buffer holds the bytes of the units of a literal. -/
def Holds (buf : List UInt8) (units : List ℕ) : Prop :=
  (∀ u ∈ units, u < 65536) ∧ buf = encode (codePoints units)

/-- The parser stands where the scanner stands, `literal` being what it holds and `escape` the
escape sequence it is in. -/
structure Sim (jp : Parser) (literal : Option (List ℕ)) (escape : List ℕ) : Prop where
  valid : Valid jp
  outside : jp.state.kind ≠ .string → literal = none ∧ escape = []
  inside : jp.state.kind = .string →
    ∃ units, literal = some units ∧ Holds jp.buf units ∧ IsEscape jp.state jp.utf16 escape

def pending (jp : Parser) : List (List UInt8) :=
  (if KeyWaits jp.state jp.type (jp.stack.head? = some .MODE_OBJECT) then [jp.key] else []) ++
    if (jp.type = IS_STRING ∧ jp.state = .OK) ∧
      (jp.stack.head? = some .MODE_ARRAY ∨ jp.stack.head? = some .MODE_OBJECT) then [jp.buf]
    else []

def emitted (jp : Parser) : List (List UInt8) := decoded jp.calls ++ pending jp

def out (units : List ℕ) : List UInt8 := encode (codePoints units)

/-! ## The buffer of a string -/

theorem codePoints_concat (units : List ℕ) (u : ℕ) :
    codePoints (units ++ [u]) = appendUnit (codePoints units) u := by
  rw [← foldl_appendUnit, ← foldl_appendUnit, List.foldl_append]
  rfl

theorem codePoints_lt (hunits : ∀ u ∈ units, u < 65536) : ∀ v ∈ codePoints units, v < 0x110000 := by
  induction units using List.reverseRecOn with
  | nil => exact fun v hv => absurd hv List.not_mem_nil
  | append_singleton units u ih =>
    rw [codePoints_concat]
    apply appendUnit_lt
    · exact ih fun w hw => hunits w (List.mem_append_left _ hw)
    · exact hunits u (List.mem_append_right _ List.mem_cons_self)

theorem Holds.append {buf : List UInt8} (hbuf : Holds buf units) (hu : u < 65536) :
    Holds (utf16ToUtf8 buf u) (units ++ [u]) := by
  constructor
  · intro w hw
    rcases List.mem_append.mp hw with hw | hw
    · exact hbuf.1 w hw
    · rw [List.mem_singleton.mp hw]
      exact hu
  · rw [codePoints_concat, hbuf.2, utf16ToUtf8_encode (codePoints_lt hbuf.1) hu]

theorem Holds.nil : Holds [] [] := ⟨fun _ hu => absurd hu List.not_mem_nil, rfl⟩

/-! ## The stack -/

theorem pop_eq_ok (h : pop jp mode = .ok jp') :
    ∃ rest, jp.stack = mode :: rest ∧ jp' = { jp with stack := rest } := by
  rw [pop] at h
  split at h
  · next hhead =>
    cases hstack : jp.stack with
    | nil =>
      rw [hstack] at hhead
      cases hhead
    | cons top rest =>
      rw [hstack] at hhead h
      cases hhead
      cases h
      exact ⟨rest, rfl, rfl⟩
  · cases h

theorem push_eq_ok (h : push jp mode = .ok jp') :
    jp.stack.length < jp.depth ∧ jp' = { jp with stack := mode :: jp.stack } := by
  rw [push] at h
  split at h
  · cases h
  · next hdepth =>
    cases h
    exact ⟨Nat.lt_of_not_le hdepth, rfl⟩

theorem bottom_tail {rest : List Mode} (h : (mode :: rest).getLast? = some .MODE_DONE)
    (hmode : mode ≠ .MODE_DONE) : rest.getLast? = some .MODE_DONE ∧ 1 ≤ rest.length := by
  cases rest with
  | nil =>
    cases h
    exact absurd rfl hmode
  | cons m rest =>
    exact ⟨h, Nat.succ_le_succ (Nat.zero_le _)⟩

theorem bottom_cons {rest : List Mode} (h : rest.getLast? = some .MODE_DONE) :
    (mode :: rest).getLast? = some .MODE_DONE := by
  rw [List.getLast?_cons, h]
  rfl

/-! ## A change of the state -/

theorem appendString_eq (jp : Parser) (c : ℕ) (next : State) :
    ∃ buf utf16, appendString jp c next = { jp with buf := buf, utf16 := utf16 } := by
  unfold appendString
  split_ifs <;> exact ⟨_, _, rfl⟩

theorem appendOther_eq (htype : jp.type ≠ IS_STRING) (c : ℕ) (nextClass : Class) (next : State) :
    ∃ buf, appendOther jp c nextClass next =
      { jp with type := nextType jp.type jp.state nextClass next, buf := buf } := by
  unfold appendOther nextType
  split_ifs <;> exact ⟨_, rfl⟩

theorem changeState_eq (jp : Parser) (c : ℕ) (nextClass : Class) (next : State) :
    ∃ buf utf16, changeState jp c nextClass next =
      { jp with
        state := next
        type := nextType jp.type jp.state nextClass next
        buf := buf
        utf16 := utf16 } := by
  rw [changeState]
  by_cases htype : jp.type = IS_STRING
  · obtain ⟨buf, utf16, heq⟩ := appendString_eq jp c next
    refine ⟨buf, utf16, ?_⟩
    rw [if_pos htype, nextType, if_pos htype, heq]
  · obtain ⟨buf, heq⟩ := appendOther_eq htype c nextClass next
    refine ⟨buf, jp.utf16, ?_⟩
    rw [if_neg htype, heq]

theorem changeState_blank (htype : jp.type = -1)
    (hblank : nextClass = .C_SPACE ∨ nextClass = .C_WHITE) :
    (changeState jp c nextClass next).buf = jp.buf := by
  have hstring : jp.type ≠ IS_STRING := by
    rw [htype]
    decide
  rw [changeState, if_neg hstring]
  unfold appendOther
  split_ifs with hdigit hexp hpoint
  · rcases hblank with rfl | rfl <;> rcases hdigit.2 with h | h <;> cases h
  · rw [htype] at hexp
    exact absurd hexp.1 (by decide)
  · rcases hblank with rfl | rfl <;> cases hpoint.2
  · rfl
  · rfl
  · rfl
  · next hother =>
    rcases hblank with rfl | rfl
    · exact absurd rfl hother.2.1
    · exact absurd rfl hother.2.2
  · rfl

theorem changeState_done (htype : jp.type = IS_STRING) :
    (changeState jp c nextClass .OK).buf = jp.buf := by
  rw [changeState, if_pos htype]
  unfold appendString
  rw [if_neg fun h => State.noConfusion h.1, if_neg State.noConfusion, if_neg State.noConfusion,
    if_neg State.noConfusion, if_neg fun h => State.noConfusion h.1]

/-- A step between tokens, and in words and numbers: nothing is read of a string. -/
structure Stays (jp jp' : Parser) : Prop where
  valid : Valid jp'
  outside : jp'.state.kind ≠ .string
  emitted : emitted jp' = emitted jp

theorem changeState_stays (hvalid : Valid jp) (hout : jp.state.kind ≠ .string)
    (hclass : nextClass ≠ .C_QUOTE)
    (hnext : stateTransitionTable jp.state nextClass = .goto next) :
    Stays jp (changeState jp c nextClass next) := by
  obtain ⟨hkind, htype, hkey, hstart, hdone⟩ : StepsOutside jp.state nextClass next jp.type :=
    steps_outside_table jp.state (State.mem_all _) hout nextClass (Class.mem_all _) hclass next
      (by rw [hnext]; rfl) jp.type hvalid.type.mem_types hvalid.type
  have hempty : next.kind = .start → (changeState jp c nextClass next).buf = [] := by
    intro hnextStart
    obtain ⟨hstate, hblank⟩ := hstart hnextStart
    have htype := hvalid.type
    rw [TypeAllowed, hstate] at htype
    rw [changeState_blank htype hblank]
    exact hvalid.empty hstate
  have hbuf : jp.type = IS_STRING ∧ jp.state = .OK →
      (changeState jp c nextClass next).buf = jp.buf := by
    intro hboth
    rw [(hdone.mpr hboth).2]
    exact changeState_done hboth.1
  obtain ⟨buf, utf16, heq⟩ := changeState_eq jp c nextClass next
  rw [heq] at hempty hbuf ⊢
  refine ⟨⟨hvalid.bottom, hvalid.depth, htype, hempty⟩, hkind, ?_⟩
  have hwaits := hkey (jp.stack.head? = some .MODE_OBJECT)
    (by cases decide (jp.stack.head? = some .MODE_OBJECT) <;> decide)
  rw [emitted, emitted, pending, pending]
  rw [if_congr hwaits rfl rfl, if_congr (and_congr_left' hdone) rfl rfl]
  apply congrArg
  apply congrArg
  by_cases hboth : jp.type = IS_STRING ∧ jp.state = .OK
  · rw [hbuf hboth]
  · rw [if_neg fun h => hboth h.1, if_neg fun h => hboth h.1]

/-! ## The end of a value -/

theorem kind_cases (htype : TypeAllowed jp.state jp.type)
    (hstate : jp.state.kind = .number ∨ jp.state = .OK) :
    (jp.type = IS_STRING ∧ jp.state = .OK ↔ jp.type = IS_STRING) ∧
      (jp.type = -1 → jp.state = .OK) ∧ jp.state ≠ .CO := by
  rcases hstate with hkind | hdone
  · rw [TypeAllowed, hkind] at htype
    have hstring : jp.type ≠ IS_STRING := by
      rcases htype with h | h <;> rw [h] <;> decide
    have hreset : jp.type ≠ -1 := by
      rcases htype with h | h <;> rw [h] <;> decide
    refine ⟨iff_of_false (fun h => hstring h.1) hstring, fun h => absurd h hreset, ?_⟩
    rintro hco
    rw [hco] at hkind
    cases hkind
  · refine ⟨and_iff_left hdone, fun _ => hdone, ?_⟩
    rw [hdone]
    exact State.noConfusion

theorem emitted_object (hvalid : Valid jp) (hstate : jp.state.kind = .number ∨ jp.state = .OK)
    (hhead : jp.stack.head? = some .MODE_OBJECT) (at' : ℕ) (name : List UInt8) :
    emitted jp =
      decoded (if jp.type ≠ -1 then jp.calls ++ [.addEntry at' jp.key name (current options jp)]
        else jp.calls) := by
  obtain ⟨hstring, hreset, hco⟩ := kind_cases hvalid.type hstate
  rw [emitted, pending, if_congr (and_congr_left' hstring) rfl rfl]
  by_cases htype : jp.type = -1
  · have hkey : ¬ KeyWaits jp.state jp.type (jp.stack.head? = some .MODE_OBJECT) := by
      rintro (h | ⟨-, h | h⟩)
      · exact hco h
      · exact h (hreset htype)
      · exact h htype
    have hnot : jp.type ≠ IS_STRING := by
      rw [htype]
      decide
    rw [if_neg hkey, if_neg fun h => hnot h.1, if_neg fun h => h htype]
    exact List.append_nil _
  · have hkey : KeyWaits jp.state jp.type (jp.stack.head? = some .MODE_OBJECT) :=
      Or.inr ⟨decide_eq_true hhead, Or.inr htype⟩
    rw [if_pos hkey, if_pos htype, decoded_concat, Call.strings, strings_current,
      if_congr (and_iff_left (Or.inr hhead)) rfl rfl]
    rfl

theorem emitted_array (hvalid : Valid jp)
    (hstate : jp.state.kind = .number ∨ jp.state = .OK ∨ jp.state = .AR)
    (hhead : jp.stack.head? = some .MODE_ARRAY) (at' : ℕ) :
    emitted jp =
      decoded (if jp.type ≠ -1 then jp.calls ++ [.addNextIndex at' (current options jp)]
        else jp.calls) := by
  have hstring : jp.state ≠ .CO ∧ (jp.type = IS_STRING ∧ jp.state = .OK ↔ jp.type = IS_STRING) := by
    rcases or_assoc.mpr hstate with hstate | hstate
    · exact ⟨(kind_cases hvalid.type hstate).2.2, (kind_cases hvalid.type hstate).1⟩
    · have htype := hvalid.type
      rw [hstate] at htype ⊢
      have htype : jp.type = -1 := htype
      rw [htype]
      decide
  have hkey : ¬ KeyWaits jp.state jp.type (jp.stack.head? = some .MODE_OBJECT) := by
    rintro (h | ⟨h, -⟩)
    · exact hstring.1 h
    · rw [hhead] at h
      cases of_decide_eq_true h
  rw [emitted, pending, if_congr (and_congr_left' hstring.2) rfl rfl, if_neg hkey,
    if_congr (and_iff_left (Or.inl hhead)) rfl rfl, ← strings_current options]
  by_cases htype : jp.type = -1
  · have hnot : jp.type ≠ IS_STRING := by
      rw [htype]
      decide
    rw [if_neg fun h => h htype, strings_current, if_neg hnot]
    exact List.append_nil _
  · rw [if_pos htype, decoded_concat]
    rfl

theorem emitted_waiting (hstate : jp.state ≠ .CO ∧ jp.state ≠ .OK) :
    emitted jp = decoded jp.calls ++
      if jp.stack.head? = some .MODE_OBJECT then [jp.key] else [] := by
  have hwaits : KeyWaits jp.state jp.type (jp.stack.head? = some .MODE_OBJECT) ↔
      jp.stack.head? = some .MODE_OBJECT := by
    constructor
    · rintro (h | ⟨h, -⟩)
      · exact absurd h hstate.1
      · exact of_decide_eq_true h
    · exact fun h => Or.inr ⟨decide_eq_true h, Or.inl hstate.2⟩
  have hnone : ¬ ((jp.type = IS_STRING ∧ jp.state = .OK) ∧
      (jp.stack.head? = some .MODE_ARRAY ∨ jp.stack.head? = some .MODE_OBJECT)) :=
    fun h => hstate.2 h.1.2
  rw [emitted, pending, if_neg hnone, if_congr hwaits rfl rfl, List.append_nil]

theorem emitted_of_type (htype : jp.type = -1) :
    emitted jp = decoded jp.calls ++
      if KeyWaits jp.state (-1) (jp.stack.head? = some .MODE_OBJECT) then [jp.key] else [] := by
  have hstring : jp.type ≠ IS_STRING := by
    rw [htype]
    decide
  have hnone : ¬ ((jp.type = IS_STRING ∧ jp.state = .OK) ∧
      (jp.stack.head? = some .MODE_ARRAY ∨ jp.stack.head? = some .MODE_OBJECT)) :=
    fun h => hstring h.1.1
  rw [emitted, pending, if_neg hnone, htype, List.append_nil]

theorem emitted_reset (htype : jp.type = -1) (hstate : jp.state ≠ .CO)
    (hhead : jp.stack.head? = some .MODE_OBJECT → jp.state = .OK) :
    emitted jp = decoded jp.calls := by
  have hkey : ¬ KeyWaits jp.state (-1) (jp.stack.head? = some .MODE_OBJECT) := by
    rintro (h | ⟨h, h' | h'⟩)
    · exact hstate h
    · exact h' (hhead (of_decide_eq_true h))
    · exact h' rfl
  rw [emitted_of_type htype, if_neg hkey, List.append_nil]

theorem stays_reset (hbottom : jp'.stack.getLast? = some .MODE_DONE)
    (hdepth : jp'.stack.length ≤ max 1 jp'.depth) (htype : jp'.type = -1)
    (hstate : jp'.state = .OK ∨ (jp'.state.kind = .start ∧ jp'.state ≠ .CO ∧ jp'.buf = [] ∧
      jp'.stack.head? ≠ some .MODE_OBJECT))
    (hcalls : emitted jp = decoded jp'.calls) : Stays jp jp' := by
  rcases hstate with hdone | ⟨hkind, hco, hbuf, hhead⟩
  · refine ⟨⟨hbottom, hdepth, ?_, ?_⟩, ?_, ?_⟩
    · rw [hdone, htype]
      decide
    · rw [hdone]
      exact fun h => by cases h
    · rw [hdone]
      exact fun h => by cases h
    · rw [hcalls]
      apply emitted_reset htype _ fun _ => hdone
      rw [hdone]
      exact State.noConfusion
  · refine ⟨⟨hbottom, hdepth, ?_, fun _ => hbuf⟩, ?_, ?_⟩
    · rw [TypeAllowed, hkind]
      exact htype
    · rw [hkind]
      exact Kind.noConfusion
    · rw [hcalls]
      exact emitted_reset htype hco fun h => absurd h hhead

theorem close_stays {jp₁ : Parser} (hvalid : Valid jp) (hstack : jp₁.stack = jp.stack)
    (hdepth : jp₁.depth = jp.depth) (hmode : mode ≠ .MODE_DONE)
    (h : (pop jp₁ mode >>= fun jp => .ok { jp with state := .OK }) = .ok jp')
    (htype : jp.stack.head? = some mode → jp₁.type = -1)
    (hcalls : jp.stack.head? = some mode → emitted jp = decoded jp₁.calls) : Stays jp jp' := by
  obtain ⟨popped, hpop, hok⟩ := bind_eq_ok h
  cases hok
  obtain ⟨rest, hrest, rfl⟩ := pop_eq_ok hpop
  have hbottom := hvalid.bottom
  have hlength := hvalid.depth
  rw [hstack] at hrest
  rw [hrest] at hbottom hlength htype hcalls
  rw [List.length_cons, ← hdepth] at hlength
  obtain ⟨hbottom, -⟩ := bottom_tail hbottom hmode
  exact stays_reset hbottom (Nat.le_of_succ_le hlength) (htype rfl) (Or.inl rfl) (hcalls rfl)

theorem act_empty_object (hvalid : Valid jp) (hstate : jp.state = .OB)
    (h : act options jp 9 = .ok jp') : Stays jp jp' := by
  have htype := hvalid.type
  rw [hstate] at htype
  have htype : jp.type = -1 := htype
  apply close_stays hvalid rfl rfl Mode.noConfusion h (fun _ => htype)
  intro hhead
  apply emitted_reset htype
  · rw [hstate]
    exact State.noConfusion
  · intro hobject
    rw [hhead] at hobject
    cases hobject

theorem act_object_end (hvalid : Valid jp) (hstate : jp.state.kind = .number ∨ jp.state = .OK)
    (h : act options jp 8 = .ok jp') : Stays jp jp' := by
  apply close_stays hvalid _ _ Mode.noConfusion h
  · intro hhead
    split_ifs with hvalue
    · rfl
    · by_contra htype
      exact hvalue ⟨htype, hhead⟩
  · intro hhead
    rw [emitted_object hvalid hstate hhead (top jp) (entryName options jp.key),
      if_congr (and_iff_left hhead) rfl rfl]
    split_ifs <;> rfl
  · split_ifs <;> rfl
  · split_ifs <;> rfl

theorem act_array_end (hvalid : Valid jp)
    (hstate : jp.state.kind = .number ∨ jp.state = .OK ∨ jp.state = .AR)
    (h : act options jp 7 = .ok jp') : Stays jp jp' := by
  apply close_stays hvalid _ _ Mode.noConfusion h
  · intro hhead
    split_ifs with hvalue
    · rfl
    · by_contra htype
      exact hvalue ⟨htype, hhead⟩
  · intro hhead
    rw [emitted_array hvalid hstate hhead (top jp), if_congr (and_iff_left hhead) rfl rfl]
    split_ifs <;> rfl
  · split_ifs <;> rfl
  · split_ifs <;> rfl

/-! ## A comma, a colon -/

theorem act_comma (hvalid : Valid jp) (hstate : jp.state.kind = .number ∨ jp.state = .OK)
    (h : act options jp 3 = .ok jp') : Stays jp jp' := by
  cases hstack : jp.stack with
  | nil =>
    have hbottom := hvalid.bottom
    rw [hstack] at hbottom
    cases hbottom
  | cons mode rest =>
  have hbottom := hvalid.bottom
  have hlength := hvalid.depth
  rw [hstack] at hbottom hlength
  rw [List.length_cons] at hlength
  have hhead : jp.stack.head? = some mode := by
    rw [hstack]
    rfl
  rw [act, hhead] at h
  cases mode with
  | MODE_OBJECT =>
    obtain ⟨hrest, hnonempty⟩ := bottom_tail hbottom Mode.noConfusion
    have hmoved : (do push (← pop jp .MODE_OBJECT) .MODE_KEY) =
        .ok { jp with stack := .MODE_KEY :: rest } := by
      have hroom : ¬ jp.depth ≤ rest.length := by omega
      rw [pop, if_pos hhead, hstack]
      exact if_neg hroom
    rw [hmoved] at h
    have hcalls := @emitted_object options jp hvalid hstate hhead rest.length
      (entryName options jp.key)
    have hkey : some Mode.MODE_KEY ≠ some .MODE_OBJECT := by decide
    by_cases htype : jp.type ≠ -1
    · rw [if_pos htype] at hcalls
      simp only [if_pos htype] at h
      cases h
      exact stays_reset (bottom_cons hrest) hlength rfl
        (Or.inr ⟨rfl, State.noConfusion, rfl, hkey⟩) hcalls
    · rw [if_neg htype] at hcalls
      simp only [if_neg htype] at h
      cases h
      exact stays_reset (bottom_cons hrest) hlength rfl
        (Or.inr ⟨rfl, State.noConfusion, rfl, hkey⟩) hcalls
  | MODE_ARRAY =>
    have hcalls := @emitted_array options jp hvalid (or_assoc.mp (Or.inl hstate)) hhead (top jp)
    have harray : jp.stack.head? ≠ some .MODE_OBJECT := by
      rw [hhead]
      decide
    by_cases htype : jp.type ≠ -1
    · rw [if_pos htype] at hcalls
      simp only [if_pos htype] at h
      cases h
      exact stays_reset hvalid.bottom hvalid.depth rfl
        (Or.inr ⟨rfl, State.noConfusion, rfl, harray⟩) hcalls
    · rw [if_neg htype] at hcalls
      simp only [if_neg htype] at h
      cases h
      exact stays_reset hvalid.bottom hvalid.depth rfl
        (Or.inr ⟨rfl, State.noConfusion, rfl, harray⟩) hcalls
  | MODE_KEY => cases h
  | MODE_DONE => cases h

theorem act_colon (hvalid : Valid jp) (hstate : jp.state = .CO)
    (h : act options jp 2 = .ok jp') : Stays jp jp' := by
  have hempty := hvalid.empty
  have htype := hvalid.type
  rw [hstate] at hempty htype
  have htype : jp.type = -1 := htype
  rw [act] at h
  split at h
  · next moved hmoved =>
    obtain ⟨popped, hpop, hpush⟩ := bind_eq_ok hmoved
    obtain ⟨rest, hstack, rfl⟩ := pop_eq_ok hpop
    obtain ⟨hroom, rfl⟩ := push_eq_ok hpush
    cases h
    have hbottom := hvalid.bottom
    rw [hstack] at hbottom
    refine ⟨⟨bottom_cons (bottom_tail hbottom Mode.noConfusion).1, ?_, htype, fun _ => hempty rfl⟩,
      Kind.noConfusion, ?_⟩
    · exact Nat.le_trans hroom (Nat.le_max_right 1 _)
    · have hbefore : KeyWaits jp.state (-1) (jp.stack.head? = some .MODE_OBJECT) := Or.inl hstate
      have hbehind : KeyWaits .VA (-1) true := Or.inr ⟨rfl, Or.inl State.noConfusion⟩
      rw [emitted_of_type htype, if_pos hbefore]
      refine Eq.trans (emitted_of_type ?_) (congrArg (decoded jp.calls ++ ·) (if_pos hbehind))
      exact htype
  · cases h

/-! ## An opening bracket or brace -/

theorem attachZval_spec (options : Options) (jp : Parser) :
    ∃ key calls, attachZval options jp = { jp with key := key, calls := calls } ∧
      decoded calls = decoded jp.calls ++
        if jp.stack.tail.head? = some .MODE_OBJECT then [jp.key] else [] := by
  rw [attachZval]
  split
  · next hhead =>
    refine ⟨jp.key, _, rfl, ?_⟩
    rw [decoded_concat, hhead, if_neg (by decide)]
    rfl
  · next hhead =>
    refine ⟨[], _, rfl, ?_⟩
    rw [decoded_concat, hhead, if_pos rfl]
    rfl
  · next hobject =>
    refine ⟨jp.key, jp.calls, rfl, ?_⟩
    rw [if_neg hobject, List.append_nil]

theorem openContainer_spec {stack : List Mode} (hstack : jp.stack = mode :: stack)
    (hbottom : stack.getLast? = some .MODE_DONE) (isObject : Bool) :
    ∃ key calls, openContainer options jp isObject =
        { jp with key := key, calls := calls, type := -1 } ∧
      decoded calls = decoded jp.calls ++
        if stack.head? = some .MODE_OBJECT then [jp.key] else [] := by
  have htop : top jp = stack.length := by
    rw [top, hstack]
    rfl
  obtain ⟨started, hstarted⟩ :
      ∃ started : Parser,
        started = { jp with calls := jp.calls ++ [.init (top jp) isObject] } := ⟨_, rfl⟩
  have hinit : decoded started.calls = decoded jp.calls := by
    rw [hstarted, decoded_concat]
    exact List.append_nil _
  cases stack with
  | nil => cases hbottom
  | cons below stack =>
    have hpositive : 0 < top jp := by
      rw [htop]
      exact Nat.zero_lt_succ _
    rw [openContainer, if_pos hpositive]
    rw [← hstarted]
    dsimp only
    have hsame : top started = top jp := by
      rw [hstarted]
      rfl
    by_cases hnested : 1 < top started
    · obtain ⟨key, calls, hattach, hcalls⟩ := attachZval_spec options started
      refine ⟨key, calls, ?_, ?_⟩
      · rw [if_pos hnested, hattach, hstarted]
      · rw [hcalls, hinit, hstarted, hstack]
        rfl
    · refine ⟨jp.key, started.calls, ?_, ?_⟩
      · rw [if_neg hnested, hstarted]
      · have houter : below = .MODE_DONE := by
          rw [hsame, htop, List.length_cons] at hnested
          rw [List.eq_nil_of_length_eq_zero (by omega : stack.length = 0)] at hbottom
          cases hbottom
          rfl
        rw [hinit, houter, List.head?_cons, if_neg (by decide), List.append_nil]

theorem act_open (hvalid : Valid jp) (hstate : jp.state = .GO ∨ jp.state = .VA ∨ jp.state = .AR)
    (hmode : mode ≠ .MODE_OBJECT) (hnext : next = .OB ∨ next = .AR) (isObject : Bool)
    (h : (push jp mode >>= fun jp =>
      .ok (openContainer options { jp with state := next } isObject)) = .ok jp') :
    Stays jp jp' := by
  obtain ⟨pushed, hpush, hok⟩ := bind_eq_ok h
  cases hok
  obtain ⟨hroom, rfl⟩ := push_eq_ok hpush
  obtain ⟨key, calls, heq, hcalls⟩ := @openContainer_spec options
    { jp with stack := mode :: jp.stack, state := next } mode jp.stack rfl hvalid.bottom isObject
  rw [heq]
  have hkind : jp.state.kind = .start ∧ jp.state ≠ .CO ∧ jp.state ≠ .OK := by
    rcases hstate with h | h | h <;> rw [h] <;> decide
  apply stays_reset (bottom_cons hvalid.bottom) (Nat.le_trans hroom (Nat.le_max_right 1 _)) rfl
  · refine Or.inr ⟨?_, ?_, hvalid.empty hkind.1, fun h => hmode (Option.some.inj h)⟩
    · rcases hnext with h | h <;> rw [h] <;> rfl
    · rcases hnext with h | h <;> rw [h] <;> exact State.noConfusion
  · rw [hcalls, emitted_waiting hkind.2]

/-! ## Strings -/

theorem appendString_unit (hstate : jp.state = .ST) :
    appendString jp c .ST = { jp with buf := utf16ToUtf8 jp.buf c } := by
  rw [appendString, hstate, if_pos (by decide), if_pos (by decide)]

theorem appendString_escape (hstate : jp.state = .ES) :
    appendString jp c .ST = { jp with buf := utf16ToUtf8 jp.buf (unescape c) } := by
  rw [appendString, hstate, if_pos (by decide), if_neg (by decide), unescape]
  split_ifs <;> rfl

theorem appendString_same (hnext : next = .ES ∨ next = .U1) : appendString jp c next = jp := by
  rcases hnext with rfl | rfl <;> rfl

theorem sim_string (hvalid : Valid jp) (hstack : jp'.stack = jp.stack)
    (hdepth : jp'.depth = jp.depth) (htype : jp'.type = IS_STRING)
    (hkind : jp'.state.kind = .string) (hholds : Holds jp'.buf units)
    (hescape : IsEscape jp'.state jp'.utf16 escape) : Sim jp' (some units) escape := by
  refine ⟨⟨?_, ?_, ?_, ?_⟩, ?_, ?_⟩
  · rw [hstack]
    exact hvalid.bottom
  · rw [hstack, hdepth]
    exact hvalid.depth
  · rw [TypeAllowed, hkind]
    exact htype
  · intro hstart
    rw [hkind] at hstart
    cases hstart
  · exact fun hnot => absurd hkind hnot
  · exact fun _ => ⟨units, rfl, hholds, hescape⟩

theorem inside_step (hsim : Sim jp literal escape) (hkind : jp.state.kind = .string)
    (hc : c < 65536) (hclass : classOf c = .ok nextClass)
    (hnext : stateTransitionTable jp.state nextClass = .goto next) :
    ∃ units escape', Sim (changeState jp c nextClass next) (some units) escape' ∧
      ∀ rest, literalsFrom (some units) (escape' ++ rest) =
        literalsFrom literal (escape ++ c :: rest) := by
  obtain ⟨units, rfl, hholds, hescape⟩ := hsim.inside hkind
  obtain ⟨hquote, hbacks, hlowU, hhex⟩ := classOf_spec hclass
  have hstep : StepsInside jp.state nextClass next :=
    steps_inside_table jp.state (State.mem_all _) hkind nextClass (Class.mem_all _) next
      (by rw [hnext]; rfl)
  have hvalid := hsim.valid
  have htype := hvalid.type
  rw [TypeAllowed, hkind] at htype
  have htype : jp.type = IS_STRING := htype
  have hchange : changeState jp c nextClass next =
      { appendString jp c next with state := next } := by
    rw [changeState, if_pos htype]
  rw [hchange]
  cases hstate : jp.state with
  | ST =>
    rw [hstate] at hstep hescape
    have hescape : escape = [] := hescape
    subst hescape
    rcases hstep with ⟨hcls, rfl⟩ | ⟨hcls, hcls', rfl⟩
    · rw [appendString_same (Or.inl rfl), hbacks.mp hcls]
      exact ⟨units, [92], sim_string hvalid rfl rfl htype rfl hholds rfl, fun rest => rfl⟩
    · rw [appendString_unit hstate]
      refine ⟨units ++ [c], [],
        sim_string hvalid rfl rfl htype rfl (hholds.append hc) rfl, fun rest => ?_⟩
      exact (literalsFrom_unit (mt hquote.mpr hcls') (mt hbacks.mpr hcls)).symm
  | ES =>
    rw [hstate] at hstep hescape
    have hescape : escape = [92] := hescape
    subst hescape
    rcases hstep with ⟨hcls, rfl⟩ | ⟨hcls, rfl⟩
    · rw [appendString_same (Or.inr rfl), hlowU.mp hcls]
      exact ⟨units, [92, 117], sim_string hvalid rfl rfl htype rfl hholds rfl, fun rest => rfl⟩
    · have hunit : unescape c < 65536 := by
        rw [unescape]
        split_ifs <;> omega
      rw [appendString_escape hstate]
      refine ⟨units ++ [unescape c], [],
        sim_string hvalid rfl rfl htype rfl (hholds.append hunit) rfl, fun rest => ?_⟩
      exact (literalsFrom_escape (mt hlowU.mpr hcls)).symm
  | U1 =>
    rw [hstate] at hstep hescape
    have hescape : escape = [92, 117] := hescape
    subst hescape
    obtain ⟨hcls, rfl⟩ := hstep
    have hutf16 : (dehexchar c * 4096 % 65536).toNat = hexDigit c * 4096 := by
      have hdigit := hexDigit_lt c
      rw [dehexchar_eq (hhex hcls)]
      omega
    refine ⟨units, [92, 117, c], ?_, fun rest => rfl⟩
    exact sim_string hvalid rfl rfl htype rfl hholds ⟨c, rfl, hutf16⟩
  | U2 =>
    rw [hstate] at hstep hescape
    obtain ⟨x, rfl, hbefore⟩ := hescape
    obtain ⟨hcls, rfl⟩ := hstep
    have hutf16 : ((jp.utf16 + dehexchar c * 256) % 65536).toNat =
        hexDigit x * 4096 + hexDigit c * 256 := by
      have hx := hexDigit_lt x
      have hdigit := hexDigit_lt c
      rw [dehexchar_eq (hhex hcls), hbefore]
      omega
    refine ⟨units, [92, 117, x, c], ?_, fun rest => rfl⟩
    exact sim_string hvalid rfl rfl htype rfl hholds ⟨x, c, rfl, hutf16⟩
  | U3 =>
    rw [hstate] at hstep hescape
    obtain ⟨x, y, rfl, hbefore⟩ := hescape
    obtain ⟨hcls, rfl⟩ := hstep
    have hutf16 : ((jp.utf16 + dehexchar c * 16) % 65536).toNat =
        hexDigit x * 4096 + hexDigit y * 256 + hexDigit c * 16 := by
      have hx := hexDigit_lt x
      have hy := hexDigit_lt y
      have hdigit := hexDigit_lt c
      rw [dehexchar_eq (hhex hcls), hbefore]
      omega
    refine ⟨units, [92, 117, x, y, c], ?_, fun rest => rfl⟩
    exact sim_string hvalid rfl rfl htype rfl hholds ⟨x, y, c, rfl, hutf16⟩
  | U4 =>
    rw [hstate] at hstep hescape
    obtain ⟨x, y, z, rfl, hbefore⟩ := hescape
    obtain ⟨hcls, rfl⟩ := hstep
    have hutf16 : ((jp.utf16 + dehexchar c) % 65536).toNat = hexUnit x y z c := by
      have hunit := hexUnit_lt x y z c
      rw [dehexchar_eq (hhex hcls), hbefore]
      rw [hexUnit] at hunit ⊢
      omega
    have happend : appendString jp c .ST =
        { jp with utf16 := hexUnit x y z c, buf := utf16ToUtf8 jp.buf (hexUnit x y z c) } := by
      rw [← hutf16, appendString, hstate]
      rfl
    rw [happend]
    refine ⟨units ++ [hexUnit x y z c], [], ?_, fun rest => literalsFrom_hex.symm⟩
    exact sim_string hvalid rfl rfl htype rfl (hholds.append (hexUnit_lt x y z c)) rfl
  | _ =>
    rw [hstate] at hkind
    cases hkind

theorem emitted_inside (hkind : jp.state.kind = .string)
    (hkind' : next.kind = .string) :
    emitted (changeState jp c nextClass next) = emitted jp := by
  have hwaiting : ∀ {state : State}, state.kind = .string → state ≠ .CO ∧ state ≠ .OK := by
    intro state hstate
    constructor <;> rintro rfl <;> cases hstate
  obtain ⟨buf, utf16, heq⟩ := changeState_eq jp c nextClass next
  rw [heq, emitted_waiting (hwaiting hkind), emitted_waiting (hwaiting hkind')]

theorem quote_open (hvalid : Valid jp) (hout : jp.state.kind ≠ .string)
    (hnext : stateTransitionTable jp.state .C_QUOTE = .goto next) :
    Sim (changeState jp c .C_QUOTE next) (some []) [] ∧
      emitted (changeState jp c .C_QUOTE next) = emitted jp := by
  obtain ⟨rfl, hkind, hco⟩ := quote_table jp.state (State.mem_all _) hout next (by rw [hnext]; rfl)
  have htype := hvalid.type
  rw [TypeAllowed, hkind] at htype
  have htype : jp.type = -1 := htype
  have hchange : changeState jp c .C_QUOTE .ST = { jp with type := IS_STRING, state := .ST } := by
    rw [changeState, htype, if_neg (by decide), appendOther, htype, if_neg (by decide),
      if_neg (by decide), if_neg (by decide), if_pos (by decide)]
  have hwaiting : jp.state ≠ .CO ∧ jp.state ≠ .OK := by
    refine ⟨hco, fun hok => ?_⟩
    rw [hok] at hkind
    cases hkind
  have hholds : Holds jp.buf [] := by
    rw [hvalid.empty hkind]
    exact Holds.nil
  rw [hchange]
  constructor
  · exact sim_string hvalid rfl rfl rfl rfl hholds rfl
  · rw [emitted_waiting hwaiting]
    exact emitted_waiting ⟨State.noConfusion, State.noConfusion⟩

theorem emitted_string (htype : jp.type = IS_STRING) (hstate : jp.state = .OK) :
    emitted jp = decoded jp.calls ++
      ((if jp.stack.head? = some .MODE_OBJECT then [jp.key] else []) ++
        if jp.stack.head? = some .MODE_ARRAY ∨ jp.stack.head? = some .MODE_OBJECT then [jp.buf]
        else []) := by
  have hwaits : KeyWaits jp.state jp.type (jp.stack.head? = some .MODE_OBJECT) ↔
      jp.stack.head? = some .MODE_OBJECT := by
    have hreset : jp.type ≠ -1 := by
      rw [htype]
      decide
    constructor
    · rintro (h | ⟨h, -⟩)
      · rw [hstate] at h
        cases h
      · exact of_decide_eq_true h
    · exact fun h => Or.inr ⟨decide_eq_true h, Or.inr hreset⟩
  rw [emitted, pending, if_congr hwaits rfl rfl,
    if_congr (and_iff_right (⟨htype, hstate⟩ : _ ∧ _)) rfl rfl]

theorem act_quote (hsim : Sim jp literal escape) (hstate : jp.state = .ST)
    (h : act options jp 4 = .ok jp') :
    Valid jp' ∧ jp'.state.kind ≠ .string ∧ emitted jp' = emitted jp ++ [jp.buf] := by
  have hvalid := hsim.valid
  have htype := hvalid.type
  rw [hstate] at htype
  have htype : jp.type = IS_STRING := htype
  have hwaiting : jp.state ≠ .CO ∧ jp.state ≠ .OK := by
    rw [hstate]
    exact ⟨State.noConfusion, State.noConfusion⟩
  have hallowed : TypeAllowed .OK jp.type := hvalid.type.mem_types
  rw [emitted_waiting hwaiting]
  rw [act] at h
  split at h
  · next hhead =>
    cases h
    refine ⟨⟨hvalid.bottom, hvalid.depth, rfl, fun _ => rfl⟩, Kind.noConfusion, ?_⟩
    rw [hhead, if_neg (by decide), List.append_nil]
    refine (emitted_of_type rfl).trans (congrArg (decoded jp.calls ++ ·) (if_pos ?_))
    exact Or.inl rfl
  · next hhead =>
    cases h
    refine ⟨⟨hvalid.bottom, hvalid.depth, hallowed, fun h => by cases h⟩, Kind.noConfusion, ?_⟩
    refine Eq.trans (emitted_string ?_ rfl) ?_
    · exact htype
    rw [hhead, if_neg (by decide), if_pos (by decide), List.append_nil]
    rfl
  · next hhead =>
    cases h
    refine ⟨⟨hvalid.bottom, hvalid.depth, hallowed, fun h => by cases h⟩, Kind.noConfusion, ?_⟩
    refine Eq.trans (emitted_string ?_ rfl) ?_
    · exact htype
    rw [hhead, if_pos rfl, if_pos (by decide), List.append_assoc]
  · next hhead =>
    rw [if_pos htype] at h
    cases h
    refine ⟨⟨hvalid.bottom, hvalid.depth, hallowed, fun h => by cases h⟩, Kind.noConfusion, ?_⟩
    refine Eq.trans (emitted_string ?_ rfl) ?_
    · exact htype
    rw [hhead, if_neg (by decide), if_neg (by decide), List.append_nil (decoded jp.calls)]
    exact (List.append_nil _).trans (decoded_concat _ _)
  · cases h

/-! ## Runs -/

theorem act_stays (hvalid : Valid jp) (hout : jp.state.kind ≠ .string)
    (hnext : stateTransitionTable jp.state nextClass = .act n) (h : act options jp n = .ok jp') :
    Stays jp jp' ∧ nextClass ≠ .C_QUOTE := by
  obtain ⟨hbound, hacts, hquote⟩ := acts_table jp.state (State.mem_all _) nextClass
    (Class.mem_all _) n (by rw [hnext]; rfl)
  have hst : jp.state ≠ .ST := by
    intro hst
    rw [hst] at hout
    exact hout rfl
  have hclass : n ≠ 1 → n ≠ 4 → nextClass ≠ .C_QUOTE := fun h1 h4 =>
    ((hquote.resolve_left h1).resolve_left h4).1
  interval_cases n
  · cases hacts
  · cases h
  · exact ⟨act_colon hvalid hacts h, hclass (by decide) (by decide)⟩
  · exact ⟨act_comma hvalid hacts h, hclass (by decide) (by decide)⟩
  · exact absurd hacts.1 hst
  · refine ⟨?_, hclass (by decide) (by decide)⟩
    exact act_open hvalid hacts Mode.noConfusion (Or.inr rfl) false h
  · refine ⟨?_, hclass (by decide) (by decide)⟩
    exact act_open hvalid hacts Mode.noConfusion (Or.inl rfl) (¬ options.objectAsArray) h
  · exact ⟨act_array_end hvalid hacts h, hclass (by decide) (by decide)⟩
  · exact ⟨act_object_end hvalid hacts h, hclass (by decide) (by decide)⟩
  · exact ⟨act_empty_object hvalid hacts h, hclass (by decide) (by decide)⟩

theorem Stays.sim (hstays : Stays jp jp') : Sim jp' none [] := by
  refine ⟨hstays.valid, fun _ => ⟨rfl, rfl⟩, fun hkind => absurd hkind hstays.outside⟩

theorem parseChar_inside (hsim : Sim jp literal escape) (hkind : jp.state.kind = .string)
    (hc : c < 65536) (h : parseChar options jp c = .ok jp') :
    ∃ literal' escape', Sim jp' literal' escape' ∧ ∀ rest,
      emitted jp' ++ (literalsFrom literal' (escape' ++ rest)).map out =
        emitted jp ++ (literalsFrom literal (escape ++ c :: rest)).map out := by
  obtain ⟨nextClass, hclass, h⟩ := bind_eq_ok h
  cases hnext : stateTransitionTable jp.state nextClass with
  | goto next =>
    rw [hnext] at h
    cases h
    obtain ⟨units, escape', hsim', hrest⟩ := inside_step hsim hkind hc hclass hnext
    refine ⟨some units, escape', hsim', fun rest => ?_⟩
    have hkind' : next.kind = .string := by
      by_contra hnot
      cases (hsim'.outside hnot).1
    rw [hrest, emitted_inside hkind hkind']
  | act n =>
    rw [hnext] at h
    obtain ⟨-, hacts, hn⟩ := acts_table jp.state (State.mem_all _) nextClass
      (Class.mem_all _) n (by rw [hnext]; rfl)
    rcases hn with rfl | rfl | ⟨-, hout⟩
    · cases h
    · obtain ⟨hst, hquote⟩ : jp.state = .ST ∧ nextClass = .C_QUOTE := hacts
      obtain ⟨units, rfl, hholds, hescape⟩ := hsim.inside hkind
      obtain ⟨hvalid, hout, hemitted⟩ := act_quote hsim hst h
      rw [hst] at hescape
      have hescape : escape = [] := hescape
      refine ⟨none, [], ⟨hvalid, fun _ => ⟨rfl, rfl⟩, fun hin => absurd hin hout⟩, fun rest => ?_⟩
      rw [hemitted, hescape, (classOf_spec hclass).1.mp hquote, List.nil_append, List.nil_append,
        literalsFrom_close, List.map_cons, out, ← hholds.2, List.append_assoc]
      rfl
    · exact absurd hkind hout

theorem parseChar_outside (hsim : Sim jp none []) (hout : jp.state.kind ≠ .string)
    (h : parseChar options jp c = .ok jp') :
    ∃ literal', Sim jp' literal' [] ∧ ∀ rest,
      emitted jp' ++ (literalsFrom literal' rest).map out =
        emitted jp ++ (literalsFrom none (c :: rest)).map out := by
  obtain ⟨nextClass, hclass, h⟩ := bind_eq_ok h
  have hquote := (classOf_spec hclass).1
  have hstep : ∀ {jp'}, Stays jp jp' → nextClass ≠ .C_QUOTE → ∃ literal', Sim jp' literal' [] ∧
      ∀ rest, emitted jp' ++ (literalsFrom literal' rest).map out =
        emitted jp ++ (literalsFrom none (c :: rest)).map out := by
    intro jp' hstays hfree
    refine ⟨none, hstays.sim, fun rest => ?_⟩
    rw [hstays.emitted, literalsFrom_none (mt hquote.mpr hfree)]
  cases hnext : stateTransitionTable jp.state nextClass with
  | goto next =>
    rw [hnext] at h
    cases h
    by_cases hcls : nextClass = .C_QUOTE
    · subst hcls
      obtain ⟨hsim', hemitted⟩ := @quote_open jp c next hsim.valid hout hnext
      refine ⟨some [], hsim', fun rest => ?_⟩
      rw [hemitted, hquote.mp rfl, literalsFrom_open]
    · exact hstep (changeState_stays hsim.valid hout hcls hnext) hcls
  | act n =>
    rw [hnext] at h
    obtain ⟨hstays, hfree⟩ := act_stays hsim.valid hout hnext h
    exact hstep hstays hfree

theorem parseChar_sim (hsim : Sim jp literal escape) (hc : c < 65536)
    (h : parseChar options jp c = .ok jp') :
    ∃ literal' escape', Sim jp' literal' escape' ∧ ∀ rest,
      emitted jp' ++ (literalsFrom literal' (escape' ++ rest)).map out =
        emitted jp ++ (literalsFrom literal (escape ++ c :: rest)).map out := by
  by_cases hkind : jp.state.kind = .string
  · exact parseChar_inside hsim hkind hc h
  · obtain ⟨rfl, rfl⟩ := hsim.outside hkind
    obtain ⟨literal', hsim', hrest⟩ := parseChar_outside hsim hkind h
    exact ⟨literal', [], hsim', hrest⟩

theorem parseLoop_sim (text : List UInt16) (hsim : Sim jp literal escape)
    (h : parseLoop options jp text = .ok jp') :
    ∃ literal' escape', Sim jp' literal' escape' ∧
      emitted jp' ++ (literalsFrom literal' escape').map out =
        emitted jp ++ (literalsFrom literal (escape ++ text.map UInt16.toNat)).map out := by
  induction text generalizing jp literal escape with
  | nil =>
    cases h
    exact ⟨literal, escape, hsim, by rw [List.map_nil, List.append_nil]⟩
  | cons c text ih =>
    obtain ⟨stepped, hchar, hloop⟩ := bind_eq_ok h
    obtain ⟨literal₁, escape₁, hsim₁, hrest⟩ := parseChar_sim hsim c.toNat_lt hchar
    obtain ⟨literal', escape', hsim', hemitted⟩ := ih hsim₁ hloop
    refine ⟨literal', escape', hsim', ?_⟩
    rw [hemitted, hrest, List.map_cons]

theorem newJsonParser_sim (depth : ℕ) : Sim (newJsonParser depth) none [] :=
  ⟨⟨rfl, Nat.le_max_left 1 _, rfl, fun _ => rfl⟩, fun _ => ⟨rfl, rfl⟩, fun h => by cases h⟩

theorem decoded_eq {depth : ℕ} {text : List UInt16} {calls : List Call}
    (h : parseJsonEx options depth text = .ok calls) :
    decoded calls = (literals text).map out := by
  obtain ⟨jp, hloop, hend⟩ := bind_eq_ok h
  obtain ⟨literal, escape, hsim, hemitted⟩ :=
    parseLoop_sim text (newJsonParser_sim depth) hloop
  split at hend
  · next hdone =>
    cases hend
    have hout : jp.state.kind ≠ .string := by
      rw [hdone.1]
      exact Kind.noConfusion
    obtain ⟨rfl, rfl⟩ := hsim.outside hout
    have hkey : ¬ KeyWaits jp.state jp.type (jp.stack.head? = some .MODE_OBJECT) := by
      rw [hdone.1, hdone.2]
      rintro (h | ⟨h, -⟩) <;> cases h
    have hnone : ¬ ((jp.type = IS_STRING ∧ jp.state = .OK) ∧
        (jp.stack.head? = some .MODE_ARRAY ∨ jp.stack.head? = some .MODE_OBJECT)) := by
      rw [hdone.2]
      rintro ⟨-, h | h⟩ <;> cases h
    have hstart : emitted (newJsonParser depth) = [] :=
      emitted_reset rfl State.noConfusion fun h => by cases h
    rw [hstart, emitted, pending, if_neg hkey, if_neg hnone, literalsFrom, List.map_nil,
      List.append_nil, List.append_nil, List.append_nil] at hemitted
    exact hemitted
  · cases hend

theorem literalsFrom_lt (hliteral : ∀ us, literal = some us → ∀ u ∈ us, u < 65536)
    (htext : ∀ c ∈ text, c < 65536) :
    ∀ us ∈ literalsFrom literal text, ∀ u ∈ us, u < 65536 := by
  have hconcat : ∀ {us : List ℕ} {u : ℕ}, (∀ v ∈ us, v < 65536) → u < 65536 →
      ∀ us', some (us ++ [u]) = some us' → ∀ v ∈ us', v < 65536 := by
    intro us u hus hu us' heq
    cases heq
    intro v hv
    rcases List.mem_append.mp hv with hv | hv
    · exact hus v hv
    · rw [List.mem_singleton.mp hv]
      exact hu
  fun_induction literalsFrom literal text with
  | case1 => exact fun us hus => absurd hus List.not_mem_nil
  | case2 rest ih =>
    apply ih
    · intro us heq u hu
      cases heq
      cases hu
    · exact fun c hc => htext c (List.mem_cons_of_mem _ hc)
  | case3 c rest _ ih =>
    exact ih (fun us heq => by cases heq) fun c hc => htext c (List.mem_cons_of_mem _ hc)
  | case4 units rest ih =>
    intro us hus
    rcases List.mem_cons.mp hus with rfl | hus
    · exact hliteral us rfl
    · exact ih (fun us heq => by cases heq)
        (fun c hc => htext c (List.mem_cons_of_mem _ hc)) us hus
  | case5 => exact fun us hus => absurd hus List.not_mem_nil
  | case6 units x y z w rest _ ih =>
    apply ih
    · exact hconcat (hliteral units rfl) (hexUnit_lt x y z w)
    · exact fun c hc => htext c (by simp [hc])
  | case7 => exact fun us hus => absurd hus List.not_mem_nil
  | case8 units e rest _ _ ih =>
    have he : e < 65536 := htext e (by simp)
    apply ih
    · apply hconcat (hliteral units rfl)
      rw [unescape]
      split_ifs <;> omega
    · exact fun c hc => htext c (by simp [hc])
  | case9 units c rest _ _ ih =>
    apply ih
    · exact hconcat (hliteral units rfl) (htext c List.mem_cons_self)
    · exact fun c hc => htext c (List.mem_cons_of_mem _ hc)

theorem literals_lt (text : List UInt16) : ∀ us ∈ literals text, ∀ u ∈ us, u < 65536 := by
  apply literalsFrom_lt
  · intro us heq
    cases heq
  · intro c hc
    obtain ⟨unit, -, rfl⟩ := List.mem_map.mp hc
    exact unit.toNat_lt

/-! ## The decoded strings -/

/-- Every decoded string of an accepted text is UTF-8, and the encoding of the code points of its
literal, when no literal has half of a surrogate pair alone, and only then. -/
theorem parseJsonEx_decodes_iff (options : Options) (depth : ℕ) (text : List UInt16)
    (calls : List Call) (h : parseJsonEx options depth text = .ok calls) :
    DecodesLiterals text calls ↔ ∀ us ∈ literals text, Paired us := by
  have hutf8 : ∀ us ∈ literals text, (IsUtf8 (out us) ∧ out us = encode (codePoints us)) ↔
      Paired us := by
    intro us hus
    have hcps := codePoints_lt (literals_lt text us hus)
    exact (and_iff_left rfl).trans (isUtf8_encode_iff hcps)
  rw [DecodesLiterals, decoded_eq h, List.forall₂_map_right_iff, List.forall₂_same]
  exact forall₂_congr hutf8

/-- `["\ud83d\ude00", "\u00e9"]` -/
theorem parseJsonEx_decodes_pair :
    DecodesLiterals
        [91, 34, 92, 117, 100, 56, 51, 100, 92, 117, 100, 101, 48, 48, 34, 44, 34, 92, 117, 48, 48,
          101, 57, 34, 93]
        [.init 1 false, .addNextIndex 1 (.zval IS_STRING (.string [0xF0, 0x9F, 0x98, 0x80])),
          .addNextIndex 1 (.zval IS_STRING (.string [0xC3, 0xA9]))] ↔
      ∀ us ∈ [[0xD83D, 0xDE00], [0xE9]], Paired us :=
  parseJsonEx_decodes_iff ⟨false, false⟩ 512 _ _ (by decide +kernel)

/-- Half of a surrogate pair is written out as it is: `["\ud800"]`. -/
theorem not_parseJsonEx_decodes :
    ¬ ∀ (options : Options) (depth : ℕ) (chars : List Char) (calls : List Call),
      parseJsonEx options depth (chars.flatMap Lib.Utf16.units) = .ok calls →
        DecodesLiterals (chars.flatMap Lib.Utf16.units) calls := by
  intro hall
  have hdecodes := hall ⟨false, false⟩ 512
    ([91, 34, 92, 117, 100, 56, 48, 48, 34, 93].map Char.ofNat)
    [.init 1 false, .addNextIndex 1 (.zval IS_STRING (.string [0xED, 0xA0, 0x80]))]
    (by decide +kernel)
  have hstrings : List.Forall₂ (fun us bytes => IsUtf8 bytes ∧ bytes = encode (codePoints us))
      [[0xD800]] [[0xED, 0xA0, 0x80]] := hdecodes
  cases hstrings with
  | cons hstring _ =>
    have hutf8 : IsUtf8 (encode [0xD800]) := hstring.1
    have hpaired := (isUtf8_encode_iff (by decide)).mp hutf8
    exact absurd (hpaired 0xD800 List.mem_cons_self) (by decide)

end PhpRuntime.Json
