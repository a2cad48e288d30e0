import Mathlib.Data.List.Basic
import Mathlib.Data.List.Induction
import Mathlib.Data.Nat.Notation

/-!
# The chunked transfer coding

What a chunked body looks like, and a machine that decodes it one byte at a time. A machine that
reads bytes one at a time cannot depend on how they are split.
-/

set_option autoImplicit false

namespace PhpRuntime.Lib.Chunked

def hexValue (c : UInt8) : Option ℕ :=
  if 48 ≤ c ∧ c ≤ 57 then some (c.toNat - 48)
  else if 65 ≤ c ∧ c ≤ 70 then some (c.toNat - 65 + 10)
  else if 97 ≤ c ∧ c ≤ 102 then some (c.toNat - 97 + 10)
  else none

/-- `\r` and `\n`. -/
def cr : UInt8 := 13
def lf : UInt8 := 10

def sizeLimit : ℕ := 18446744073709551616

/-! ### The machine -/

/-- Where in a chunked body a decoder is. A number is the size read so far, or what is left of
the body of a chunk. -/
inductive State where
  | sizeStart
  | size (n : ℕ)
  | extension (n : ℕ)
  | sizeLf (n : ℕ)
  | body (n : ℕ)
  | bodyCr
  | bodyLf
  | trailer
  | error
  deriving DecidableEq, Repr

namespace State

def afterSize (n : ℕ) : State := if n = 0 then trailer else body n

def stepLf (n : ℕ) (c : UInt8) : State × List UInt8 :=
  if c = lf then (afterSize n, []) else (error, [c])

def stepExtension (n : ℕ) (c : UInt8) : State × List UInt8 :=
  if c = cr then (sizeLf n, [])
  else if c = lf then (afterSize n, [])
  else (extension n, [])

def stepBodyLf (c : UInt8) : State × List UInt8 :=
  if c = lf then (sizeStart, []) else (error, [c])

/-- One byte: the next state and what is put out. After an error the bytes are put out as they
are. -/
def step : State → UInt8 → State × List UInt8
  | sizeStart, c =>
    match hexValue c with
    | some v => (size (v % sizeLimit), [])
    | none => (error, [c])
  | size n, c =>
    match hexValue c with
    | some v => (size ((n * 16 + v) % sizeLimit), [])
    | none => stepExtension n c
  | extension n, c => stepExtension n c
  | sizeLf n, c => stepLf n c
  | body n, c => (if n ≤ 1 then bodyCr else body (n - 1), [c])
  | bodyCr, c => if c = cr then (bodyLf, []) else stepBodyLf c
  | bodyLf, c => stepBodyLf c
  | trailer, _ => (trailer, [])
  | error, c => (error, [c])

def run : State → List UInt8 → State × List UInt8
  | s, [] => (s, [])
  | s, c :: rest => ((run (step s c).1 rest).1, (step s c).2 ++ (run (step s c).1 rest).2)

alias step_error := step.eq_9

@[simp] theorem run_nil (s : State) : run s [] = (s, []) := rfl

theorem run_cons (s : State) (c : UInt8) (rest : List UInt8) :
    run s (c :: rest) =
      ((run (step s c).1 rest).1, (step s c).2 ++ (run (step s c).1 rest).2) := rfl

theorem run_append (s : State) (a b : List UInt8) :
    run s (a ++ b) = ((run (run s a).1 b).1, (run s a).2 ++ (run (run s a).1 b).2) := by
  induction a generalizing s with
  | nil => rfl
  | cons c a ih =>
    rw [List.cons_append, run_cons, run_cons, ih]
    simp only [List.append_assoc]

theorem run_error (rest : List UInt8) : run error rest = (error, rest) := by
  induction rest with
  | nil => rfl
  | cons c rest ih => simp [run_cons, step_error, ih]

theorem run_trailer (rest : List UInt8) : run trailer rest = (trailer, []) := by
  induction rest with
  | nil => rfl
  | cons c rest ih => simp [run_cons, step, ih]

theorem run_body {n : ℕ} {bytes : List UInt8} (hne : bytes ≠ []) (h : bytes.length = n) :
    run (body n) bytes = (bodyCr, bytes) := by
  induction bytes generalizing n with
  | nil => exact absurd rfl hne
  | cons c rest ih =>
    rw [List.length_cons] at h
    subst h
    by_cases hrest : rest = []
    · subst hrest
      simp [run_cons, step]
    · have hlen : 0 < rest.length := List.length_pos_iff.2 hrest
      have hstep : step (body (rest.length + 1)) c = (body rest.length, [c]) := by
        simp only [step]
        rw [if_neg (by omega), Nat.add_sub_cancel]
      rw [run_cons, hstep, ih hrest rfl]
      rfl

theorem run_body_lt {n : ℕ} {bytes : List UInt8} (h : bytes.length < n) :
    run (body n) bytes = (body (n - bytes.length), bytes) := by
  induction bytes generalizing n with
  | nil => simp
  | cons c rest ih =>
    rw [List.length_cons] at h
    have hstep : step (body n) c = (body (n - 1), [c]) := by
      simp only [step]
      rw [if_neg (by omega)]
    rw [run_cons, hstep, ih (by omega), List.length_cons, Nat.sub_sub, Nat.add_comm 1]
    rfl

end State

/-! ### Chunked bodies -/

def hexNumber (digits : List UInt8) : ℕ :=
  digits.foldl (fun n c => n * 16 + (hexValue c).getD 0) 0

/-- A line end: `\r\n` or `\n`. -/
def IsLineEnd (bytes : List UInt8) : Prop := bytes = [cr, lf] ∨ bytes = [lf]

/-- The line of a size: one to sixteen digits, an extension and a line end. -/
structure SizeLine where
  digits : List UInt8
  extension : List UInt8
  lineEnd : List UInt8
  digits_ne_nil : digits ≠ []
  digits_length : digits.length ≤ 16
  digits_hex : ∀ c ∈ digits, (hexValue c).isSome
  extension_head : ∀ c, extension.head? = some c → hexValue c = none
  extension_free : ∀ c ∈ extension, c ≠ cr ∧ c ≠ lf
  lineEnd_isLineEnd : IsLineEnd lineEnd

namespace SizeLine

def encode (line : SizeLine) : List UInt8 := line.digits ++ line.extension ++ line.lineEnd

def value (line : SizeLine) : ℕ := hexNumber line.digits

end SizeLine

/-- A chunk: its size, a body of that size and a line end. -/
structure Chunk where
  line : SizeLine
  body : List UInt8
  lineEnd : List UInt8
  body_ne_nil : body ≠ []
  body_length : line.value = body.length
  lineEnd_isLineEnd : IsLineEnd lineEnd

def Chunk.encode (chunk : Chunk) : List UInt8 := chunk.line.encode ++ chunk.body ++ chunk.lineEnd

/-- A chunked body: its chunks, a chunk of size zero, and a trailer. -/
structure Coding where
  chunks : List Chunk
  last : SizeLine
  trailer : List UInt8
  last_value : last.value = 0

namespace Coding

def encode (coding : Coding) : List UInt8 :=
  coding.chunks.flatMap Chunk.encode ++ coding.last.encode ++ coding.trailer

def body (coding : Coding) : List UInt8 := coding.chunks.flatMap Chunk.body

end Coding

/-! ### A coding is decoded -/

theorem hexValue_lt {c : UInt8} {v : ℕ} (h : hexValue c = some v) : v < 16 := by
  unfold hexValue at h
  split_ifs at h with h1 h2 h3
  · have hc := UInt8.le_iff_toNat_le.1 h1.2
    have : (57 : UInt8).toNat = 57 := rfl
    obtain rfl := Option.some.inj h
    omega
  · have hc := UInt8.le_iff_toNat_le.1 h2.2
    have : (70 : UInt8).toNat = 70 := rfl
    obtain rfl := Option.some.inj h
    omega
  · have hc := UInt8.le_iff_toNat_le.1 h3.2
    have : (102 : UInt8).toNat = 102 := rfl
    obtain rfl := Option.some.inj h
    omega

theorem hexNumber_concat (digits : List UInt8) (c : UInt8) :
    hexNumber (digits ++ [c]) = hexNumber digits * 16 + (hexValue c).getD 0 := by
  rw [hexNumber, List.foldl_append]
  rfl

theorem hexNumber_lt {digits : List UInt8} (hhex : ∀ c ∈ digits, (hexValue c).isSome)
    (hlen : digits.length ≤ 16) : hexNumber digits < sizeLimit := by
  have hpow : hexNumber digits < 16 ^ digits.length := by
    clear hlen
    induction digits using List.reverseRecOn with
    | nil => exact Nat.one_pos
    | append_singleton digits c ih =>
      obtain ⟨v, hv⟩ := Option.isSome_iff_exists.1 (hhex c (by simp))
      have hlt := hexValue_lt hv
      have hrest := ih fun b hb => hhex b (List.mem_append_left _ hb)
      rw [hexNumber_concat, hv, List.length_append, List.length_singleton, Nat.pow_succ]
      change _ + v < _
      omega
  exact Nat.lt_of_lt_of_le hpow (Nat.pow_le_pow_right (by omega) hlen)

namespace State

theorem run_digits {digits : List UInt8} (hne : digits ≠ [])
    (hhex : ∀ c ∈ digits, (hexValue c).isSome) (hlen : digits.length ≤ 16) :
    run sizeStart digits = (size (hexNumber digits), []) := by
  induction digits using List.reverseRecOn with
  | nil => exact absurd rfl hne
  | append_singleton digits c ih =>
    obtain ⟨v, hv⟩ := Option.isSome_iff_exists.1 (hhex c (by simp))
    have hlt := hexNumber_lt hhex hlen
    rw [hexNumber_concat, hv, Option.getD_some] at hlt
    rw [hexNumber_concat, hv, Option.getD_some]
    by_cases hnil : digits = []
    · subst hnil
      have hzero : hexNumber [] = 0 := rfl
      rw [hzero, Nat.zero_mul, Nat.zero_add] at hlt ⊢
      simp only [List.nil_append, run_cons, run_nil, step, hv, Nat.mod_eq_of_lt hlt,
        List.append_nil]
    · rw [List.length_append, List.length_singleton] at hlen
      rw [run_append, ih hnil (fun b hb => hhex b (List.mem_append_left _ hb)) (by omega)]
      simp only [run_cons, run_nil, step, hv, Nat.mod_eq_of_lt hlt, List.append_nil]

theorem run_extension {n : ℕ} {bytes : List UInt8} (hfree : ∀ c ∈ bytes, c ≠ cr ∧ c ≠ lf) :
    run (extension n) bytes = (extension n, []) := by
  induction bytes with
  | nil => rfl
  | cons c rest ih =>
    obtain ⟨hcr, hlf⟩ := hfree c List.mem_cons_self
    have hrest := ih fun b hb => hfree b (List.mem_cons_of_mem _ hb)
    have hstep : step (extension n) c = (extension n, []) := by
      simp only [step, stepExtension]
      rw [if_neg hcr, if_neg hlf]
    rw [run_cons, hstep, hrest]
    rfl

theorem run_extension_lineEnd {n : ℕ} {lineEnd : List UInt8} (h : IsLineEnd lineEnd) :
    run (extension n) lineEnd = (afterSize n, []) := by
  rcases h with rfl | rfl
  · simp [run_cons, step, stepExtension, stepLf]
  · simp [run_cons, step, stepExtension, cr, lf]

theorem run_body_lineEnd {lineEnd : List UInt8} (h : IsLineEnd lineEnd) :
    run bodyCr lineEnd = (sizeStart, []) := by
  rcases h with rfl | rfl
  · simp [run_cons, step, stepBodyLf]
  · simp [run_cons, step, stepBodyLf, cr, lf]

theorem run_size_of_head {n : ℕ} {bytes : List UInt8} (hne : bytes ≠ [])
    (hhead : ∀ c, bytes.head? = some c → hexValue c = none) :
    run (size n) bytes = run (extension n) bytes := by
  cases bytes with
  | nil => exact absurd rfl hne
  | cons c rest =>
    have hstep : step (size n) c = step (extension n) c := by
      simp only [step, hhead c rfl]
    rw [run_cons, run_cons, hstep]

theorem run_sizeLine (line : SizeLine) :
    run sizeStart line.encode = (afterSize line.value, []) := by
  have hne : line.extension ++ line.lineEnd ≠ [] := by
    rcases line.lineEnd_isLineEnd with h | h <;> simp [h]
  have hhead : ∀ c, (line.extension ++ line.lineEnd).head? = some c → hexValue c = none := by
    intro c hc
    cases hext : line.extension with
    | nil =>
      rw [hext, List.nil_append] at hc
      rcases line.lineEnd_isLineEnd with h | h <;> rw [h] at hc <;> cases hc <;> rfl
    | cons b rest =>
      rw [hext] at hc
      exact line.extension_head c (by rw [hext]; exact hc)
  rw [SizeLine.encode, List.append_assoc, run_append,
    run_digits line.digits_ne_nil line.digits_hex line.digits_length, run_size_of_head hne hhead,
    run_append, run_extension line.extension_free, run_extension_lineEnd line.lineEnd_isLineEnd]
  rfl

theorem run_chunk (chunk : Chunk) : run sizeStart chunk.encode = (sizeStart, chunk.body) := by
  have hpos : chunk.line.value ≠ 0 := by
    rw [chunk.body_length]
    exact fun h => chunk.body_ne_nil (List.eq_nil_of_length_eq_zero h)
  rw [Chunk.encode, run_append, run_append, run_sizeLine, afterSize, if_neg hpos]
  rw [run_body chunk.body_ne_nil chunk.body_length.symm,
    run_body_lineEnd chunk.lineEnd_isLineEnd]
  simp

theorem run_chunks (chunks : List Chunk) :
    run sizeStart (chunks.flatMap Chunk.encode) = (sizeStart, chunks.flatMap Chunk.body) := by
  induction chunks with
  | nil => rfl
  | cons chunk chunks ih =>
    rw [List.flatMap_cons, List.flatMap_cons, run_append, run_chunk, ih]

theorem run_coding (coding : Coding) :
    run sizeStart coding.encode = (trailer, coding.body) := by
  rw [Coding.encode, run_append, run_append, run_chunks, run_sizeLine, coding.last_value,
    afterSize, if_pos rfl, run_trailer, List.append_nil, List.append_nil]
  rfl

end State

end PhpRuntime.Lib.Chunked
