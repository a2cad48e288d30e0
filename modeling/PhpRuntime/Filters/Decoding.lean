import PhpRuntime.Filters.Dechunk

/-!
# The output of `dechunk`

Every case of the `switch` keeps what `php_dechunk` will have put out in the end: the output so
far and what the machine of the coding puts out for the bytes ahead.
-/

set_option autoImplicit false

namespace PhpRuntime.Filters

open PhpRuntime.Lib
open PhpRuntime.Lib.Chunked (State)
open PhpRuntime.Lib.Chunked.State
open ChunkState

/-! ### The data and the machine -/

namespace ChunkedFilterData

def coding (data : ChunkedFilterData) : State :=
  match data.state with
  | CHUNK_SIZE_START => sizeStart
  | CHUNK_SIZE => size data.chunk_size
  | CHUNK_SIZE_EXT => extension data.chunk_size
  | CHUNK_SIZE_CR => extension data.chunk_size
  | CHUNK_SIZE_LF => sizeLf data.chunk_size
  | CHUNK_BODY => body data.chunk_size
  | CHUNK_BODY_CR => bodyCr
  | CHUNK_BODY_LF => bodyLf
  | CHUNK_TRAILER => trailer
  | CHUNK_ERROR => error

/-- No buffer ends in `CHUNK_SIZE_CR`, or in a body that is complete. -/
structure WellFormed (data : ChunkedFilterData) : Prop where
  state_ne : data.state ≠ CHUNK_SIZE_CR
  chunk_size_pos : data.state = CHUNK_BODY → 0 < data.chunk_size

theorem wellFormed_create : create.WellFormed := ⟨nofun, nofun⟩

/-- The states in which `chunk_size` is read. In the others it is set before it is read, or not
read any more. -/
def ReadsSize (data : ChunkedFilterData) : Prop :=
  data.state = CHUNK_SIZE ∨ data.state = CHUNK_SIZE_EXT ∨ data.state = CHUNK_SIZE_LF ∨
    data.state = CHUNK_BODY

/-- Data that stand in the same place of the coding differ only in a `chunk_size` that is not
read. -/
theorem eq_of_coding_eq {data other : ChunkedFilterData} (hdata : data.WellFormed)
    (hother : other.WellFormed) (h : data.coding = other.coding) :
    data.state = other.state ∧ (data.ReadsSize → data.chunk_size = other.chunk_size) := by
  obtain ⟨state, chunk_size⟩ := data
  obtain ⟨state', chunk_size'⟩ := other
  have hne := hdata.state_ne
  have hne' := hother.state_ne
  cases state <;> cases state' <;> simp_all [coding, ReadsSize]

end ChunkedFilterData

namespace Dechunk

variable {stop : ℕ} {d : Dechunk} {a a' : State}

def rest (stop : ℕ) (d : Dechunk) : List UInt8 := d.buf.bytes d.p (stop - d.p)

/-- The bytes in front of `out`. -/
def output (d : Dechunk) : List UInt8 := d.buf.bytes 0 d.out

/-- The state and the output in the end, when the machine is in state `a`. -/
def target (stop : ℕ) (a : State) (d : Dechunk) : State × List UInt8 :=
  ((run a (d.rest stop)).1, d.output ++ (run a (d.rest stop)).2)

/-- A call of `memmove` writes in front of what it reads, and reads inside of the buffer. -/
def Behind (stop : ℕ) (move : Memmove) : Prop := move.out ≤ move.p ∧ move.p + move.n ≤ stop

/-- The writes are behind the reads. -/
structure InPlace (stop : ℕ) (d : Dechunk) : Prop where
  out_le : d.out ≤ d.p
  p_le : d.p ≤ stop
  out_len_eq : d.out_len = d.out
  moves : ∀ move ∈ d.moves, Behind stop move

/-- What holds when `php_dechunk` returns. -/
structure Result (stop : ℕ) (goal : State × List UInt8) (d : Dechunk) : Prop where
  coding : d.data.coding = goal.1
  output : d.buf.bytes 0 d.out_len = goal.2
  wellFormed : d.data.WellFormed
  moves : ∀ move ∈ d.moves, Behind stop move

/-- How often the loop can go round: a round reads a byte, or turns to `CHUNK_ERROR`. -/
def rank (stop : ℕ) (d : Dechunk) : ℕ :=
  stop - d.p + if d.data.state = CHUNK_ERROR then 0 else 1

/-- A way out of the `switch` that leads to `goal`. -/
inductive Meets (stop bound : ℕ) (goal : State × List UInt8) : Flow → Prop where
  | again {d : Dechunk} (inPlace : InPlace stop d) (wellFormed : d.data.WellFormed)
      (target_eq : target stop d.data.coding d = goal) (rank_lt : rank stop d < bound) :
      Meets stop bound goal (.again d)
  | done {d : Dechunk} (result : Result stop goal d) : Meets stop bound goal (.done d)

theorem Meets.mono {bound bound' : ℕ} {goal : State × List UInt8} {flow : Flow}
    (h : Meets stop bound goal flow) (hle : bound ≤ bound') : Meets stop bound' goal flow := by
  cases h with
  | again inPlace wellFormed target_eq rank_lt =>
    exact .again inPlace wellFormed target_eq (Nat.lt_of_lt_of_le rank_lt hle)
  | done result => exact .done result

theorem InPlace.next (h : InPlace stop d) (hp : d.p < stop) : InPlace stop d.next where
  out_le := Nat.le_succ_of_le h.out_le
  p_le := hp
  out_len_eq := h.out_len_eq
  moves := h.moves

theorem InPlace.setState (h : InPlace stop d) (state : ChunkState) :
    InPlace stop (d.setState state) where
  out_le := h.out_le
  p_le := h.p_le
  out_len_eq := h.out_len_eq
  moves := h.moves

theorem target_setState (state : ChunkState) :
    target stop a (d.setState state) = target stop a d := rfl

theorem rest_eq_cons (hp : d.p < stop) : d.rest stop = d.byte :: d.next.rest stop := by
  have hsucc : stop - d.p = stop - (d.p + 1) + 1 := by omega
  rw [rest, hsucc, ByteBuffer.bytes_succ]
  rfl

theorem target_next (hp : d.p < stop) (h : step a d.byte = (a', [])) :
    target stop a d = target stop a' d.next := by
  rw [target, rest_eq_cons hp, run_cons, h]
  rfl

theorem target_error (hp : d.p < stop) (h : step a d.byte = (error, [d.byte])) :
    target stop a d = target stop error d := by
  rw [target, target, rest_eq_cons hp, run_cons, run_cons, h]
  rfl

theorem target_congr (hp : d.p < stop) (h : step a d.byte = step a' d.byte) :
    target stop a d = target stop a' d := by
  rw [target, target, rest_eq_cons hp, run_cons, run_cons, h]

theorem target_stop (hp : d.p = stop) : target stop a d = (a, d.output) := by
  rw [target, rest, hp, Nat.sub_self, ByteBuffer.bytes_zero_right, run_nil, List.append_nil]

theorem result_stop (h : InPlace stop d) (hp : d.p = stop) (hwf : d.data.WellFormed) :
    Result stop (target stop d.data.coding d) d where
  coding := by rw [target_stop hp]
  output := by
    rw [target_stop hp, h.out_len_eq]
    rfl
  wellFormed := hwf
  moves := h.moves

theorem meets_next (h : InPlace stop d) (hp : d.p < stop) {state : ChunkState}
    (hwf : (d.next.setState state).data.WellFormed)
    (hstep : step a d.byte = ((d.next.setState state).data.coding, [])) :
    Meets stop (stop - d.p + 1) (target stop a d) (.again (d.next.setState state)) := by
  refine .again ((h.next hp).setState state) hwf ?_ ?_
  · rw [target_next hp hstep, target_setState]
  · have hlt : stop - (d.p + 1) + 1 < stop - d.p + 1 := by omega
    refine Nat.lt_of_le_of_lt (Nat.add_le_add_left ?_ _) hlt
    split <;> omega

theorem meets_error (h : InPlace stop d) (hp : d.p < stop)
    (hstep : step a d.byte = (error, [d.byte])) :
    Meets stop (stop - d.p + 1) (target stop a d) (.again (d.setState CHUNK_ERROR)) := by
  refine .again (h.setState _) ⟨nofun, nofun⟩ ?_ ?_
  · rw [target_error hp hstep, target_setState]
    rfl
  · exact Nat.lt_succ_self _

theorem meets_stop (h : InPlace stop d) (hp : d.p + 1 = stop) {state : ChunkState} {bound : ℕ}
    (hwf : (d.next.setState state).data.WellFormed)
    (hstep : step a d.byte = ((d.next.setState state).data.coding, [])) :
    Meets stop bound (target stop a d) (.done (d.next.setState state)) := by
  have hlt : d.p < stop := by omega
  have hresult := result_stop ((h.next hlt).setState state) hp hwf
  rw [target_setState, ← target_next hlt hstep] at hresult
  exact .done hresult

/-- Of the states a buffer can end in, only `CHUNK_BODY` says something of `chunk_size`. -/
theorem wellFormed_setState (d : Dechunk) {state : ChunkState} (hne : state ≠ CHUNK_SIZE_CR)
    (hpos : state = CHUNK_BODY → 0 < d.data.chunk_size) : (d.setState state).data.WellFormed :=
  ⟨hne, hpos⟩

/-! ### Moving bytes to the front -/

@[simp] theorem move_p (n : ℕ) : (d.move n).p = d.p := by
  unfold move
  split <;> rfl

@[simp] theorem move_data (n : ℕ) : (d.move n).data = d.data := by
  unfold move
  split <;> rfl

theorem moves_move (h : InPlace stop d) {n : ℕ} (hn : d.p + n ≤ stop) :
    ∀ move ∈ (d.move n).moves, Behind stop move := by
  unfold move
  split
  · exact h.moves
  · intro move hmove
    rcases List.mem_cons.1 hmove with rfl | hmove
    · exact ⟨h.out_le, hn⟩
    · exact h.moves move hmove

theorem bytes_move (n : ℕ) :
    (d.move n).buf.bytes 0 (d.out + n) = d.output ++ d.buf.bytes d.p n := by
  unfold move
  split
  · rename_i heq
    rw [ByteBuffer.bytes_add, Nat.zero_add, ← heq]
    rw [output, ← heq]
  · rw [ByteBuffer.bytes_add, Nat.zero_add, ByteBuffer.bytes_copy_of_le _ _ (by omega),
      ByteBuffer.bytes_copy_self _ _ _ (by simp), List.take_of_length_le (by simp)]
    rfl

theorem bytes_move_ahead (h : d.out ≤ d.p) (n m : ℕ) :
    (d.move n).buf.bytes (d.p + n) m = d.buf.bytes (d.p + n) m := by
  unfold move
  split
  · rfl
  · exact ByteBuffer.bytes_copy_of_ge _ _ (by rw [ByteBuffer.length_bytes]; omega)

/-! ### The cases -/

theorem caseError_meets (h : InPlace stop d) (hstate : d.data.state = CHUNK_ERROR) (bound : ℕ) :
    Meets stop bound (target stop error d) (caseError stop d) := by
  have hle := h.p_le
  have hcoding : d.data.coding = error := by
    rw [ChunkedFilterData.coding, hstate]
  refine .done ⟨?_, ?_, ?_, moves_move h (by omega)⟩
  · rw [target, run_error]
    exact (congrArg ChunkedFilterData.coding (move_data _)).trans hcoding
  · rw [target, run_error]
    change (d.move (stop - d.p)).buf.bytes 0 (d.out_len + (stop - d.p)) = _
    rw [h.out_len_eq, bytes_move]
    rfl
  · change (d.move (stop - d.p)).data.WellFormed
    rw [move_data]
    exact ⟨by rw [hstate]; nofun, by rw [hstate]; nofun⟩

theorem caseTrailer_meets (h : InPlace stop d) (hp : d.p < stop)
    (hstate : d.data.state = CHUNK_TRAILER) :
    Meets stop (stop - d.p + 1) (target stop trailer d) (caseTrailer stop d) := by
  have hcoding : d.data.coding = trailer := by
    rw [ChunkedFilterData.coding, hstate]
  have hout := h.out_le
  refine .again ⟨by dsimp only; omega, Nat.le_refl _, h.out_len_eq, h.moves⟩
    ⟨by rw [hstate]; nofun, by rw [hstate]; nofun⟩ ?_ ?_
  · rw [target_stop (d := { d with p := stop }) rfl, target, run_trailer, List.append_nil]
    exact congrArg (·, d.output) hcoding
  · have hlt : stop - stop + 1 < stop - d.p + 1 := by omega
    refine Nat.lt_of_le_of_lt (Nat.add_le_add_left ?_ _) hlt
    split <;> omega

theorem caseBodyLf_meets (h : InPlace stop d) (hp : d.p < stop) :
    Meets stop (stop - d.p + 1) (target stop bodyLf d) (caseBodyLf d) := by
  unfold caseBodyLf
  split
  · rename_i hlf
    refine meets_next h hp ⟨nofun, nofun⟩ ?_
    rw [hlf]
    rfl
  · rename_i hlf
    refine meets_error h hp ?_
    simp only [step, stepBodyLf]
    rw [if_neg hlf]

theorem caseBodyCr_meets (h : InPlace stop d) (hp : d.p < stop) :
    Meets stop (stop - d.p + 1) (target stop bodyCr d) (caseBodyCr stop d) := by
  unfold caseBodyCr
  split
  · rename_i hcr
    have hstep : step bodyCr d.byte = (bodyLf, []) := by
      rw [hcr]
      rfl
    split
    · rename_i hstop
      exact meets_stop h hstop ⟨nofun, nofun⟩ hstep
    · have hnext : d.next.p < stop := by
        change d.p + 1 < stop
        omega
      rw [target_next hp hstep]
      refine (caseBodyLf_meets (h.next hp) hnext).mono ?_
      change stop - (d.p + 1) + 1 ≤ _
      omega
  · rename_i hcr
    have hstep : step bodyCr d.byte = step bodyLf d.byte := by
      simp only [step]
      rw [if_neg hcr]
    rw [target_congr hp hstep]
    exact caseBodyLf_meets h hp

theorem bodyEnd_inPlace (h : InPlace stop d) (hle : d.data.chunk_size ≤ stop - d.p) :
    InPlace stop d.bodyEnd where
  out_le := Nat.add_le_add_right h.out_le _
  p_le := by
    have hp := h.p_le
    change d.p + d.data.chunk_size ≤ stop
    omega
  out_len_eq := congrArg (· + d.data.chunk_size) h.out_len_eq
  moves := by
    have hp := h.p_le
    exact moves_move h (by omega)

theorem target_bodyEnd (h : InPlace stop d) (hpos : 0 < d.data.chunk_size)
    (hle : d.data.chunk_size ≤ stop - d.p) :
    target stop (body d.data.chunk_size) d = target stop bodyCr d.bodyEnd := by
  have hsplit : stop - d.p = d.data.chunk_size + (stop - (d.p + d.data.chunk_size)) := by omega
  have hlen : (d.buf.bytes d.p d.data.chunk_size).length = d.data.chunk_size := by simp
  have hne : d.buf.bytes d.p d.data.chunk_size ≠ [] := by
    intro hnil
    rw [hnil] at hlen
    exact absurd hlen.symm (Nat.ne_of_gt hpos)
  have hrest : d.bodyEnd.rest stop =
      d.buf.bytes (d.p + d.data.chunk_size) (stop - (d.p + d.data.chunk_size)) :=
    bytes_move_ahead h.out_le _ _
  have hout : d.bodyEnd.output = d.output ++ d.buf.bytes d.p d.data.chunk_size := bytes_move _
  rw [target, target, hrest, hout, rest, hsplit, ByteBuffer.bytes_add, run_append,
    run_body hne hlen, List.append_assoc]

theorem bodyPart_result (h : InPlace stop d) (hlt : stop - d.p < d.data.chunk_size) :
    Result stop (target stop (body d.data.chunk_size) d) (d.bodyPart stop) := by
  have hp := h.p_le
  have hlen : (d.rest stop).length = stop - d.p := by simp [rest]
  have hrun : run (body d.data.chunk_size) (d.rest stop) =
      (body (d.data.chunk_size - (stop - d.p)), d.rest stop) := by
    rw [run_body_lt (by rw [hlen]; exact hlt), hlen]
  refine ⟨?_, ?_, ⟨nofun, fun _ => Nat.sub_pos_of_lt hlt⟩, moves_move h (by omega)⟩
  · rw [target, hrun]
    rfl
  · rw [target, hrun]
    change (d.move (stop - d.p)).buf.bytes 0 (d.out_len + (stop - d.p)) = _
    rw [h.out_len_eq, bytes_move]
    rfl

theorem caseBody_meets (h : InPlace stop d) (hpos : 0 < d.data.chunk_size) :
    Meets stop (stop - d.p + 1) (target stop (body d.data.chunk_size) d) (caseBody stop d) := by
  have hp := h.p_le
  unfold caseBody
  split
  · rename_i hle
    have hend := bodyEnd_inPlace h hle
    rw [target_bodyEnd h hpos hle]
    split
    · rename_i hstop
      exact .done (result_stop (hend.setState CHUNK_BODY_CR) hstop ⟨nofun, nofun⟩)
    · have hlt : d.bodyEnd.p < stop := by
        change d.p + d.data.chunk_size < stop
        omega
      refine (caseBodyCr_meets hend hlt).mono ?_
      change stop - (d.p + d.data.chunk_size) + 1 ≤ _
      omega
  · exact .done (bodyPart_result h (by omega))

theorem caseSizeLf_meets (h : InPlace stop d) (hp : d.p < stop) :
    Meets stop (stop - d.p + 1) (target stop (sizeLf d.data.chunk_size) d)
      (caseSizeLf stop d) := by
  unfold caseSizeLf
  split
  · rename_i hlf
    have hstep : step (sizeLf d.data.chunk_size) d.byte = (afterSize d.data.chunk_size, []) := by
      rw [hlf]
      rfl
    split
    · rename_i hzero
      rw [afterSize, if_pos hzero] at hstep
      exact meets_next h hp
        (wellFormed_setState _ (by decide) fun hbody => absurd hbody (by decide)) hstep
    · rename_i hzero
      rw [afterSize, if_neg hzero] at hstep
      have hpos := Nat.pos_of_ne_zero hzero
      split
      · rename_i hstop
        exact meets_stop h hstop (wellFormed_setState _ (by decide) fun _ => hpos) hstep
      · rw [target_next hp hstep]
        refine (caseBody_meets (h.next hp) hpos).mono ?_
        change stop - (d.p + 1) + 1 ≤ _
        omega
  · rename_i hlf
    refine meets_error h hp ?_
    simp only [step, stepLf]
    rw [if_neg hlf]

theorem caseSizeCr_meets (h : InPlace stop d) (hp : d.p < stop)
    (hend : d.byte = Chunked.cr ∨ d.byte = Chunked.lf) :
    Meets stop (stop - d.p + 1) (target stop (extension d.data.chunk_size) d)
      (caseSizeCr stop d) := by
  unfold caseSizeCr
  split
  · rename_i hcr
    have hstep : step (extension d.data.chunk_size) d.byte = (sizeLf d.data.chunk_size, []) := by
      rw [hcr]
      rfl
    split
    · rename_i hstop
      exact meets_stop h hstop ⟨nofun, nofun⟩ hstep
    · have hnext : d.next.p < stop := by
        change d.p + 1 < stop
        omega
      rw [target_next hp hstep]
      refine (caseSizeLf_meets (h.next hp) hnext).mono ?_
      change stop - (d.p + 1) + 1 ≤ _
      omega
  · rename_i hcr
    have hlf := hend.resolve_left hcr
    have hstep : step (extension d.data.chunk_size) d.byte =
        step (sizeLf d.data.chunk_size) d.byte := by
      rw [hlf]
      rfl
    rw [target_congr hp hstep]
    exact caseSizeLf_meets h hp

theorem extLoop_spec (k : ℕ) (d : Dechunk) (h : InPlace stop d) (hk : k = stop - d.p) :
    InPlace stop (extLoop k d) ∧ (extLoop k d).data = d.data ∧ d.p ≤ (extLoop k d).p ∧
      ((extLoop k d).p ≠ stop →
        (extLoop k d).byte = Chunked.cr ∨ (extLoop k d).byte = Chunked.lf) ∧
      ∀ n, target stop (extension n) d = target stop (extension n) (extLoop k d) := by
  induction k generalizing d with
  | zero =>
    have hp := h.p_le
    refine ⟨h, rfl, Nat.le_refl _, fun hne => ?_, fun n => rfl⟩
    exact absurd (by change d.p = stop; omega) hne
  | succ k ih =>
    unfold extLoop
    split
    · rename_i hbyte
      have hp : d.p < stop := by omega
      obtain ⟨hin, hdata, hle, hend, htarget⟩ :=
        ih d.next (h.next hp) (by change k = stop - (d.p + 1); omega)
      refine ⟨hin, hdata, Nat.le_of_succ_le hle, hend, fun n => ?_⟩
      rw [← htarget, target_next hp]
      simp only [step, stepExtension]
      rw [if_neg hbyte.1, if_neg hbyte.2]
    · rename_i hbyte
      refine ⟨h, rfl, Nat.le_refl _, fun _ => ?_, fun n => rfl⟩
      by_cases hcr : d.byte = Chunked.cr
      · exact .inl hcr
      · exact .inr (Classical.byContradiction fun hlf => hbyte ⟨hcr, hlf⟩)

theorem caseSizeExt_meets (h : InPlace stop d) (hstate : d.data.state = CHUNK_SIZE_EXT) :
    Meets stop (stop - d.p + 1) (target stop (extension d.data.chunk_size) d)
      (caseSizeExt stop d) := by
  obtain ⟨hin, hdata, hle, hend, htarget⟩ := extLoop_spec (stop - d.p) d h rfl
  have hp := hin.p_le
  rw [htarget, ← hdata]
  rw [← hdata] at hstate
  unfold caseSizeExt
  dsimp only
  split
  · rename_i hstop
    have hwf : (extLoop (stop - d.p) d).data.WellFormed :=
      ⟨by rw [hstate]; nofun, by rw [hstate]; nofun⟩
    have hresult := result_stop hin hstop hwf
    rw [ChunkedFilterData.coding, hstate] at hresult
    exact .done hresult
  · rename_i hstop
    refine (caseSizeCr_meets hin (by omega) (hend hstop)).mono (by omega)

theorem sizeLoop_spec (k : ℕ) (d : Dechunk) (h : InPlace stop d) (hk : k = stop - d.p)
    (hstate : d.data.state = CHUNK_SIZE_START ∧ d.data.chunk_size = 0 ∨
      d.data.state = CHUNK_SIZE) :
    InPlace stop (sizeLoop k d) ∧ d.p ≤ (sizeLoop k d).p ∧
      ((sizeLoop k d).data.state = CHUNK_ERROR ∧
          target stop d.data.coding d = target stop error (sizeLoop k d) ∨
        (sizeLoop k d).p = stop ∧ ((sizeLoop k d).data.state = CHUNK_SIZE_START ∨
            (sizeLoop k d).data.state = CHUNK_SIZE) ∧
          target stop d.data.coding d =
            target stop (sizeLoop k d).data.coding (sizeLoop k d) ∨
        (sizeLoop k d).p < stop ∧ (sizeLoop k d).data.state = CHUNK_SIZE_EXT ∧
          target stop d.data.coding d =
            target stop (extension (sizeLoop k d).data.chunk_size) (sizeLoop k d)) := by
  induction k generalizing d with
  | zero =>
    have hp := h.p_le
    refine ⟨h, Nat.le_refl _, .inr (.inl ⟨by change d.p = stop; omega, ?_, rfl⟩)⟩
    rcases hstate with hstate | hstate
    · exact .inl hstate.1
    · exact .inr hstate
  | succ k ih =>
    have hp : d.p < stop := by omega
    unfold sizeLoop
    split
    · rename_i v hv
      obtain ⟨hin, hle, hcases⟩ := ih
        { d with
          p := d.p + 1
          data :=
            { state := CHUNK_SIZE
              chunk_size := (d.data.chunk_size * 16 + v) % Chunked.sizeLimit } }
        ⟨Nat.le_succ_of_le h.out_le, hp, h.out_len_eq, h.moves⟩
        (by dsimp only; omega) (.inr rfl)
      have hstep : step d.data.coding d.byte =
          (size ((d.data.chunk_size * 16 + v) % Chunked.sizeLimit), []) := by
        rcases hstate with ⟨hstate, hzero⟩ | hstate
        · simp [ChunkedFilterData.coding, hstate, step, hv, hzero]
        · simp [ChunkedFilterData.coding, hstate, step, hv]
      rw [target_next hp hstep]
      exact ⟨hin, Nat.le_of_succ_le hle, hcases⟩
    · rename_i hv
      split
      · rename_i hstart
        refine ⟨h.setState _, Nat.le_refl _, .inl ⟨rfl, ?_⟩⟩
        rw [target_setState, target_error hp]
        simp [ChunkedFilterData.coding, hstart, step, hv]
      · rename_i hstart
        have hsize : d.data.state = CHUNK_SIZE := by
          rcases hstate with hstate | hstate
          · exact absurd hstate.1 hstart
          · exact hstate
        refine ⟨h.setState _, Nat.le_refl _, .inr (.inr ⟨hp, rfl, ?_⟩)⟩
        rw [target_setState, target_congr hp]
        simp [ChunkedFilterData.coding, hsize, step, hv, setState]

theorem caseSize_meets (h : InPlace stop d)
    (hstate : d.data.state = CHUNK_SIZE_START ∧ d.data.chunk_size = 0 ∨
      d.data.state = CHUNK_SIZE) :
    Meets stop (stop - d.p + 1) (target stop d.data.coding d) (caseSize stop d) := by
  obtain ⟨hin, hle, hcases⟩ := sizeLoop_spec (stop - d.p) d h rfl hstate
  unfold caseSize
  dsimp only
  rcases hcases with ⟨herror, htarget⟩ | ⟨hstop, hsize, htarget⟩ | ⟨hlt, hext, htarget⟩
  · rw [if_pos herror, htarget]
    refine .again hin ⟨by rw [herror]; nofun, by rw [herror]; nofun⟩ ?_ ?_
    · rw [ChunkedFilterData.coding, herror]
    · rw [rank, if_pos herror]
      omega
  · have hne : (sizeLoop (stop - d.p) d).data.state ≠ CHUNK_ERROR := by
      rcases hsize with hsize | hsize <;> rw [hsize] <;> nofun
    rw [if_neg hne, if_pos hstop, htarget]
    refine .done (result_stop hin hstop ?_)
    rcases hsize with hsize | hsize
    · exact ⟨by rw [hsize]; nofun, by rw [hsize]; nofun⟩
    · exact ⟨by rw [hsize]; nofun, by rw [hsize]; nofun⟩
  · rw [if_neg (by rw [hext]; nofun), if_neg (Nat.ne_of_lt hlt), htarget]
    exact (caseSizeExt_meets hin hext).mono (by omega)

theorem dispatch_meets (h : InPlace stop d) (hp : d.p < stop) (hwf : d.data.WellFormed) :
    Meets stop (rank stop d) (target stop d.data.coding d) (dispatch stop d) := by
  have hrank (hne : d.data.state ≠ CHUNK_ERROR) : rank stop d = stop - d.p + 1 := by
    rw [rank, if_neg hne]
  unfold dispatch
  split
  all_goals rename_i hstate
  · rw [hrank (by rw [hstate]; nofun)]
    have hcoding : d.data.coding = sizeStart := by rw [ChunkedFilterData.coding, hstate]
    have hmeets := caseSize_meets (d := { d with data := { d.data with chunk_size := 0 } })
      ⟨h.out_le, h.p_le, h.out_len_eq, h.moves⟩ (.inl ⟨hstate, rfl⟩)
    have hcoding' : ({ d.data with chunk_size := 0 } : ChunkedFilterData).coding = sizeStart := by
      rw [ChunkedFilterData.coding, hstate]
    rw [hcoding'] at hmeets
    rw [hcoding]
    exact hmeets
  · rw [hrank (by rw [hstate]; nofun)]
    exact caseSize_meets h (.inr hstate)
  · rw [hrank (by rw [hstate]; nofun), ChunkedFilterData.coding, hstate]
    exact caseSizeExt_meets h hstate
  · exact absurd hstate hwf.state_ne
  · rw [hrank (by rw [hstate]; nofun), ChunkedFilterData.coding, hstate]
    exact caseSizeLf_meets h hp
  · rw [hrank (by rw [hstate]; nofun), ChunkedFilterData.coding, hstate]
    exact caseBody_meets h (hwf.chunk_size_pos hstate)
  · rw [hrank (by rw [hstate]; nofun), ChunkedFilterData.coding, hstate]
    exact caseBodyCr_meets h hp
  · rw [hrank (by rw [hstate]; nofun), ChunkedFilterData.coding, hstate]
    exact caseBodyLf_meets h hp
  · rw [hrank (by rw [hstate]; nofun), ChunkedFilterData.coding, hstate]
    exact caseTrailer_meets h hp hstate
  · rw [ChunkedFilterData.coding, hstate]
    exact caseError_meets h hstate _

theorem loop_result (fuel : ℕ) (d : Dechunk) (h : InPlace stop d) (hwf : d.data.WellFormed)
    (hfuel : rank stop d < fuel) :
    ∃ r, loop stop fuel d = some r ∧ Result stop (target stop d.data.coding d) r := by
  induction fuel generalizing d with
  | zero => omega
  | succ fuel ih =>
    unfold loop
    by_cases hp : d.p < stop
    · rw [if_pos hp]
      have hmeets := dispatch_meets h hp hwf
      cases hflow : dispatch stop d with
      | again d' =>
        rw [hflow] at hmeets
        cases hmeets with
        | again inPlace wellFormed target_eq rank_lt =>
          rw [← target_eq]
          exact ih d' inPlace wellFormed (by omega)
      | done d' =>
        rw [hflow] at hmeets
        cases hmeets with
        | done result => exact ⟨d', rfl, result⟩
    · rw [if_neg hp]
      have hle := h.p_le
      exact ⟨d, rfl, result_stop h (by omega) hwf⟩

end Dechunk

/-! ### One buffer -/

/-- `php_dechunk` returns, and puts out what the machine puts out for the bytes of the buffer. -/
theorem php_dechunk_result (bucket : Bucket) {data : ChunkedFilterData} (hwf : data.WellFormed) :
    ∃ d, php_dechunk bucket data = some d ∧
      Dechunk.Result bucket.buflen (run data.coding bucket.content) d := by
  have hin : Dechunk.InPlace bucket.buflen
      { buf := bucket.buf, p := 0, out := 0, out_len := 0, data := data, moves := [] } :=
    ⟨Nat.le_refl _, Nat.zero_le _, rfl, nofun⟩
  obtain ⟨d, hd, hresult⟩ := Dechunk.loop_result (bucket.buflen + 2) _ hin hwf (by
    rw [Dechunk.rank]
    dsimp only
    split <;> omega)
  rw [Dechunk.target, Dechunk.output, ByteBuffer.bytes_zero_right, List.nil_append] at hresult
  exact ⟨d, hd, hresult⟩

/-! ### The filter -/

/-- What holds when the filter has gone through some buckets. -/
structure FilterResult (goal : State × List UInt8) (r : FilterRun) : Prop where
  coding : r.data.coding = goal.1
  output : contents r.buckets_out = goal.2
  wellFormed : r.data.WellFormed
  moves : ∀ move ∈ r.moves, move.out ≤ move.p

theorem php_chunked_filter_result (buckets : List Bucket) {data : ChunkedFilterData}
    (hwf : data.WellFormed) :
    ∃ r, php_chunked_filter data buckets = some r ∧
      FilterResult (run data.coding (contents buckets)) r := by
  induction buckets generalizing data with
  | nil => exact ⟨_, rfl, rfl, rfl, hwf, nofun⟩
  | cons bucket buckets ih =>
    obtain ⟨d, hd, hresult⟩ := php_dechunk_result bucket hwf
    obtain ⟨r, hr, hrest⟩ := ih hresult.wellFormed
    rw [hresult.coding] at hrest
    have hrun : run data.coding (contents (bucket :: buckets)) =
        ((run (run data.coding bucket.content).1 (contents buckets)).1,
          (run data.coding bucket.content).2 ++
            (run (run data.coding bucket.content).1 (contents buckets)).2) :=
      run_append _ _ _
    rw [hrun]
    refine ⟨⟨⟨d.buf, d.out_len⟩ :: r.buckets_out, bucket.buflen + r.consumed, r.data,
      d.moves ++ r.moves⟩, ?_, hrest.coding, ?_, hrest.wellFormed, ?_⟩
    · rw [php_chunked_filter, hd]
      simp only [Option.bind_eq_bind, Option.bind_some, hr]
      rfl
    · rw [contents, List.flatMap_cons, ← hresult.output]
      exact congrArg _ hrest.output
    · intro move hmove
      rcases List.mem_append.1 hmove with hmove | hmove
      · exact (hresult.moves move hmove).1
      · exact hrest.moves move hmove

/-- A chunked body is decoded, and how bytes are split into buckets does not matter. -/
theorem php_chunked_filter_split (buckets : List Bucket) :
    ∃ r, php_chunked_filter .create buckets = some r ∧
      (∀ coding : Chunked.Coding, contents buckets = coding.encode →
        contents r.buckets_out = coding.body ∧ r.data.state = CHUNK_TRAILER) ∧
      (∀ whole : Bucket, whole.content = contents buckets →
        ∃ d, php_dechunk whole .create = some d ∧
          contents r.buckets_out = d.buf.bytes 0 d.out_len ∧
          r.data.state = d.data.state ∧
          (r.data.ReadsSize → r.data.chunk_size = d.data.chunk_size)) ∧
      ∀ move ∈ r.moves, move.out ≤ move.p := by
  obtain ⟨r, hr, hresult⟩ :=
    php_chunked_filter_result buckets ChunkedFilterData.wellFormed_create
  refine ⟨r, hr, ?_, ?_, hresult.moves⟩
  · intro coding hcoding
    have hrun : run ChunkedFilterData.create.coding (contents buckets) =
        (trailer, coding.body) := by
      rw [hcoding]
      exact run_coding coding
    rw [hrun] at hresult
    refine ⟨hresult.output, ?_⟩
    have hwf : (⟨CHUNK_TRAILER, 0⟩ : ChunkedFilterData).WellFormed := ⟨nofun, nofun⟩
    have htrailer : r.data.coding = (⟨CHUNK_TRAILER, 0⟩ : ChunkedFilterData).coding :=
      hresult.coding
    exact (ChunkedFilterData.eq_of_coding_eq hresult.wellFormed hwf htrailer).1
  · intro whole hwhole
    obtain ⟨d, hd, hone⟩ := php_dechunk_result whole ChunkedFilterData.wellFormed_create
    rw [hwhole] at hone
    have hcoding : r.data.coding = d.data.coding := by rw [hresult.coding, hone.coding]
    obtain ⟨hstate, hsize⟩ :=
      ChunkedFilterData.eq_of_coding_eq hresult.wellFormed hone.wellFormed hcoding
    exact ⟨d, hd, by rw [hresult.output, hone.output], hstate, hsize⟩

end PhpRuntime.Filters
