import PhpRuntime.Streams.Lines

/-!
# Runs of a stream

Along any sequence of reads, line reads, record reads, writes and seeks a stream is the file with
a position: `StreamOp.Refines` says what each operation may return there and what becomes of
the file and the position.
-/

set_option autoImplicit false

namespace PhpRuntime.Streams

open PhpRuntime.Lib

variable {σ : Type} {file : ByteFile σ} {s s' : Stream σ}

/-! ## Writing and seeking -/

theorem toInt_pos {n : ℕ} (hpos : 0 < n) (hle : n ≤ 2147483647) : 0 < toInt n := by
  unfold toInt
  rw [Int.bmod_eq_of_le (by omega) (by omega)]
  omega

theorem Synced.setEof (h : Synced file s) (eof : Bool) : Synced file { s with eof := eof } :=
  ⟨h.read_le, h.write_le, h.position_nonneg, h.offset, h.buffered, h.valid⟩

theorem opsSeek_spec (whence : Whence) {offset target : ℤ}
    (htarget : whence.target (file.offset s.abstract) (file.contents s.abstract).length offset =
      target) (hnonneg : 0 ≤ target)
    (hvalid : file.valid (file.contents s.abstract).length target.toNat = true) :
    (opsSeek file s offset whence).1 = 0 ∧
      Synced file (opsSeek file s offset whence).2.invalidate ∧
      cursor file (opsSeek file s offset whence).2.invalidate =
        (cursor file s).seek target.toNat := by
  obtain ⟨hret, hpos, hcontents, hoffset⟩ :=
    file.seek_valid s.abstract offset whence target htarget hvalid hnonneg
  unfold opsSeek
  dsimp only
  generalize file.seek s.abstract offset whence = r at *
  refine ⟨hret, ⟨Nat.le_refl _, Nat.zero_le _, ?_, ?_, ?_, ?_⟩, ?_⟩
  · change 0 ≤ r.2.1
    omega
  · change (file.offset r.2.2 : ℤ) = r.2.1 + ((0 : ℕ) : ℤ)
    omega
  · change (s.readbuf.take 0).drop 0 <+: _
    exact List.nil_prefix
  · change file.valid (file.contents r.2.2).length r.2.1.toNat = true
    rw [hcontents, hpos]
    exact hvalid
  · unfold cursor FileCursor.seek Stream.invalidate
    dsimp only
    rw [hcontents, hpos]

/-- The read buffer is empty, and the offset of the file is the position. -/
structure Drained (file : ByteFile σ) (s : Stream σ) : Prop where
  synced : Synced file s
  empty : s.available = 0

theorem Drained.buffered (h : Drained file s) : s.buffered = [] :=
  List.eq_nil_of_length_eq_zero (h.synced.length_buffered.trans h.empty)

theorem Drained.write (h : Drained file s) (bytes : List UInt8) :
    let r := file.write s.abstract bytes
    let s' := ({ s with abstract := r.2 } : Stream σ).moved bytes.length
    Drained file s' ∧ cursor file s' = (cursor file s).write 0 bytes := by
  intro r s'
  have hnonneg := h.synced.position_nonneg
  have hoff := h.synced.offset
  rw [h.empty] at hoff
  have hoffset : file.offset r.2 = _ := file.write_offset s.abstract bytes
  have hcontents : file.contents r.2 = _ := file.write_contents s.abstract bytes
  have hfile : file.offset s.abstract = s.position.toNat := by omega
  have hnat : (s.position + bytes.length).toNat = s.position.toNat + bytes.length := by omega
  rw [hfile] at hcontents
  refine ⟨⟨⟨h.synced.read_le, h.synced.write_le, ?_, ?_, ?_, ?_⟩, h.empty⟩, ?_⟩
  · change 0 ≤ s.position + bytes.length
    omega
  · change (file.offset r.2 : ℤ) = s.position + bytes.length + s.available
    rw [hoffset, h.empty]
    omega
  · change s.buffered <+: _
    rw [h.buffered]
    exact List.nil_prefix
  · change file.valid (file.contents r.2).length (s.position + bytes.length).toNat = true
    apply file.valid_of_le
    rw [hcontents, length_overwrite, hnat]
    omega
  · change FileCursor.mk (file.contents r.2) (s.position + bytes.length).toNat = _
    rw [hcontents, hnat]
    rfl

/-- One round of the loop of `_php_stream_write_buffer`: a chunk is written whole, and its length is
an `int`. -/
theorem writeLoop_succ (o : Options) (n : ℕ) (s : Stream σ) {buf : List UInt8} (hbuf : buf ≠ []) :
    let chunk := buf.take o.chunk_size
    let rest := writeLoop file o n
      (({ s with abstract := (file.write s.abstract chunk).2 } : Stream σ).moved chunk.length)
      (buf.drop chunk.length)
    writeLoop file o (n + 1) s buf = (chunk.length + rest.1, rest.2) := by
  intro chunk rest
  have hpos := List.length_pos_iff.mpr hbuf
  have hchunk := o.chunk_pos
  have hlen : chunk.length = min o.chunk_size buf.length := List.length_take
  have hlength : (file.write s.abstract chunk).1 = chunk.length := file.write_length s.abstract chunk
  have hint : 0 < toInt (file.write s.abstract chunk).1 := by
    rw [hlength]
    refine toInt_pos (by omega) ?_
    have hle := o.chunk_le
    omega
  rw [writeLoop, if_neg hbuf]
  refine (if_pos hint).trans ?_
  rw [hlength]
  rfl

/-- The loop of `_php_stream_write_buffer` writes everything. -/
theorem writeLoop_spec (o : Options) (n : ℕ) :
    ∀ {s : Stream σ} {buf : List UInt8}, Drained file s → buf.length ≤ n →
      (buf = [] → (cursor file s).position ≤ (cursor file s).contents.length) →
      let r := writeLoop file o n s buf
      r.1 = buf.length ∧ Synced file r.2 ∧ cursor file r.2 = (cursor file s).write 0 buf := by
  have hnil : ∀ {s : Stream σ}, Drained file s →
      (cursor file s).position ≤ (cursor file s).contents.length →
      Synced file s ∧ cursor file s = (cursor file s).write 0 [] :=
    fun h hle => ⟨h.synced, (FileCursor.write_nil 0 _ hle).symm⟩
  induction n with
  | zero =>
    intro s buf h hn hle
    obtain rfl : buf = [] := List.eq_nil_of_length_eq_zero (Nat.le_zero.mp hn)
    exact ⟨rfl, hnil h (hle rfl)⟩
  | succ n ih =>
    intro s buf h hn hle
    by_cases hbuf : buf = []
    · subst hbuf
      have hloop : writeLoop file o (n + 1) s [] = (0, s) := by
        rw [writeLoop, if_pos rfl]
      rw [hloop]
      exact ⟨rfl, hnil h (hle rfl)⟩
    · rw [writeLoop_succ o n s hbuf]
      have hpos := List.length_pos_iff.mpr hbuf
      have hchunk := o.chunk_pos
      obtain ⟨hdrained, hcursor⟩ := h.write (buf.take o.chunk_size)
      generalize (Stream.moved { s with abstract := (file.write s.abstract (buf.take o.chunk_size)).2 }
        (buf.take o.chunk_size).length) = s' at *
      have htake : (buf.take o.chunk_size).length = min o.chunk_size buf.length := List.length_take
      have hsize : (buf.drop (buf.take o.chunk_size).length).length ≤ n := by
        rw [List.length_drop]
        omega
      have hend : (cursor file s').position ≤ (cursor file s').contents.length := by
        rw [hcursor]
        unfold FileCursor.write
        dsimp only
        rw [length_overwrite]
        exact Nat.le_max_right _ _
      obtain ⟨hret, hsynced, hrest⟩ := ih hdrained hsize fun _ => hend
      have hsplit : buf.take o.chunk_size ++ buf.drop (buf.take o.chunk_size).length = buf := by
        rcases Nat.le_total o.chunk_size buf.length with hle | hge
        · rw [htake, Nat.min_eq_left hle, List.take_append_drop]
        · rw [htake, Nat.min_eq_right hge, List.take_of_length_le hge, List.drop_length,
            List.append_nil]
      refine ⟨?_, hsynced, ?_⟩
      · dsimp only
        rw [hret, List.length_drop]
        omega
      · dsimp only
        rw [hrest, hcursor, FileCursor.write_append, hsplit]

/-- `_php_stream_write` writes everything at the position. -/
theorem streamWrite_spec (o : Options) (h : Synced file s) (buf : List UInt8) :
    let r := streamWrite file o s buf
    r.1 = buf.length ∧ Synced file r.2 ∧
      cursor file r.2 = if buf = [] then cursor file s else (cursor file s).write 0 buf := by
  unfold streamWrite
  by_cases hbuf : buf = []
  · rw [if_pos hbuf, if_pos hbuf, hbuf]
    exact ⟨rfl, h, rfl⟩
  · rw [if_neg hbuf, if_neg hbuf]
    dsimp only
    have hdrained : ∀ s', (if s.readpos ≠ s.writepos then
        (opsSeek file s.invalidate s.position .seekSet).2 else s) = s' →
          Drained file s' ∧ cursor file s' = cursor file s := by
      intro s' hs'
      split_ifs at hs' with hsame
      · obtain ⟨-, hsynced, hcursor⟩ :=
          opsSeek_spec (s := s.invalidate) .seekSet rfl h.position_nonneg h.valid
        have hinv : (opsSeek file s.invalidate s.position .seekSet).2.invalidate = s' := by
          rw [← hs']
          rfl
        rw [hinv] at hsynced hcursor
        have hempty : s'.available = 0 := by
          rw [← hinv]
          rfl
        exact ⟨⟨hsynced, hempty⟩, hcursor⟩
      · have havail : s.available = 0 := by
          unfold Stream.available
          omega
        rw [← hs']
        exact ⟨⟨h, havail⟩, rfl⟩
    obtain ⟨hs', hcursor⟩ := hdrained _ rfl
    generalize (if s.readpos ≠ s.writepos then
      (opsSeek file s.invalidate s.position .seekSet).2 else s) = s' at *
    rw [← hcursor]
    exact writeLoop_spec o buf.length hs' (Nat.le_refl _) fun hnil => absurd hnil hbuf

def seekTarget (file : ByteFile σ) (s : Stream σ) (offset : ℤ) (whence : Whence) : ℤ :=
  whence.target s.position (file.contents s.abstract).length offset

theorem seekInBuffer_spec (file : ByteFile σ) {offset d : ℤ} {whence : Whence}
    (hd : seekInBuffer s offset whence = some d) :
    0 < d ∧ d ≤ s.available ∧ s.position + d = seekTarget file s offset whence := by
  unfold seekInBuffer at hd
  cases whence with
  | seekCur =>
    dsimp only at hd
    split_ifs at hd with hin
    obtain rfl := Option.some.inj hd
    exact ⟨hin.1, hin.2, rfl⟩
  | seekSet =>
    dsimp only at hd
    split_ifs at hd with hin
    obtain rfl := Option.some.inj hd
    refine ⟨by omega, by omega, ?_⟩
    change s.position + (offset - s.position) = offset
    omega
  | seekEnd => cases hd

/-- `_php_stream_seek` to a valid offset sets the position. -/
theorem streamSeek_spec (o : Options) (h : Synced file s) {offset : ℤ} {whence : Whence}
    (hnonneg : 0 ≤ seekTarget file s offset whence)
    (hvalid : file.valid (file.contents s.abstract).length
      (seekTarget file s offset whence).toNat = true) :
    let r := streamSeek file o s offset whence
    r.1 = 0 ∧ Synced file r.2 ∧
      cursor file r.2 = (cursor file s).seek (seekTarget file s offset whence).toNat := by
  unfold streamSeek
  cases hin : (if o.no_buffer then none else seekInBuffer s offset whence) with
  | some d =>
    have hd : seekInBuffer s offset whence = some d := by
      split at hin
      · cases hin
      · exact hin
    obtain ⟨hpos, hle, htarget⟩ := seekInBuffer_spec file hd
    have hposition := h.position_nonneg
    obtain ⟨hsynced, hcursor, -⟩ := h.consume (n := d.toNat) (by omega)
    refine ⟨rfl, hsynced.setEof false, ?_⟩
    have heof : cursor file ({ s.consume d.toNat with eof := false } : Stream σ) =
        cursor file (s.consume d.toNat) := rfl
    dsimp only
    rw [heof, hcursor, ← htarget]
    unfold FileCursor.advance FileCursor.seek cursor
    dsimp only
    congr 1
    omega
  | none =>
    have hseek : ∀ offset' whence', whence'.target (file.offset s.abstract)
        (file.contents s.abstract).length offset' = seekTarget file s offset whence →
          let r := opsSeek file s offset' whence'
          let s' := ({ r.2 with eof := if r.1 = 0 then false else r.2.eof } : Stream σ).invalidate
          r.1 = 0 ∧ Synced file s' ∧
            cursor file s' = (cursor file s).seek (seekTarget file s offset whence).toNat := by
      intro offset' whence' htarget
      obtain ⟨hret, hsynced, hcursor⟩ := opsSeek_spec whence' htarget hnonneg hvalid
      exact ⟨hret, hsynced.setEof _, hcursor⟩
    cases whence with
    | seekCur => exact hseek (s.position + offset) .seekSet rfl
    | seekSet => exact hseek offset .seekSet rfl
    | seekEnd => exact hseek offset .seekEnd rfl

/-! ## Runs -/

/-- An operation on a stream. -/
inductive StreamOp where
  | read (size : ℕ)
  | getLine (maxlen : Option ℕ)
  | getRecord (maxlen : ℕ) (delim : List UInt8)
  | write (buf : List UInt8)
  | seek (offset : ℤ) (whence : Whence)

/-- What an operation returns. A seek to an offset that is not valid is refused. -/
inductive Outcome where
  | read (bytes : List UInt8)
  | line (line : Option (List UInt8))
  | record (record : Option (List UInt8))
  | written (n : ℕ)
  | sought (ret : ℤ)
  | refused
  deriving DecidableEq

def validTarget (valid : ℕ → ℕ → Bool) (f : FileCursor UInt8) (offset : ℤ) (whence : Whence) :
    Prop :=
  0 ≤ whence.target f.position f.contents.length offset ∧
    valid f.contents.length (whence.target f.position f.contents.length offset).toNat = true

instance (valid : ℕ → ℕ → Bool) (f : FileCursor UInt8) (offset : ℤ) (whence : Whence) :
    Decidable (validTarget valid f offset whence) := inferInstanceAs (Decidable (_ ∧ _))

namespace StreamOp

def exec (file : ByteFile σ) (o : Options) (s : Stream σ) : StreamOp → Outcome × Stream σ
  | read size => (.read (streamRead file o s size).1, (streamRead file o s size).2)
  | getLine maxlen =>
    (.line (Streams.getLine file o s maxlen).1, (Streams.getLine file o s maxlen).2)
  | getRecord maxlen delim =>
    (.record (Streams.getRecord file o s maxlen delim).1,
      (Streams.getRecord file o s maxlen delim).2)
  | write buf => (.written (streamWrite file o s buf).1, (streamWrite file o s buf).2)
  | seek offset whence =>
    if validTarget file.valid (cursor file s) offset whence then
      (.sought (streamSeek file o s offset whence).1, (streamSeek file o s offset whence).2)
    else (.refused, s)

/-- What the operation may return on a file with a position, and what becomes of them: a read
returns bytes at the position, which moves behind them, and a write puts its bytes there. -/
def Refines (o : Options) (valid : ℕ → ℕ → Bool) (f : FileCursor UInt8) :
    StreamOp → Outcome → FileCursor UInt8 → Prop
  | read size, .read bytes, f' =>
    bytes <+: f.ahead ∧ bytes.length ≤ size ∧ (0 < size → f.ahead ≠ [] → bytes ≠ []) ∧
      f' = f.advance bytes.length
  | getLine _, .line none, f' => f' = f
  | getLine maxlen, .line (some bytes), f' =>
    bytes <+: f.ahead ∧ bytes ≠ [] ∧ IsLine o maxlen bytes ∧ f' = f.advance bytes.length
  | getRecord _ _, .record none, f' => f' = f
  | getRecord maxlen delim, .record (some bytes), f' =>
    (delim ≠ [] ∧ bytes ++ delim <+: f.ahead ∧ bytes.length + delim.length ≤ maxlen ∧
        f' = f.advance (bytes ++ delim).length) ∨
      (bytes ≠ [] ∧ bytes <+: f.ahead ∧ bytes.length ≤ maxlen ∧ f' = f.advance bytes.length)
  | write buf, .written n, f' => n = buf.length ∧ f' = if buf = [] then f else f.write 0 buf
  | seek offset whence, .sought ret, f' =>
    validTarget valid f offset whence ∧ ret = 0 ∧
      f' = f.seek (whence.target f.position f.contents.length offset).toNat
  | seek offset whence, .refused, f' => ¬ validTarget valid f offset whence ∧ f' = f
  | _, _, _ => False

theorem exec_refines (o : Options) (h : Synced file s) (op : StreamOp) :
    let r := op.exec file o s
    Synced file r.2 ∧ op.Refines o file.valid (cursor file s) r.1 (cursor file r.2) := by
  cases op with
  | read size =>
    obtain ⟨hreads, hlen, hnonempty⟩ := streamRead_spec o h size
    exact ⟨hreads.synced, hreads.ahead, hlen, hnonempty, hreads.cursor⟩
  | getLine maxlen =>
    have hspec := getLine_spec o h maxlen
    unfold exec
    dsimp only at hspec ⊢
    generalize Streams.getLine file o s maxlen = r at *
    obtain ⟨line, s'⟩ := r
    cases line with
    | none => exact ⟨hspec.synced, hspec.cursor⟩
    | some bytes =>
      obtain ⟨hreads, hne, hline, -⟩ := hspec
      exact ⟨hreads.synced, hreads.ahead, hne, hline, hreads.cursor⟩
  | getRecord maxlen delim =>
    have hspec := getRecord_spec o h maxlen delim
    unfold exec
    dsimp only at hspec ⊢
    generalize Streams.getRecord file o s maxlen delim = r at *
    obtain ⟨record, s'⟩ := r
    cases record with
    | none => exact ⟨hspec.synced, hspec.cursor⟩
    | some bytes =>
      rcases hspec with ⟨hdelim, hreads, hlen⟩ | ⟨hne, hreads, hlen⟩
      · exact ⟨hreads.synced, Or.inl ⟨hdelim, hreads.ahead, hlen, hreads.cursor⟩⟩
      · exact ⟨hreads.synced, Or.inr ⟨hne, hreads.ahead, hlen, hreads.cursor⟩⟩
  | write buf =>
    obtain ⟨hret, hsynced, hcursor⟩ := streamWrite_spec o h buf
    exact ⟨hsynced, hret, hcursor⟩
  | seek offset whence =>
    have hposition : ((cursor file s).position : ℤ) = s.position :=
      Int.toNat_of_nonneg h.position_nonneg
    have htarget : whence.target (cursor file s).position (cursor file s).contents.length offset =
        seekTarget file s offset whence := by
      rw [hposition]
      rfl
    unfold exec
    by_cases hvalid : validTarget file.valid (cursor file s) offset whence
    · have hvalid' := hvalid
      unfold validTarget at hvalid'
      rw [htarget] at hvalid'
      obtain ⟨hret, hsynced, hcursor⟩ := streamSeek_spec o h hvalid'.1 hvalid'.2
      dsimp only
      rw [if_pos hvalid]
      refine ⟨hsynced, hvalid, hret, ?_⟩
      rw [htarget]
      exact hcursor
    · dsimp only
      rw [if_neg hvalid]
      exact ⟨h, hvalid, rfl⟩

end StreamOp

/-- A sequence of operations on a stream, with what they return. -/
def runStream (file : ByteFile σ) (o : Options) (s : Stream σ) :
    List StreamOp → List Outcome × Stream σ
  | [] => ([], s)
  | op :: ops =>
    let r := op.exec file o s
    let rest := runStream file o r.2 ops
    (r.1 :: rest.1, rest.2)

/-- What a sequence of operations may return on a file with a position. -/
def RefinesRun (o : Options) (valid : ℕ → ℕ → Bool) (f : FileCursor UInt8) :
    List StreamOp → List Outcome → FileCursor UInt8 → Prop
  | [], [], f' => f' = f
  | op :: ops, out :: outs, f' =>
    ∃ f₁, op.Refines o valid f out f₁ ∧ RefinesRun o valid f₁ ops outs f'
  | _, _, _ => False

theorem runStream_refines (o : Options) (ops : List StreamOp) :
    ∀ {s : Stream σ}, Synced file s →
      let r := runStream file o s ops
      Synced file r.2 ∧ RefinesRun o file.valid (cursor file s) ops r.1 (cursor file r.2) := by
  induction ops with
  | nil => exact fun h => ⟨h, rfl⟩
  | cons op ops ih =>
    intro s h
    obtain ⟨hsynced, hop⟩ := StreamOp.exec_refines o h op
    obtain ⟨hend, hrest⟩ := ih hsynced
    exact ⟨hend, _, hop, hrest⟩

def opened (file : ByteFile σ) (f : σ) : Stream σ where
  abstract := f
  readbuf := []
  readpos := 0
  writepos := 0
  position := file.offset f
  eof := false

/-- A file in memory, of which at most two bytes are read at a time. -/
def memoryFile : ByteFile (List UInt8 × ℕ) where
  contents := Prod.fst
  offset := Prod.snd
  valid := fun size offset => offset ≤ size
  read := fun s _ n =>
    let bytes := (s.1.drop s.2).take (min n 2)
    (bytes, bytes.isEmpty, (s.1, s.2 + bytes.length))
  write := fun s bytes => (bytes.length, (overwrite 0 s.1 s.2 bytes, s.2 + bytes.length))
  seek := fun s off whence =>
    let target := whence.target s.2 s.1.length off
    (0, target, (s.1, target.toNat))
  valid_of_le := fun _ _ h => decide_eq_true h
  read_prefix := fun _ _ _ => List.take_prefix _ _
  read_length := fun _ _ n => by
    rw [List.length_take]
    omega
  read_nonempty := fun s _ n hn hne hnil => by
    have hpos := List.length_pos_iff.mpr hne
    have hlen := congrArg List.length hnil
    rw [List.length_take, List.length_nil] at hlen
    omega
  read_contents := fun _ _ _ => rfl
  read_offset := fun _ _ _ => rfl
  write_length := fun _ _ => rfl
  write_contents := fun _ _ => rfl
  write_offset := fun _ _ => rfl
  seek_valid := fun s off whence target htarget _ hnonneg => by
    dsimp only
    rw [htarget]
    exact ⟨rfl, rfl, rfl, Int.toNat_of_nonneg hnonneg⟩

/-- A buffered stream with chunks of four bytes. -/
def sampleOptions : Options where
  chunk_size := 4
  no_buffer := false
  eol_mac := false
  plain_files := true
  chunk_pos := by decide
  chunk_le := by decide

/-- A line, a write behind it, and everything from the start. -/
def sampleOps : List StreamOp :=
  [.getLine none, .write [7], .seek 0 .seekSet, .read 3]

end PhpRuntime.Streams
