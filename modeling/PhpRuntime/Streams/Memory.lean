import PhpRuntime.Streams.Runs

/-!
# Memory streams

`php_stream_memory_ops` of `main/streams/memory.c`: a file that is kept in memory. Its operations
are those of a seekable file, so that what holds of streams over files holds of it.
-/

set_option autoImplicit false

namespace PhpRuntime.Streams

open PhpRuntime.Lib

/-- `php_stream_memory_data`. The length of `data` is `fsize`, and `readonly` says whether
`TEMP_STREAM_READONLY` is set in `mode`. -/
structure MemoryData where
  data : List UInt8
  fpos : ℕ
  readonly : Bool
  deriving DecidableEq, Repr

namespace MemoryData

/-- `erealloc` to `size` bytes. -/
def grow (ms : MemoryData) (size : ℕ) : List UInt8 :=
  ms.data ++ List.replicate (size - ms.data.length) 0

/-- `php_stream_memory_write` -/
def write (ms : MemoryData) (buf : List UInt8) : ℕ × MemoryData :=
  if ms.readonly then (0, ms)
  else
    let count := buf.length
    let data := if ms.data.length < ms.fpos + count then ms.grow (ms.fpos + count) else ms.data
    (count,
      { ms with
        data := data.take ms.fpos ++ buf ++ data.drop (ms.fpos + count)
        fpos := ms.fpos + count })

/-- `php_stream_memory_read`, with the `eof` flag of the stream. -/
def read (ms : MemoryData) (eof : Bool) (count : ℕ) : List UInt8 × Bool × MemoryData :=
  let atEnd := ms.data.length ≤ ms.fpos + count
  let count := if atEnd then ms.data.length - ms.fpos else count
  ((ms.data.drop ms.fpos).take count, if atEnd then true else eof,
    { ms with fpos := ms.fpos + count })

def refuse (ms : MemoryData) (fpos : ℕ) : ℤ × ℤ × MemoryData := (-1, -1, { ms with fpos := fpos })

/-- A seek that sets the position. The `eof` flag is left to `_php_stream_seek`, which resets it
too. -/
def accept (ms : MemoryData) (fpos : ℕ) : ℤ × ℤ × MemoryData := (0, fpos, { ms with fpos := fpos })

/-- `php_stream_memory_seek`. A negative offset is large when it is made a `size_t`. -/
def seek (ms : MemoryData) (offset : ℤ) : Whence → ℤ × ℤ × MemoryData
  | .seekCur =>
    if offset < 0 then
      if ms.fpos < (-offset).toNat then ms.refuse 0 else ms.accept (ms.fpos - (-offset).toNat)
    else if ms.data.length < ms.fpos + offset.toNat then ms.refuse ms.data.length
    else ms.accept (ms.fpos + offset.toNat)
  | .seekSet =>
    if offset < 0 ∨ ms.data.length < offset.toNat then ms.refuse ms.data.length
    else ms.accept offset.toNat
  | .seekEnd =>
    if 0 < offset then ms.refuse ms.data.length
    else if ms.data.length < (-offset).toNat then ms.refuse 0
    else ms.accept (ms.data.length - (-offset).toNat)

/-- `php_stream_memory_set_option` with `PHP_STREAM_TRUNCATE_SET_SIZE`, and whether it returns
`PHP_STREAM_OPTION_RETURN_OK`. -/
def truncate (ms : MemoryData) (newsize : ℕ) : Bool × MemoryData :=
  if ms.readonly then (false, ms)
  else if newsize ≤ ms.data.length then
    (true,
      { ms with
        data := ms.data.take newsize
        fpos := if newsize < ms.fpos then newsize else ms.fpos })
  else (true, { ms with data := ms.grow newsize })

end MemoryData

/-- The data of a memory stream that can be written: the position is in the file. -/
structure MemoryFile extends MemoryData where
  fpos_le : fpos ≤ data.length
  writable : readonly = false

namespace MemoryFile

variable (m : MemoryFile)

theorem write_eq (buf : List UInt8) :
    m.toMemoryData.write buf = (buf.length,
      { m.toMemoryData with
        data := overwrite 0 m.data m.fpos buf
        fpos := m.fpos + buf.length }) := by
  have hle := m.fpos_le
  have hzero : m.fpos - m.data.length = 0 := by omega
  unfold MemoryData.write
  rw [if_neg (by rw [m.writable]; nofun)]
  unfold overwrite MemoryData.grow
  rw [hzero]
  dsimp only
  split
  · rw [List.take_append_of_le_length hle, List.drop_eq_nil_of_le (by simp; omega),
      List.drop_eq_nil_of_le (by omega)]
    simp
  · simp

theorem read_eq (eof : Bool) (count : ℕ) :
    (m.toMemoryData.read eof count).1 = (m.data.drop m.fpos).take count ∧
      (m.toMemoryData.read eof count).2.2 =
        { m.toMemoryData with fpos := m.fpos + ((m.data.drop m.fpos).take count).length } := by
  have hle := m.fpos_le
  unfold MemoryData.read
  dsimp only
  split
  · rename_i hend
    have hlen : (m.data.drop m.fpos).length = m.data.length - m.fpos := List.length_drop
    rw [List.take_of_length_le (by omega), List.take_of_length_le (by omega), hlen]
    exact ⟨rfl, rfl⟩
  · rename_i hend
    rw [List.length_take, List.length_drop, Nat.min_eq_left (by omega)]
    exact ⟨rfl, rfl⟩

theorem seek_data (offset : ℤ) (whence : Whence) :
    (m.toMemoryData.seek offset whence).2.2.data = m.data ∧
      (m.toMemoryData.seek offset whence).2.2.fpos ≤ m.data.length ∧
      (m.toMemoryData.seek offset whence).2.2.readonly = false := by
  have hle := m.fpos_le
  have hwritable := m.writable
  unfold MemoryData.seek MemoryData.refuse MemoryData.accept
  cases whence <;> dsimp only <;> split <;> try split
  all_goals exact ⟨rfl, by dsimp only; omega, hwritable⟩

def write (buf : List UInt8) : ℕ × MemoryFile where
  fst := (m.toMemoryData.write buf).1
  snd :=
    { toMemoryData := (m.toMemoryData.write buf).2
      fpos_le := by
        rw [m.write_eq]
        dsimp only
        rw [length_overwrite]
        exact Nat.le_max_right _ _
      writable := by
        rw [m.write_eq]
        exact m.writable }

def read (eof : Bool) (count : ℕ) : List UInt8 × Bool × MemoryFile where
  fst := (m.toMemoryData.read eof count).1
  snd :=
    ((m.toMemoryData.read eof count).2.1,
      { toMemoryData := (m.toMemoryData.read eof count).2.2
        fpos_le := by
          have hle := m.fpos_le
          rw [(m.read_eq eof count).2]
          dsimp only
          rw [List.length_take, List.length_drop]
          omega
        writable := by
          rw [(m.read_eq eof count).2]
          exact m.writable })

def seek (offset : ℤ) (whence : Whence) : ℤ × ℤ × MemoryFile where
  fst := (m.toMemoryData.seek offset whence).1
  snd :=
    ((m.toMemoryData.seek offset whence).2.1,
      { toMemoryData := (m.toMemoryData.seek offset whence).2.2
        fpos_le := by
          obtain ⟨hdata, hfpos, _⟩ := m.seek_data offset whence
          rw [hdata]
          exact hfpos
        writable := (m.seek_data offset whence).2.2 })

theorem seek_valid (offset : ℤ) (whence : Whence) {target : ℤ}
    (htarget : whence.target m.fpos m.data.length offset = target) (hnonneg : 0 ≤ target)
    (hle : target.toNat ≤ m.data.length) :
    (m.seek offset whence).1 = 0 ∧ (m.seek offset whence).2.1 = target ∧
      (m.seek offset whence).2.2.data = m.data ∧
      ((m.seek offset whence).2.2.fpos : ℤ) = target := by
  have hfpos := m.fpos_le
  change (m.toMemoryData.seek offset whence).1 = 0 ∧
    (m.toMemoryData.seek offset whence).2.1 = target ∧
    (m.toMemoryData.seek offset whence).2.2.data = m.data ∧
    ((m.toMemoryData.seek offset whence).2.2.fpos : ℤ) = target
  cases whence with
  | seekCur =>
    change (m.fpos : ℤ) + offset = target at htarget
    dsimp only [MemoryData.seek, MemoryData.accept]
    by_cases hneg : offset < 0
    · rw [if_pos hneg, if_neg (by omega)]
      exact ⟨rfl, by dsimp only; omega, rfl, by dsimp only; omega⟩
    · rw [if_neg hneg, if_neg (by omega)]
      exact ⟨rfl, by dsimp only; omega, rfl, by dsimp only; omega⟩
  | seekSet =>
    change offset = target at htarget
    dsimp only [MemoryData.seek, MemoryData.accept]
    rw [if_neg (by omega)]
    exact ⟨rfl, by dsimp only; omega, rfl, by dsimp only; omega⟩
  | seekEnd =>
    change (m.data.length : ℤ) + offset = target at htarget
    dsimp only [MemoryData.seek, MemoryData.accept]
    rw [if_neg (by omega), if_neg (by omega)]
    exact ⟨rfl, by dsimp only; omega, rfl, by dsimp only; omega⟩

/-- The contents of a file that is cut, or filled up. -/
def resize (contents : List UInt8) (size : ℕ) : List UInt8 :=
  contents.take size ++ List.replicate (size - contents.length) 0

@[simp] theorem length_resize (contents : List UInt8) (size : ℕ) :
    (resize contents size).length = size := by
  unfold resize
  rw [List.length_append, List.length_take, List.length_replicate]
  omega

theorem truncate_eq (size : ℕ) :
    m.toMemoryData.truncate size = (true,
      { m.toMemoryData with
        data := resize m.data size
        fpos := min m.fpos size }) := by
  have hle := m.fpos_le
  unfold MemoryData.truncate
  rw [if_neg (by rw [m.writable]; nofun)]
  unfold resize MemoryData.grow
  by_cases hsize : size ≤ m.data.length
  · have hzero : size - m.data.length = 0 := by omega
    have hmin : (if size < m.fpos then size else m.fpos) = min m.fpos size := by
      split <;> omega
    rw [if_pos hsize, hzero, hmin]
    simp
  · have hmin : min m.fpos size = m.fpos := by omega
    rw [if_neg hsize, hmin, List.take_of_length_le (by omega)]

def truncate (size : ℕ) : Bool × MemoryFile where
  fst := (m.toMemoryData.truncate size).1
  snd :=
    { toMemoryData := (m.toMemoryData.truncate size).2
      fpos_le := by
        rw [m.truncate_eq]
        dsimp only
        rw [length_resize]
        exact Nat.min_le_right _ _
      writable := by
        rw [m.truncate_eq]
        exact m.writable }

end MemoryFile

theorem memory_valid_of_le (size offset : ℕ) (h : offset ≤ size) :
    decide (offset ≤ size) = true :=
  decide_eq_true h

/-- The operations of memory streams as those of a file. -/
def memoryOps : ByteFile MemoryFile where
  contents m := m.data
  offset m := m.fpos
  valid size offset := decide (offset ≤ size)
  read m eof n := m.read eof n
  write m bytes := m.write bytes
  seek m offset whence := m.seek offset whence
  valid_of_le := memory_valid_of_le
  read_prefix m eof n := by
    have heq : (m.read eof n).1 = (m.data.drop m.fpos).take n := (m.read_eq eof n).1
    rw [heq]
    exact List.take_prefix n _
  read_length m eof n := by
    have heq : (m.read eof n).1 = (m.data.drop m.fpos).take n := (m.read_eq eof n).1
    rw [heq]
    exact List.length_take_le n _
  read_nonempty m eof n hn hne := by
    have heq : (m.read eof n).1 = (m.data.drop m.fpos).take n := (m.read_eq eof n).1
    have hpos := List.length_pos_iff.2 hne
    rw [heq, ← List.length_pos_iff, List.length_take]
    omega
  read_contents m eof n := by
    have hdata := congrArg MemoryData.data (m.read_eq eof n).2
    exact hdata
  read_offset m eof n := by
    have heq : (m.read eof n).1 = (m.data.drop m.fpos).take n := (m.read_eq eof n).1
    rw [heq]
    exact congrArg MemoryData.fpos (m.read_eq eof n).2
  write_length m bytes := congrArg Prod.fst (m.write_eq bytes)
  write_contents m bytes := congrArg (fun r => MemoryData.data r.2) (m.write_eq bytes)
  write_offset m bytes := congrArg (fun r => MemoryData.fpos r.2) (m.write_eq bytes)
  seek_valid m offset whence target htarget hvalid hnonneg :=
    m.seek_valid offset whence htarget hnonneg (of_decide_eq_true hvalid)

/-- The options of a memory stream: `PHP_STREAM_FLAG_NO_BUFFER` is set. -/
def memoryOptions : Options where
  chunk_size := 8192
  no_buffer := true
  eol_mac := false
  plain_files := false
  chunk_pos := by decide
  chunk_le := by decide

/-- `_php_stream_memory_create`, in a mode that can be written. -/
def memoryCreate : Stream MemoryFile where
  abstract := { data := [], fpos := 0, readonly := false, fpos_le := Nat.le_refl 0, writable := rfl }
  readbuf := []
  readpos := 0
  writepos := 0
  position := 0
  eof := false

/-! ### The stream over the memory -/

variable {s : Stream MemoryFile}

theorem memoryCreate_drained : Drained memoryOps memoryCreate where
  synced :=
    { read_le := Nat.le_refl 0
      write_le := Nat.le_refl 0
      position_nonneg := Int.le_refl 0
      offset := rfl
      buffered := List.nil_prefix
      valid := rfl }
  empty := rfl

theorem Drained.memory_ahead (h : Drained memoryOps s) :
    (cursor memoryOps s).ahead = s.abstract.data.drop s.abstract.fpos := by
  have hoffset : (s.abstract.fpos : ℤ) = s.position + s.available := h.synced.offset
  have hempty := h.empty
  have hposition : s.position.toNat = s.abstract.fpos := by omega
  change s.abstract.data.drop s.position.toNat = _
  rw [hposition]

theorem Drained.streamRead_memory (h : Drained memoryOps s) (size : ℕ) :
    (streamRead memoryOps memoryOptions s size).1 =
        (s.abstract.data.drop s.abstract.fpos).take size ∧
      (streamRead memoryOps memoryOptions s size).2.available = 0 := by
  have hbuffered := h.buffered
  cases size with
  | zero =>
    rw [List.take_zero]
    exact ⟨rfl, h.empty⟩
  | succ n =>
    have honce : readOnce memoryOps memoryOptions s (n + 1) =
        ([], (memoryOps.read s.abstract s.eof (n + 1)).1,
          { s with
            abstract := (memoryOps.read s.abstract s.eof (n + 1)).2.2
            eof := (memoryOps.read s.abstract s.eof (n + 1)).2.1 }) := by
      unfold readOnce
      rw [hbuffered]
      rfl
    have hplain : memoryOptions.plain_files ≠ true := nofun
    unfold streamRead readLoop
    dsimp only
    rw [if_pos (Nat.succ_pos n), honce]
    dsimp only
    rw [if_neg fun hmore => hplain hmore.2, List.nil_append]
    exact ⟨(s.abstract.read_eq s.eof (n + 1)).1, h.empty⟩

theorem Drained.memory_read (h : Drained memoryOps s) (size : ℕ) :
    (streamRead memoryOps memoryOptions s size).1 = (cursor memoryOps s).ahead.take size ∧
      Drained memoryOps (streamRead memoryOps memoryOptions s size).2 ∧
      cursor memoryOps (streamRead memoryOps memoryOptions s size).2 =
        (cursor memoryOps s).advance ((cursor memoryOps s).ahead.take size).length := by
  obtain ⟨hreads, _, _⟩ := streamRead_spec memoryOptions h.synced size
  obtain ⟨hbytes, hempty⟩ := h.streamRead_memory size
  rw [← h.memory_ahead] at hbytes
  refine ⟨hbytes, ⟨hreads.synced, hempty⟩, ?_⟩
  rw [← hbytes]
  exact hreads.cursor

theorem writeLoop_available {σ : Type} (file : ByteFile σ) (o : Options) (n : ℕ) (s : Stream σ)
    (buf : List UInt8) : (writeLoop file o n s buf).2.available = s.available := by
  induction n generalizing s buf with
  | zero => rfl
  | succ n ih =>
    unfold writeLoop
    dsimp only
    split
    · rfl
    · split
      · exact ih _ _
      · rfl

theorem Drained.memory_write (h : Drained memoryOps s) (buf : List UInt8) :
    (streamWrite memoryOps memoryOptions s buf).1 = buf.length ∧
      Drained memoryOps (streamWrite memoryOps memoryOptions s buf).2 ∧
      cursor memoryOps (streamWrite memoryOps memoryOptions s buf).2 =
        (cursor memoryOps s).write 0 buf := by
  obtain ⟨hret, hsynced, hcursor⟩ := streamWrite_spec memoryOptions h.synced buf
  have hle : (cursor memoryOps s).position ≤ (cursor memoryOps s).contents.length :=
    of_decide_eq_true h.synced.valid
  have hread := h.synced.read_le
  have hempty : s.readpos = s.writepos := by
    have hzero := h.empty
    unfold Stream.available at hzero
    omega
  refine ⟨hret, ⟨hsynced, ?_⟩, ?_⟩
  · unfold streamWrite
    split
    · exact h.empty
    · dsimp only
      rw [if_neg (not_not_intro hempty), writeLoop_available]
      exact h.empty
  · rw [hcursor]
    split
    · rename_i hnil
      rw [hnil, FileCursor.write_nil 0 _ hle]
    · rfl

theorem Drained.memory_seek (h : Drained memoryOps s) {offset : ℤ} {whence : Whence}
    (hnonneg : 0 ≤ seekTarget memoryOps s offset whence)
    (hle : (seekTarget memoryOps s offset whence).toNat ≤ s.abstract.data.length) :
    (streamSeek memoryOps memoryOptions s offset whence).1 = 0 ∧
      Drained memoryOps (streamSeek memoryOps memoryOptions s offset whence).2 ∧
      cursor memoryOps (streamSeek memoryOps memoryOptions s offset whence).2 =
        (cursor memoryOps s).seek (seekTarget memoryOps s offset whence).toNat := by
  obtain ⟨hret, hsynced, hcursor⟩ :=
    streamSeek_spec memoryOptions h.synced hnonneg (decide_eq_true hle)
  refine ⟨hret, ⟨hsynced, ?_⟩, hcursor⟩
  cases whence <;> rfl

/-- `PHP_STREAM_TRUNCATE_SET_SIZE` goes to the memory; the position of the stream stays. -/
def memoryTruncate (s : Stream MemoryFile) (size : ℕ) : Bool × Stream MemoryFile :=
  ((s.abstract.truncate size).1, { s with abstract := (s.abstract.truncate size).2 })

theorem Drained.memory_truncate (h : Drained memoryOps s) {size : ℕ}
    (hle : (cursor memoryOps s).position ≤ size) :
    (memoryTruncate s size).1 = true ∧ Drained memoryOps (memoryTruncate s size).2 ∧
      cursor memoryOps (memoryTruncate s size).2 =
        ⟨MemoryFile.resize (cursor memoryOps s).contents size,
          (cursor memoryOps s).position⟩ := by
  have heq := s.abstract.truncate_eq size
  have hoffset : (s.abstract.fpos : ℤ) = s.position + s.available := h.synced.offset
  have hempty := h.empty
  have hposition : s.position.toNat = s.abstract.fpos := by omega
  change s.position.toNat ≤ size at hle
  have hdata : (s.abstract.truncate size).2.data = MemoryFile.resize s.abstract.data size :=
    congrArg (fun r => MemoryData.data r.2) heq
  have hfpos : (s.abstract.truncate size).2.fpos = s.abstract.fpos := by
    have hmin : (s.abstract.truncate size).2.fpos = min s.abstract.fpos size :=
      congrArg (fun r => MemoryData.fpos r.2) heq
    omega
  refine ⟨congrArg Prod.fst heq, ⟨⟨h.synced.read_le, h.synced.write_le,
    h.synced.position_nonneg, ?_, ?_, ?_⟩, h.empty⟩, ?_⟩
  · change ((s.abstract.truncate size).2.fpos : ℤ) = s.position + s.available
    rw [hfpos]
    exact hoffset
  · change s.buffered <+: _
    rw [h.buffered]
    exact List.nil_prefix
  · change decide (s.position.toNat ≤ (s.abstract.truncate size).2.data.length) = true
    rw [hdata, MemoryFile.length_resize]
    exact decide_eq_true hle
  · change FileCursor.mk (s.abstract.truncate size).2.data s.position.toNat = _
    rw [hdata]
    rfl

end PhpRuntime.Streams
