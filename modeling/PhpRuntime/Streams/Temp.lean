import PhpRuntime.Streams.Memory

/-!
# Temporary streams

`php_stream_temp_ops` of `main/streams/memory.c`: a stream over memory that moves to a temporary
file when it grows. The temporary file is any that behaves as a file with a position.
-/

set_option autoImplicit false

namespace PhpRuntime.Streams

open PhpRuntime.Lib

def inFile (size offset : ℕ) : Bool := decide (offset ≤ size)

/-- The stream that `php_stream_fopen_tmpfile` opens, and what the functions of streams do on it.
It behaves as a file with a position, which starts empty. -/
structure TmpFile (τ : Type) where
  cursor : τ → FileCursor UInt8
  fopen_tmpfile : τ
  write : τ → List UInt8 → ℕ × τ
  read : τ → ℕ → List UInt8 × τ
  seek : τ → ℤ → Whence → ℤ × τ
  tell : τ → ℤ
  truncate : τ → ℕ → Bool × τ
  cast : τ → Bool → Bool × τ
  eof : τ → Bool
  cursor_fopen : cursor fopen_tmpfile = ⟨[], 0⟩
  write_ret : ∀ f buf, (write f buf).1 = buf.length
  write_cursor : ∀ f buf, (cursor f).position ≤ (cursor f).contents.length →
    cursor (write f buf).2 = (cursor f).write 0 buf
  read_bytes : ∀ f n, (read f n).1 = (cursor f).ahead.take n
  read_cursor : ∀ f n, cursor (read f n).2 =
    (cursor f).advance ((cursor f).ahead.take n).length
  seek_ret : ∀ f offset whence,
    validTarget inFile (cursor f) offset whence →
      (seek f offset whence).1 = 0 ∧ cursor (seek f offset whence).2 = (cursor f).seek
        (whence.target (cursor f).position (cursor f).contents.length offset).toNat
  tell_eq : ∀ f, tell f = (cursor f).position
  truncate_ret : ∀ f size, (cursor f).position ≤ size →
    (truncate f size).1 = true ∧ cursor (truncate f size).2 =
      ⟨MemoryFile.resize (cursor f).contents size, (cursor f).position⟩
  cast_cursor : ∀ f ret, cursor (cast f ret).2 = cursor f

/-- `ts->innerstream`: a memory stream or a temporary file. -/
inductive InnerStream (τ : Type) where
  | memory (s : Stream MemoryFile)
  | file (f : τ)

/-- `php_stream_temp_data`, and the `eof` flag of the stream. -/
structure TempStream (τ : Type) where
  innerstream : InnerStream τ
  smax : ℕ
  eof : Bool

variable {τ : Type} (tmp : TmpFile τ)

/-- `_php_stream_temp_create`, in a mode that can be written. -/
def tempCreate (smax : ℕ) : TempStream τ where
  innerstream := .memory memoryCreate
  smax := smax
  eof := false

/-- The memory is written to a new temporary file if it would grow to `smax` bytes. -/
def spill (ts : TempStream τ) (count : ℕ) : TempStream τ :=
  match ts.innerstream with
  | .memory s =>
    if ts.smax ≤ s.abstract.data.length + count then
      { ts with innerstream := .file (tmp.write tmp.fopen_tmpfile s.abstract.data).2 }
    else ts
  | .file _ => ts

/-- `php_stream_temp_write` -/
def tempWrite (ts : TempStream τ) (buf : List UInt8) : ℕ × TempStream τ :=
  let ts := spill tmp ts buf.length
  match ts.innerstream with
  | .memory s =>
    let r := streamWrite memoryOps memoryOptions s buf
    (r.1, { ts with innerstream := .memory r.2 })
  | .file f =>
    let r := tmp.write f buf
    (r.1, { ts with innerstream := .file r.2 })

/-- `php_stream_temp_read` -/
def tempRead (ts : TempStream τ) (count : ℕ) : List UInt8 × TempStream τ :=
  match ts.innerstream with
  | .memory s =>
    let r := streamRead memoryOps memoryOptions s count
    (r.1, { ts with innerstream := .memory r.2, eof := r.2.eof })
  | .file f =>
    let r := tmp.read f count
    (r.1, { ts with innerstream := .file r.2, eof := tmp.eof r.2 })

/-- `php_stream_temp_seek`: what it returns, and the new offset. -/
def tempSeek (ts : TempStream τ) (offset : ℤ) (whence : Whence) : ℤ × ℤ × TempStream τ :=
  match ts.innerstream with
  | .memory s =>
    let r := streamSeek memoryOps memoryOptions s offset whence
    (r.1, streamTell r.2, { ts with innerstream := .memory r.2, eof := r.2.eof })
  | .file f =>
    let r := tmp.seek f offset whence
    (r.1, tmp.tell r.2, { ts with innerstream := .file r.2, eof := tmp.eof r.2 })

/-- `php_stream_temp_set_option` with `PHP_STREAM_TRUNCATE_SET_SIZE`: it goes to the inner stream. -/
def tempTruncate (ts : TempStream τ) (size : ℕ) : Bool × TempStream τ :=
  match ts.innerstream with
  | .memory s =>
    let r := memoryTruncate s size
    (r.1, { ts with innerstream := .memory r.2 })
  | .file f =>
    let r := tmp.truncate f size
    (r.1, { ts with innerstream := .file r.2 })

/-- `php_stream_temp_cast`, and whether it succeeds. `asStdio` says whether a `FILE *` is asked
for, and `ret` whether it is asked to convert. -/
def tempCast (ts : TempStream τ) (asStdio ret : Bool) : Bool × TempStream τ :=
  match ts.innerstream with
  | .file f =>
    let r := tmp.cast f ret
    (r.1, { ts with innerstream := .file r.2 })
  | .memory s =>
    if ¬ ret then (asStdio, ts)
    else
      let file := (tmp.write tmp.fopen_tmpfile s.abstract.data).2
      let pos := streamTell s
      let r := tmp.cast (tmp.seek file pos .seekSet).2 ret
      (r.1, { ts with innerstream := .file r.2 })

/-! ### Runs -/

/-- An operation on a temporary stream. -/
inductive TempOp where
  | write (buf : List UInt8)
  | read (count : ℕ)
  | seek (offset : ℤ) (whence : Whence)
  | truncate (size : ℕ)
  | cast (asStdio ret : Bool)

/-- What an operation returns. Of a cast it is not looked at. -/
inductive TempResult where
  | wrote (count : ℕ)
  | bytes (bytes : List UInt8)
  | sought (ret newoffs : ℤ)
  | truncated (ok : Bool)
  | cast
  deriving DecidableEq, Repr

namespace TempOp

def exec (ts : TempStream τ) : TempOp → TempResult × TempStream τ
  | write buf => (.wrote (tempWrite tmp ts buf).1, (tempWrite tmp ts buf).2)
  | read count => (.bytes (tempRead tmp ts count).1, (tempRead tmp ts count).2)
  | seek offset whence =>
    (.sought (tempSeek tmp ts offset whence).1 (tempSeek tmp ts offset whence).2.1,
      (tempSeek tmp ts offset whence).2.2)
  | truncate size => (.truncated (tempTruncate tmp ts size).1, (tempTruncate tmp ts size).2)
  | cast asStdio ret => (.cast, (tempCast tmp ts asStdio ret).2)

def refer (f : FileCursor UInt8) : TempOp → TempResult × FileCursor UInt8
  | write buf => (.wrote buf.length, f.write 0 buf)
  | read count => (.bytes (f.ahead.take count), f.advance (f.ahead.take count).length)
  | seek offset whence =>
    (.sought 0 (whence.target f.position f.contents.length offset),
      f.seek (whence.target f.position f.contents.length offset).toNat)
  | truncate size => (.truncated true, ⟨MemoryFile.resize f.contents size, f.position⟩)
  | cast _ _ => (.cast, f)

/-- Seeks are to offsets in the file, and it is not cut in front of the position. -/
def Valid (f : FileCursor UInt8) : TempOp → Prop
  | seek offset whence =>
    validTarget inFile f offset whence
  | truncate size => f.position ≤ size
  | _ => True

instance (f : FileCursor UInt8) : (op : TempOp) → Decidable (op.Valid f)
  | seek offset whence => inferInstanceAs (Decidable (validTarget inFile f offset whence))
  | truncate size => inferInstanceAs (Decidable (f.position ≤ size))
  | write _ => inferInstanceAs (Decidable True)
  | read _ => inferInstanceAs (Decidable True)
  | cast _ _ => inferInstanceAs (Decidable True)

/-- The operation is a write that moves the stream to a temporary file while its position is not
at the end. -/
def Misplaces (ts : TempStream τ) : TempOp → Prop
  | write buf => ∃ s, ts.innerstream = .memory s ∧
      ts.smax ≤ s.abstract.data.length + buf.length ∧ s.position ≠ s.abstract.data.length
  | _ => False

end TempOp

/-- The results of a run, and the stream after it. -/
def tempRun : TempStream τ → List TempOp → List TempResult × TempStream τ
  | ts, [] => ([], ts)
  | ts, op :: ops =>
    ((op.exec tmp ts).1 :: (tempRun (op.exec tmp ts).2 ops).1,
      (tempRun (op.exec tmp ts).2 ops).2)

def referRun : FileCursor UInt8 → List TempOp → List TempResult × FileCursor UInt8
  | f, [] => ([], f)
  | f, op :: ops => ((op.refer f).1 :: (referRun (op.refer f).2 ops).1,
      (referRun (op.refer f).2 ops).2)

/-- All the operations of a run on a file are valid. -/
def ValidRun : FileCursor UInt8 → List TempOp → Prop
  | _, [] => True
  | f, op :: ops => op.Valid f ∧ ValidRun (op.refer f).2 ops

instance decidableValidRun : (f : FileCursor UInt8) → (ops : List TempOp) →
    Decidable (ValidRun f ops)
  | _, [] => inferInstanceAs (Decidable True)
  | f, op :: ops =>
    have := decidableValidRun (op.refer f).2 ops
    inferInstanceAs (Decidable (op.Valid f ∧ ValidRun (op.refer f).2 ops))

def WellPlaced : TempStream τ → List TempOp → Prop
  | _, [] => True
  | ts, op :: ops => ¬ op.Misplaces ts ∧ WellPlaced (op.exec tmp ts).2 ops

/-! ### The stream and the file -/

namespace TempStream

/-- The contents of the stream and its position. -/
def cursor (ts : TempStream τ) : FileCursor UInt8 :=
  match ts.innerstream with
  | .memory s => Streams.cursor memoryOps s
  | .file f => tmp.cursor f

/-- The stream has no bytes in a buffer, and its position is in the file. -/
structure Steady (ts : TempStream τ) : Prop where
  drained : ∀ s, ts.innerstream = .memory s → Drained memoryOps s
  position_le : (ts.cursor tmp).position ≤ (ts.cursor tmp).contents.length

end TempStream

variable {tmp} {ts : TempStream τ} {buf : List UInt8}

theorem tempCreate_steady (smax : ℕ) : (tempCreate smax : TempStream τ).Steady tmp where
  drained s hs := by
    obtain rfl := InnerStream.memory.inj hs
    exact memoryCreate_drained
  position_le := Nat.le_refl 0

theorem cursor_spilled (tmp : TmpFile τ) (data : List UInt8) :
    tmp.cursor (tmp.write tmp.fopen_tmpfile data).2 = ⟨data, data.length⟩ := by
  rw [tmp.write_cursor _ _ (by rw [tmp.cursor_fopen]; exact Nat.le_refl 0), tmp.cursor_fopen]
  unfold FileCursor.write overwrite
  simp

/-- What an operation does to the stream it does to a file, and returns the same. -/
structure Agrees (tmp : TmpFile τ) (f : FileCursor UInt8) (op : TempOp)
    (r : TempResult × TempStream τ) : Prop where
  result : r.1 = (op.refer f).1
  cursor : r.2.cursor tmp = (op.refer f).2
  steady : r.2.Steady tmp

theorem steady_memory {s : Stream MemoryFile} (h : Drained memoryOps s)
    (hts : ts.innerstream = .memory s) : ts.Steady tmp where
  drained s' hs' := by
    obtain rfl := InnerStream.memory.inj (hts.symm.trans hs')
    exact h
  position_le := by
    rw [TempStream.cursor, hts]
    exact of_decide_eq_true h.synced.valid

theorem steady_file {f : τ} (h : (tmp.cursor f).position ≤ (tmp.cursor f).contents.length)
    (hts : ts.innerstream = .file f) : ts.Steady tmp where
  drained s hs := nomatch hts.symm.trans hs
  position_le := by
    rw [TempStream.cursor, hts]
    exact h

theorem write_position_le (f : FileCursor UInt8) (buf : List UInt8) :
    (f.write 0 buf).position ≤ (f.write 0 buf).contents.length := by
  change f.position + buf.length ≤ (overwrite 0 f.contents f.position buf).length
  rw [length_overwrite]
  exact Nat.le_max_right _ _

theorem tempWrite_file {f : τ} (hle : (tmp.cursor f).position ≤ (tmp.cursor f).contents.length)
    (hspill : (spill tmp ts buf.length).innerstream = .file f) :
    (tempWrite tmp ts buf).1 = buf.length ∧
      (tempWrite tmp ts buf).2.cursor tmp = (tmp.cursor f).write 0 buf ∧
      (tempWrite tmp ts buf).2.Steady tmp := by
  have hcursor := tmp.write_cursor f buf hle
  unfold tempWrite
  dsimp only
  rw [hspill]
  refine ⟨tmp.write_ret f buf, hcursor, steady_file ?_ rfl⟩
  rw [hcursor]
  exact write_position_le _ _

/-- `php_stream_temp_write` writes at the position, or behind the memory if it moves to a
temporary file. -/
theorem tempWrite_cursor (h : ts.Steady tmp) (buf : List UInt8) :
    (tempWrite tmp ts buf).1 = buf.length ∧ (tempWrite tmp ts buf).2.Steady tmp ∧
      ((tempWrite tmp ts buf).2.cursor tmp = (ts.cursor tmp).write 0 buf ↔
        ¬ (TempOp.write buf).Misplaces ts) := by
  cases hinner : ts.innerstream with
  | file f =>
    have hle := h.position_le
    rw [TempStream.cursor, hinner] at hle
    have hspill : (spill tmp ts buf.length).innerstream = .file f := by
      unfold spill
      rw [hinner]
      exact hinner
    obtain ⟨hret, hcursor, hsteady⟩ := tempWrite_file hle hspill
    refine ⟨hret, hsteady, iff_of_true ?_ ?_⟩
    · rw [hcursor, TempStream.cursor, hinner]
    · rintro ⟨s, hs, _⟩
      exact nomatch hinner.symm.trans hs
  | memory s =>
    have hdrained := h.drained s hinner
    have hcursor : ts.cursor tmp = cursor memoryOps s := by
      rw [TempStream.cursor, hinner]
    by_cases hlarge : ts.smax ≤ s.abstract.data.length + buf.length
    · have hspill : (spill tmp ts buf.length).innerstream =
          .file (tmp.write tmp.fopen_tmpfile s.abstract.data).2 := by
        unfold spill
        rw [hinner]
        dsimp only
        rw [if_pos hlarge]
      have hend := cursor_spilled tmp s.abstract.data
      obtain ⟨hret, hwritten, hsteady⟩ :=
        tempWrite_file (by rw [hend]) hspill
      refine ⟨hret, hsteady, ?_⟩
      rw [hwritten, hend, hcursor]
      have hnonneg := hdrained.synced.position_nonneg
      constructor
      · rintro hsame ⟨s', hs', _, hne⟩
        obtain rfl := InnerStream.memory.inj (hinner.symm.trans hs')
        have hposition : s.abstract.data.length + buf.length =
            s.position.toNat + buf.length := congrArg FileCursor.position hsame
        omega
      · intro hplaced
        have hposition : s.position = s.abstract.data.length :=
          Classical.byContradiction fun hne => hplaced ⟨s, hinner, hlarge, hne⟩
        have hend' : cursor memoryOps s = ⟨s.abstract.data, s.abstract.data.length⟩ := by
          change FileCursor.mk s.abstract.data s.position.toNat = _
          congr 1
          omega
        rw [hend']
    · have hspill : spill tmp ts buf.length = ts := by
        unfold spill
        rw [hinner]
        dsimp only
        rw [if_neg hlarge]
      have hwrite : tempWrite tmp ts buf =
          ((streamWrite memoryOps memoryOptions s buf).1,
            { ts with innerstream :=
                .memory (streamWrite memoryOps memoryOptions s buf).2 }) := by
        unfold tempWrite
        rw [hspill]
        dsimp only
        rw [hinner]
      obtain ⟨hret, hdrained', hwritten⟩ := hdrained.memory_write buf
      rw [hwrite, hcursor]
      refine ⟨hret, steady_memory hdrained' rfl, iff_of_true hwritten ?_⟩
      rintro ⟨s', hs', hle, _⟩
      obtain rfl := InnerStream.memory.inj (hinner.symm.trans hs')
      exact hlarge hle

/-- `php_stream_temp_read` -/
theorem tempRead_agrees (h : ts.Steady tmp) (count : ℕ) :
    Agrees tmp (ts.cursor tmp) (.read count) ((TempOp.read count).exec tmp ts) := by
  change Agrees tmp _ _ (.bytes (tempRead tmp ts count).1, (tempRead tmp ts count).2)
  unfold tempRead
  cases hinner : ts.innerstream with
  | memory s =>
    obtain ⟨hbytes, hdrained, hcursor⟩ := (h.drained s hinner).memory_read count
    have hfile : ts.cursor tmp = cursor memoryOps s := by
      rw [TempStream.cursor, hinner]
    rw [hfile]
    exact ⟨congrArg TempResult.bytes hbytes, hcursor, steady_memory hdrained rfl⟩
  | file f =>
    have hfile : ts.cursor tmp = tmp.cursor f := by
      rw [TempStream.cursor, hinner]
    have hle := h.position_le
    rw [hfile] at hle ⊢
    have hcursor := tmp.read_cursor f count
    refine ⟨congrArg TempResult.bytes (tmp.read_bytes f count), hcursor, steady_file ?_ rfl⟩
    rw [hcursor]
    change (tmp.cursor f).position + ((tmp.cursor f).ahead.take count).length ≤
      (tmp.cursor f).contents.length
    rw [List.length_take, FileCursor.ahead, List.length_drop]
    omega

/-- `php_stream_temp_seek` to an offset in the file. -/
theorem tempSeek_agrees (h : ts.Steady tmp) {offset : ℤ} {whence : Whence}
    (hvalid : (TempOp.seek offset whence).Valid (ts.cursor tmp)) :
    Agrees tmp (ts.cursor tmp) (.seek offset whence)
      ((TempOp.seek offset whence).exec tmp ts) := by
  change Agrees tmp _ _ (.sought (tempSeek tmp ts offset whence).1
    (tempSeek tmp ts offset whence).2.1, (tempSeek tmp ts offset whence).2.2)
  obtain ⟨hnonneg, hin⟩ := hvalid
  have hle := of_decide_eq_true hin
  unfold tempSeek
  cases hinner : ts.innerstream with
  | memory s =>
    have hdrained := h.drained s hinner
    have hfile : ts.cursor tmp = cursor memoryOps s := by
      rw [TempStream.cursor, hinner]
    have htarget : whence.target (cursor memoryOps s).position
        (cursor memoryOps s).contents.length offset = seekTarget memoryOps s offset whence := by
      change whence.target (s.position.toNat : ℤ) _ _ = whence.target s.position _ _
      rw [Int.toNat_of_nonneg hdrained.synced.position_nonneg]
      rfl
    rw [hfile, htarget] at hnonneg hle
    obtain ⟨hret, hdrained', hcursor⟩ := hdrained.memory_seek hnonneg hle
    have htell : streamTell (streamSeek memoryOps memoryOptions s offset whence).2 =
        seekTarget memoryOps s offset whence := by
      have hposition := congrArg FileCursor.position hcursor
      have hnonneg' := hdrained'.synced.position_nonneg
      change (streamSeek memoryOps memoryOptions s offset whence).2.position.toNat =
        (seekTarget memoryOps s offset whence).toNat at hposition
      change (streamSeek memoryOps memoryOptions s offset whence).2.position = _
      omega
    rw [hfile]
    refine ⟨?_, ?_, steady_memory hdrained' rfl⟩
    · dsimp only [TempOp.refer]
      rw [hret, htell, htarget]
    · dsimp only [TempOp.refer]
      rw [htarget]
      exact hcursor
  | file f =>
    have hfile : ts.cursor tmp = tmp.cursor f := by
      rw [TempStream.cursor, hinner]
    rw [hfile] at hnonneg hle hin ⊢
    obtain ⟨hret, hcursor⟩ := tmp.seek_ret f offset whence ⟨hnonneg, hin⟩
    refine ⟨?_, hcursor, steady_file ?_ rfl⟩
    · dsimp only [TempOp.refer]
      rw [hret, tmp.tell_eq, hcursor]
      rw [FileCursor.seek, Int.toNat_of_nonneg hnonneg]
    · rw [hcursor]
      exact hle

theorem tempTruncate_agrees (h : ts.Steady tmp) {size : ℕ}
    (hle : (ts.cursor tmp).position ≤ size) :
    Agrees tmp (ts.cursor tmp) (.truncate size) ((TempOp.truncate size).exec tmp ts) := by
  change Agrees tmp _ _ (.truncated (tempTruncate tmp ts size).1, (tempTruncate tmp ts size).2)
  unfold tempTruncate
  cases hinner : ts.innerstream with
  | memory s =>
    have hfile : ts.cursor tmp = cursor memoryOps s := by
      rw [TempStream.cursor, hinner]
    rw [hfile] at hle ⊢
    obtain ⟨hret, hdrained, hcursor⟩ := (h.drained s hinner).memory_truncate hle
    exact ⟨congrArg TempResult.truncated hret, hcursor, steady_memory hdrained rfl⟩
  | file f =>
    have hfile : ts.cursor tmp = tmp.cursor f := by
      rw [TempStream.cursor, hinner]
    rw [hfile] at hle ⊢
    obtain ⟨hret, hcursor⟩ := tmp.truncate_ret f size hle
    refine ⟨congrArg TempResult.truncated hret, hcursor, steady_file ?_ rfl⟩
    rw [hcursor]
    dsimp only
    rw [MemoryFile.length_resize]
    exact hle

/-- `php_stream_temp_cast` carries the position over. -/
theorem tempCast_agrees (h : ts.Steady tmp) (asStdio ret : Bool) :
    Agrees tmp (ts.cursor tmp) (.cast asStdio ret) ((TempOp.cast asStdio ret).exec tmp ts) := by
  change Agrees tmp _ _ (.cast, (tempCast tmp ts asStdio ret).2)
  have hle := h.position_le
  unfold tempCast
  cases hinner : ts.innerstream with
  | file f =>
    have hfile : ts.cursor tmp = tmp.cursor f := by
      rw [TempStream.cursor, hinner]
    rw [hfile] at hle ⊢
    have hcursor := tmp.cast_cursor f ret
    refine ⟨rfl, hcursor, steady_file ?_ rfl⟩
    rw [hcursor]
    exact hle
  | memory s =>
    have hdrained := h.drained s hinner
    have hfile : ts.cursor tmp = cursor memoryOps s := by
      rw [TempStream.cursor, hinner]
    dsimp only
    split
    · exact ⟨rfl, rfl, h⟩
    · have hend := cursor_spilled tmp s.abstract.data
      have hnonneg := hdrained.synced.position_nonneg
      have hin : s.position.toNat ≤ s.abstract.data.length :=
        of_decide_eq_true hdrained.synced.valid
      obtain ⟨_, hseek⟩ := tmp.seek_ret (tmp.write tmp.fopen_tmpfile s.abstract.data).2 s.position
        .seekSet ⟨hnonneg, by rw [hend]; exact decide_eq_true hin⟩
      have hcursor := tmp.cast_cursor
        (tmp.seek (tmp.write tmp.fopen_tmpfile s.abstract.data).2 s.position .seekSet).2 ret
      rw [hseek, hend] at hcursor
      rw [hfile] at hle ⊢
      refine ⟨rfl, hcursor, steady_file ?_ rfl⟩
      dsimp only [streamTell]
      rw [hcursor]
      exact hle

theorem TempOp.exec_agrees (h : ts.Steady tmp) {op : TempOp} (hvalid : op.Valid (ts.cursor tmp))
    (hplaced : ¬ op.Misplaces ts) : Agrees tmp (ts.cursor tmp) op (op.exec tmp ts) := by
  cases op with
  | write buf =>
    obtain ⟨hret, hsteady, hcursor⟩ := tempWrite_cursor h buf
    exact ⟨congrArg TempResult.wrote hret, hcursor.2 hplaced, hsteady⟩
  | read count => exact tempRead_agrees h count
  | seek offset whence => exact tempSeek_agrees h hvalid
  | truncate size => exact tempTruncate_agrees h hvalid
  | cast asStdio ret => exact tempCast_agrees h asStdio ret

theorem TempOp.exec_misplaced (h : ts.Steady tmp) {op : TempOp} (hmisplaces : op.Misplaces ts) :
    (op.exec tmp ts).2.cursor tmp ≠ (op.refer (ts.cursor tmp)).2 := by
  cases op with
  | write buf =>
    obtain ⟨_, _, hcursor⟩ := tempWrite_cursor h buf
    exact fun hsame => hcursor.1 hsame hmisplaces
  | read _ => exact hmisplaces.elim
  | seek _ _ => exact hmisplaces.elim
  | truncate _ => exact hmisplaces.elim
  | cast _ _ => exact hmisplaces.elim

/-! ### All runs -/

/-- A run and all that it goes through are those of a file. -/
def RunAgrees (tmp : TmpFile τ) (ts : TempStream τ) (f : FileCursor UInt8) (ops : List TempOp) :
    Prop :=
  ∀ n, (tempRun tmp ts (ops.take n)).1 = (referRun f (ops.take n)).1 ∧
    (tempRun tmp ts (ops.take n)).2.cursor tmp = (referRun f (ops.take n)).2

theorem runAgrees_iff (ops : List TempOp) (h : ts.Steady tmp)
    (hvalid : ValidRun (ts.cursor tmp) ops) :
    RunAgrees tmp ts (ts.cursor tmp) ops ↔ WellPlaced tmp ts ops := by
  induction ops generalizing ts with
  | nil =>
    refine iff_of_true (fun n => ?_) trivial
    rw [List.take_nil]
    exact ⟨rfl, rfl⟩
  | cons op ops ih =>
    by_cases hmisplaces : op.Misplaces ts
    · refine iff_of_false (fun hagrees => ?_) fun hplaced => hplaced.1 hmisplaces
      exact op.exec_misplaced h hmisplaces (hagrees 1).2
    · have hstep := op.exec_agrees h hvalid.1 hmisplaces
      have hrest := ih hstep.steady (by rw [hstep.cursor]; exact hvalid.2)
      rw [hstep.cursor] at hrest
      constructor
      · intro hagrees
        refine ⟨hmisplaces, hrest.1 fun n => ?_⟩
        obtain ⟨hresults, hcursor⟩ := hagrees (n + 1)
        exact ⟨(List.cons.inj hresults).2, hcursor⟩
      · intro hplaced n
        cases n with
        | zero => exact ⟨rfl, rfl⟩
        | succ n =>
          obtain ⟨hresults, hcursor⟩ := hrest.2 hplaced.2 n
          exact ⟨List.cons_eq_cons.2 ⟨hstep.result, hresults⟩, hcursor⟩

/-- A temporary stream is a file with a position, whatever its limit, just if no write moves it to
a temporary file while its position is not at the end. -/
theorem temp_refines_iff (tmp : TmpFile τ) (smax : ℕ) (ops : List TempOp)
    (hvalid : ValidRun ⟨[], 0⟩ ops) :
    RunAgrees tmp (tempCreate smax) ⟨[], 0⟩ ops ↔ WellPlaced tmp (tempCreate smax) ops :=
  runAgrees_iff ops (tempCreate_steady smax) hvalid

def cursorFile : TmpFile (FileCursor UInt8) where
  cursor f := f
  fopen_tmpfile := ⟨[], 0⟩
  write f buf := (buf.length, f.write 0 buf)
  read f n := (f.ahead.take n, f.advance (f.ahead.take n).length)
  seek f offset whence :=
    (0, f.seek (whence.target f.position f.contents.length offset).toNat)
  tell f := f.position
  truncate f size := (true, ⟨MemoryFile.resize f.contents size, f.position⟩)
  cast f _ := (true, f)
  eof f := decide (f.contents.length ≤ f.position)
  cursor_fopen := rfl
  write_ret _ buf := Eq.refl buf.length
  write_cursor _ _ _ := rfl
  read_bytes _ _ := rfl
  read_cursor _ _ := rfl
  seek_ret _ _ _ _ := ⟨rfl, rfl⟩
  tell_eq _ := rfl
  truncate_ret _ _ _ := ⟨rfl, rfl⟩
  cast_cursor _ _ := rfl

/-- Three bytes are written and read, and the stream moves to a temporary file in between. -/
theorem temp_refines_sample :
    let ops := [TempOp.write [1, 2, 3], .seek 0 .seekSet, .cast true true, .read 2, .write [4]]
    ValidRun ⟨[], 0⟩ ops ∧ (RunAgrees cursorFile (tempCreate 100) ⟨[], 0⟩ ops ↔
      WellPlaced cursorFile (tempCreate 100) ops) :=
  ⟨by decide, temp_refines_iff cursorFile 100 _ (by decide)⟩

/-- Bytes that are written over the first bytes go to the end. -/
theorem temp_write_misplaced :
    let ops := [TempOp.write [1, 2, 3, 4, 5], .seek 0 .seekSet, .write [6, 7, 8, 9]]
    ValidRun ⟨[], 0⟩ ops ∧ ¬ RunAgrees cursorFile (tempCreate 8) ⟨[], 0⟩ ops := by
  refine ⟨by decide, fun hagrees => ?_⟩
  have hcontents := congrArg FileCursor.contents (hagrees 3).2
  exact absurd hcontents (by decide)

end PhpRuntime.Streams
