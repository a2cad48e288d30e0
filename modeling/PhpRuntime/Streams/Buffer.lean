import Mathlib.Data.List.Infix
import PhpRuntime.Streams.Stream

/-!
# The read buffer and the file

`Synced` is the invariant of a stream: the offset of the file is the position and the number
of bytes in the read buffer, and these are the bytes of the file at the position. There is one
statement for every function, in terms of the file with the position of the stream.
-/

set_option autoImplicit false

namespace PhpRuntime.Streams

open PhpRuntime.Lib

variable {σ : Type} {file : ByteFile σ} {o : Options} {s s' : Stream σ}

def cursor (file : ByteFile σ) (s : Stream σ) : FileCursor UInt8 where
  contents := file.contents s.abstract
  position := s.position.toNat

/-- The read buffer holds the bytes of the file between the position and the offset. -/
structure Synced (file : ByteFile σ) (s : Stream σ) : Prop where
  read_le : s.readpos ≤ s.writepos
  write_le : s.writepos ≤ s.readbuf.length
  position_nonneg : 0 ≤ s.position
  offset : (file.offset s.abstract : ℤ) = s.position + s.available
  buffered : s.buffered <+: (cursor file s).ahead
  valid : file.valid (file.contents s.abstract).length s.position.toNat = true

theorem Synced.length_buffered (h : Synced file s) : s.buffered.length = s.available := by
  have hread := h.read_le
  have hwrite := h.write_le
  unfold Stream.buffered Stream.available
  rw [List.length_drop, List.length_take]
  omega

theorem Synced.consume (h : Synced file s) {n : ℕ} (hn : n ≤ s.available) :
    Synced file (s.consume n) ∧ cursor file (s.consume n) = (cursor file s).advance n ∧
      (s.consume n).available = s.available - n := by
  have hread := h.read_le
  have hnonneg := h.position_nonneg
  have hoffset := h.offset
  have hlen := h.length_buffered
  have havail : (s.consume n).available = s.available - n := by
    unfold Stream.consume Stream.available
    dsimp only
    omega
  have hnat : (s.position + n).toNat = s.position.toNat + n := by omega
  have hcursor : cursor file (s.consume n) = (cursor file s).advance n := by
    unfold cursor Stream.consume FileCursor.advance
    dsimp only
    rw [hnat]
  have hbuf : (s.consume n).buffered = s.buffered.drop n := by
    unfold Stream.consume Stream.buffered
    dsimp only
    rw [List.drop_drop]
  have hle : s.position.toNat + n ≤ (file.contents s.abstract).length ∨ n = 0 := by
    have hprefix := h.buffered.length_le
    unfold FileCursor.ahead cursor at hprefix
    rw [List.length_drop] at hprefix
    dsimp only at hprefix
    omega
  refine ⟨⟨?_, h.write_le, ?_, ?_, ?_, ?_⟩, hcursor, havail⟩
  · unfold Stream.consume Stream.available at *
    dsimp only
    omega
  · change 0 ≤ s.position + n
    omega
  · rw [havail]
    change (file.offset s.abstract : ℤ) = s.position + n + _
    omega
  · rw [hcursor, hbuf, FileCursor.ahead_advance]
    exact h.buffered.drop n
  · change file.valid (file.contents s.abstract).length (s.position + n).toNat = true
    rw [hnat]
    rcases hle with hle | rfl
    · exact file.valid_of_le _ _ hle
    · exact h.valid

/-! ## Filling the read buffer -/

/-- Only the place of the buffered bytes changes. -/
structure Repacked (s s' : Stream σ) : Prop where
  abstract : s'.abstract = s.abstract
  position : s'.position = s.position
  eof : s'.eof = s.eof
  buffered : s'.buffered = s.buffered
  available : s'.available = s.available
  read_le : s'.readpos ≤ s'.writepos
  write_le : s'.writepos ≤ s'.readbuf.length

theorem Repacked.refl (h : Synced file s) : Repacked s s :=
  ⟨rfl, rfl, rfl, rfl, rfl, h.read_le, h.write_le⟩

theorem Repacked.trans {s'' : Stream σ} (h : Repacked s s') (h' : Repacked s' s'') :
    Repacked s s'' :=
  ⟨h'.abstract.trans h.abstract, h'.position.trans h.position, h'.eof.trans h.eof,
    h'.buffered.trans h.buffered, h'.available.trans h.available, h'.read_le, h'.write_le⟩

theorem Repacked.cursor_eq (h : Repacked s s') (file : ByteFile σ) : cursor file s' = cursor file s := by
  unfold cursor
  rw [h.abstract, h.position]

theorem Repacked.synced (h : Synced file s) (hr : Repacked s s') : Synced file s' where
  read_le := hr.read_le
  write_le := hr.write_le
  position_nonneg := hr.position ▸ h.position_nonneg
  offset := by
    rw [hr.abstract, hr.position, hr.available]
    exact h.offset
  buffered := by
    rw [hr.buffered, hr.cursor_eq]
    exact h.buffered
  valid := by
    rw [hr.abstract, hr.position]
    exact h.valid

theorem moveToFront_repacked (h : Synced file s) : Repacked s s.moveToFront := by
  have hread := h.read_le
  have hwrite := h.write_le
  refine ⟨rfl, rfl, rfl, ?_, ?_, ?_, ?_⟩
  · unfold Stream.moveToFront Stream.buffered
    dsimp only
    rw [List.drop_zero, List.take_append_of_le_length (by rw [List.length_drop]; omega),
      List.drop_take]
  · unfold Stream.moveToFront Stream.available
    dsimp only
    omega
  · exact Nat.zero_le _
  · unfold Stream.moveToFront
    dsimp only
    rw [List.length_append, List.length_drop, List.length_drop]
    omega

theorem grow_repacked (h : Synced file s) (bytes : List UInt8) :
    Repacked s { s with readbuf := s.readbuf ++ bytes } := by
  have hwrite := h.write_le
  refine ⟨rfl, rfl, rfl, ?_, rfl, h.read_le, ?_⟩
  · unfold Stream.buffered
    dsimp only
    rw [List.take_append_of_le_length hwrite]
  · dsimp only
    rw [List.length_append]
    omega

theorem makeSpace_repacked (o : Options) (h : Synced file s) :
    Repacked s (makeSpace o s) ∧
      (makeSpace o s).writepos + o.chunk_size ≤ (makeSpace o s).readbuf.length := by
  unfold makeSpace
  dsimp only
  generalize hs1 : (if s.readbuf ≠ [] ∧ s.readbuf.length - s.writepos < o.chunk_size then
    s.moveToFront else s) = s1
  have hfront : Repacked s s1 := by
    rw [← hs1]
    split
    · exact moveToFront_repacked h
    · exact Repacked.refl h
  have h1 := hfront.synced h
  have hwrite := h1.write_le
  split
  · refine ⟨hfront.trans (grow_repacked h1 _), ?_⟩
    dsimp only
    rw [List.length_append, List.length_replicate]
    omega
  · refine ⟨hfront, ?_⟩
    omega

/-- What a step does that only reads ahead: the file and the position stay, and what is in the
read buffer remains there. -/
structure ReadsAhead (file : ByteFile σ) (s s' : Stream σ) : Prop where
  synced : Synced file s'
  cursor : cursor file s' = cursor file s
  buffered : s.buffered <+: s'.buffered

theorem ReadsAhead.refl (h : Synced file s) : ReadsAhead file s s :=
  ⟨h, rfl, List.prefix_refl _⟩

theorem ReadsAhead.trans {s'' : Stream σ} (h : ReadsAhead file s s')
    (h' : ReadsAhead file s' s'') : ReadsAhead file s s'' :=
  ⟨h'.synced, h'.cursor.trans h.cursor, h.buffered.trans h'.buffered⟩

theorem ReadsAhead.available_le (h : ReadsAhead file s s') (hs : Synced file s) :
    s.available ≤ s'.available := by
  rw [← hs.length_buffered, ← h.synced.length_buffered]
  exact h.buffered.length_le

theorem Synced.drop_offset (h : Synced file s) :
    (file.contents s.abstract).drop (file.offset s.abstract) =
      (cursor file s).ahead.drop s.available := by
  have hnonneg := h.position_nonneg
  have hoffset := h.offset
  have hnat : file.offset s.abstract = s.position.toNat + s.available := by omega
  unfold FileCursor.ahead cursor
  dsimp only
  rw [List.drop_drop, hnat]

/-- `php_stream_fill_read_buffer` reads ahead, and reads something if bytes are missing and
there are any. -/
theorem fillReadBuffer_spec (o : Options) (h : Synced file s) (size : ℕ) :
    ReadsAhead file s (fillReadBuffer file o s size) ∧
      (s.available < size → s.available < (cursor file s).ahead.length →
        s.available < (fillReadBuffer file o s size).available) := by
  obtain ⟨hpack, hspace⟩ := makeSpace_repacked o h
  have h1 := hpack.synced h
  unfold fillReadBuffer
  split
  · dsimp only
    rw [← hpack.cursor_eq file, ← hpack.available]
    have hbuf1 := hpack.buffered
    generalize makeSpace o s = s1 at *
    have hread := h1.read_le
    have hwrite := h1.write_le
    have hchunk := o.chunk_pos
    have hprefix := file.read_prefix s1.abstract s1.eof (s1.readbuf.length - s1.writepos)
    have hcontents := file.read_contents s1.abstract s1.eof (s1.readbuf.length - s1.writepos)
    have hoffset := file.read_offset s1.abstract s1.eof (s1.readbuf.length - s1.writepos)
    have hlength := file.read_length s1.abstract s1.eof (s1.readbuf.length - s1.writepos)
    have hnonempty := file.read_nonempty s1.abstract s1.eof (s1.readbuf.length - s1.writepos)
      (by omega)
    rw [h1.drop_offset] at hprefix hnonempty
    generalize file.read s1.abstract s1.eof (s1.readbuf.length - s1.writepos) = r at *
    have htake : (s1.readbuf.take s1.writepos).length = s1.writepos := by
      rw [List.length_take]
      omega
    have hbuffered : ((s1.readbuf.take s1.writepos ++ r.1 ++
        s1.readbuf.drop (s1.writepos + r.1.length)).take (s1.writepos + r.1.length)).drop
          s1.readpos = s1.buffered ++ r.1 := by
      have hlen : (s1.readbuf.take s1.writepos ++ r.1).length = s1.writepos + r.1.length := by
        rw [List.length_append, htake]
      rw [← hlen, List.take_left, List.drop_append_of_le_length (by omega)]
      rfl
    have hoff := h1.offset
    have havail : s1.writepos + r.1.length - s1.readpos = s1.available + r.1.length := by
      unfold Stream.available
      omega
    have hahead : s1.buffered ++ r.1 <+: (cursor file s1).ahead := by
      obtain ⟨t, ht⟩ := h1.buffered
      rw [← ht, ← h1.length_buffered, List.drop_left] at hprefix
      rw [← ht]
      exact (List.prefix_append_right_inj s1.buffered).mpr hprefix
    refine ⟨⟨⟨?_, ?_, h1.position_nonneg, ?_, ?_, ?_⟩, ?_, ?_⟩, ?_⟩
    · dsimp only
      omega
    · dsimp only
      rw [List.length_append, List.length_append, htake]
      omega
    · change (file.offset r.2.2 : ℤ) =
        s1.position + ((s1.writepos + r.1.length - s1.readpos : ℕ) : ℤ)
      rw [hoffset, havail]
      omega
    · change ((s1.readbuf.take s1.writepos ++ r.1 ++
        s1.readbuf.drop (s1.writepos + r.1.length)).take (s1.writepos + r.1.length)).drop
          s1.readpos <+: (file.contents r.2.2).drop s1.position.toNat
      rw [hbuffered, hcontents]
      exact hahead
    · change file.valid (file.contents r.2.2).length s1.position.toNat = true
      rw [hcontents]
      exact h1.valid
    · rw [← hpack.cursor_eq file]
      unfold cursor
      dsimp only
      rw [hcontents]
    · rw [← hbuf1]
      change s1.buffered <+: ((s1.readbuf.take s1.writepos ++ r.1 ++
        s1.readbuf.drop (s1.writepos + r.1.length)).take (s1.writepos + r.1.length)).drop
          s1.readpos
      rw [hbuffered]
      exact List.prefix_append _ _
    · intro _ hlt
      change s1.available < s1.writepos + r.1.length - s1.readpos
      rw [havail]
      have hleft : (cursor file s1).ahead.drop s1.available ≠ [] := by
        rw [ne_eq, List.drop_eq_nil_iff]
        omega
      have hpos := List.length_pos_iff.mpr (hnonempty hleft)
      omega
  · rename_i hsize
    exact ⟨ReadsAhead.refl h, fun hlt => absurd hlt hsize⟩

/-! ## Reading -/

/-- The stream with a position further on. `_php_stream_read` counts what it has read only at the
end, and nothing before looks at the position. -/
def Stream.moved (s : Stream σ) (n : ℕ) : Stream σ := { s with position := s.position + n }

theorem Stream.moved_moved (s : Stream σ) (m n : ℕ) : (s.moved m).moved n = s.moved (m + n) := by
  unfold Stream.moved
  dsimp only
  rw [Int.add_assoc, Int.natCast_add]

theorem makeSpace_moved (o : Options) (s : Stream σ) (n : ℕ) :
    makeSpace o (s.moved n) = (makeSpace o s).moved n := by
  unfold makeSpace Stream.moved Stream.moveToFront
  dsimp only
  split_ifs <;> rfl

theorem fillReadBuffer_moved (file : ByteFile σ) (o : Options) (s : Stream σ) (n size : ℕ) :
    fillReadBuffer file o (s.moved n) size = (fillReadBuffer file o s size).moved n := by
  have havail : (s.moved n).available = s.available := rfl
  unfold fillReadBuffer
  dsimp only
  rw [havail, makeSpace_moved]
  split <;> rfl

theorem readOnce_moved (file : ByteFile σ) (o : Options) (s : Stream σ) (n size : ℕ) :
    readOnce file o (s.moved n) size =
      ((readOnce file o s size).1, (readOnce file o s size).2.1,
        (readOnce file o s size).2.2.moved n) := by
  have hbuf : (s.moved n).buffered = s.buffered := rfl
  have hfront : ∀ k, { s.moved n with readpos := (s.moved n).readpos + k } =
      ({ s with readpos := s.readpos + k } : Stream σ).moved n := fun _ => rfl
  unfold readOnce
  dsimp only
  rw [hbuf, hfront, fillReadBuffer_moved]
  split_ifs <;> rfl

theorem readLoop_moved (file : ByteFile σ) (o : Options) (n : ℕ) :
    ∀ (s : Stream σ) (k size : ℕ), readLoop file o n (s.moved k) size =
      ((readLoop file o n s size).1, (readLoop file o n s size).2.moved k) := by
  induction n with
  | zero => exact fun _ _ _ => rfl
  | succ n ih =>
    intro s k size
    unfold readLoop
    dsimp only
    rw [readOnce_moved]
    dsimp only
    rw [ih]
    split_ifs <;> rfl

/-- What a read returns: bytes of the file at the position, which moves behind them. -/
structure Reads (file : ByteFile σ) (s s' : Stream σ) (bytes : List UInt8) : Prop where
  synced : Synced file s'
  cursor : cursor file s' = (cursor file s).advance bytes.length
  ahead : bytes <+: (Streams.cursor file s).ahead

theorem Reads.trans {s'' : Stream σ} {bytes bytes' : List UInt8} (h : Reads file s s' bytes)
    (h' : Reads file s' s'' bytes') : Reads file s s'' (bytes ++ bytes') where
  synced := h'.synced
  cursor := by rw [h'.cursor, h.cursor, FileCursor.advance_advance, List.length_append]
  ahead := FileCursor.prefix_ahead_append h.ahead (h.cursor ▸ h'.ahead)

theorem ReadsAhead.reads {bytes : List UInt8} {s'' : Stream σ} (h : ReadsAhead file s s')
    (h' : Reads file s' s'' bytes) : Reads file s s'' bytes where
  synced := h'.synced
  cursor := by rw [h'.cursor, h.cursor]
  ahead := h.cursor ▸ h'.ahead

theorem Synced.reads_buffered (h : Synced file s) {bytes : List UInt8}
    (hbytes : bytes <+: s.buffered) : Reads file s (s.consume bytes.length) bytes := by
  obtain ⟨hsynced, hcursor, -⟩ := h.consume (h.length_buffered ▸ hbytes.length_le)
  exact ⟨hsynced, hcursor, hbytes.trans h.buffered⟩

theorem Synced.reads_file (h : Synced file s) (hempty : s.available = 0) {size : ℕ}
    (hsize : 0 < size) :
    let r := file.read s.abstract s.eof size
    Reads file s ({ s with abstract := r.2.2, eof := r.2.1 }.moved r.1.length) r.1 ∧
      ((cursor file s).ahead ≠ [] → r.1 ≠ []) := by
  intro r
  have hnonempty : _ → r.1 ≠ [] := file.read_nonempty s.abstract s.eof size hsize
  have hprefix : r.1 <+: _ := file.read_prefix s.abstract s.eof size
  have hcontents : file.contents r.2.2 = _ := file.read_contents s.abstract s.eof size
  have hoffset : file.offset r.2.2 = _ + r.1.length := file.read_offset s.abstract s.eof size
  rw [h.drop_offset, hempty, List.drop_zero] at hprefix hnonempty
  have hnonneg := h.position_nonneg
  have hoff := h.offset
  have hnat : (s.position + r.1.length).toNat = s.position.toNat + r.1.length := by omega
  have hbuf : s.buffered = [] := List.eq_nil_of_length_eq_zero (h.length_buffered.trans hempty)
  have hle : s.position.toNat + r.1.length ≤ (file.contents s.abstract).length ∨
      r.1.length = 0 := by
    have hlength := hprefix.length_le
    unfold FileCursor.ahead cursor at hlength
    rw [List.length_drop] at hlength
    dsimp only at hlength
    omega
  refine ⟨⟨⟨h.read_le, h.write_le, ?_, ?_, ?_, ?_⟩, ?_, hprefix⟩, hnonempty⟩
  · change 0 ≤ s.position + r.1.length
    omega
  · change (file.offset r.2.2 : ℤ) = s.position + r.1.length + s.available
    rw [hoffset]
    omega
  · change s.buffered <+: _
    rw [hbuf]
    exact List.nil_prefix
  · change file.valid (file.contents r.2.2).length (s.position + r.1.length).toNat = true
    rw [hcontents, hnat]
    rcases hle with hle | hzero
    · exact file.valid_of_le _ _ hle
    · rw [hzero]
      exact h.valid
  · unfold cursor FileCursor.advance Stream.moved
    dsimp only
    rw [hcontents, hnat]

theorem Synced.reads_filled (o : Options) (h : Synced file s) (hempty : s.available = 0) {size : ℕ}
    (hsize : 0 < size) :
    let s' := fillReadBuffer file o s size
    let bytes := s'.buffered.take size
    Reads file s (s'.consume bytes.length) bytes ∧ ((cursor file s).ahead ≠ [] → bytes ≠ []) := by
  intro s' bytes
  obtain ⟨hahead, hmore⟩ := fillReadBuffer_spec o h size
  have hreads := hahead.synced.reads_buffered (List.take_prefix size s'.buffered)
  refine ⟨hahead.reads hreads, fun hne hnil => ?_⟩
  have hlen := List.length_pos_iff.mpr hne
  have hgrown := hmore (by omega) (by omega)
  have hlength : bytes.length = min size s'.available := by
    rw [List.length_take, hahead.synced.length_buffered]
  rw [hnil, List.length_nil] at hlength
  change s.available < s'.available at hgrown
  omega

/-- Once round the loop of `_php_stream_read`. -/
theorem readOnce_spec (o : Options) (h : Synced file s) {size : ℕ} (hsize : 0 < size) :
    let r := readOnce file o s size
    Reads file s (r.2.2.moved (r.1 ++ r.2.1).length) (r.1 ++ r.2.1) ∧
      (r.1 ++ r.2.1).length ≤ size ∧
      ((cursor file s).ahead ≠ [] → r.1 ++ r.2.1 ≠ []) := by
  have hlen : (s.buffered.take size).length = min size s.available := by
    rw [List.length_take, h.length_buffered]
  have hfront := h.reads_buffered (List.take_prefix size s.buffered)
  have hconsume : ({ s with readpos := s.readpos + (s.buffered.take size).length } : Stream σ).moved
      (s.buffered.take size).length = s.consume (s.buffered.take size).length := rfl
  unfold readOnce
  dsimp only
  generalize hs1 : ({ s with readpos := s.readpos + (s.buffered.take size).length } : Stream σ) =
    s1 at hconsume ⊢
  generalize s.buffered.take size = front at *
  rw [← hconsume] at hfront
  have hahead : (cursor file s).ahead ≠ [] → front = [] →
      (cursor file (s1.moved front.length)).ahead ≠ [] := by
    intro hne hnil
    rwa [hfront.cursor, hnil]
  have hempty : size - front.length ≠ 0 → (s1.moved front.length).available = 0 := by
    intro hne
    rw [hconsume]
    unfold Stream.available Stream.consume at *
    dsimp only
    omega
  split_ifs with hzero hraw
  · dsimp only
    rw [List.append_nil]
    refine ⟨hfront, by omega, fun _ hnil => ?_⟩
    rw [hnil, List.length_nil] at hzero
    omega
  · obtain ⟨hreads, hnonempty⟩ :=
      hfront.synced.reads_file (hempty hzero) (Nat.pos_of_ne_zero hzero)
    subst hs1
    have hlength := file.read_length s.abstract s.eof (size - front.length)
    dsimp only
    rw [List.length_append, ← Stream.moved_moved]
    refine ⟨hfront.trans hreads, by omega, fun hne hnil => ?_⟩
    obtain ⟨hnil1, hnil2⟩ := List.append_eq_nil_iff.mp hnil
    exact hnonempty (hahead hne hnil1) hnil2
  · obtain ⟨hreads, hnonempty⟩ :=
      hfront.synced.reads_filled o (hempty hzero) (Nat.pos_of_ne_zero hzero)
    rw [fillReadBuffer_moved] at hreads hnonempty
    generalize fillReadBuffer file o s1 (size - front.length) = s2 at *
    have hlength := List.length_take_le (size - front.length) s2.buffered
    dsimp only
    rw [List.length_append, ← Stream.moved_moved]
    refine ⟨hfront.trans hreads, by omega, fun hne hnil => ?_⟩
    obtain ⟨hnil1, hnil2⟩ := List.append_eq_nil_iff.mp hnil
    exact hnonempty (hahead hne hnil1) hnil2

theorem Synced.reads_nothing (h : Synced file s) : Reads file s s [] :=
  ⟨h, by rw [List.length_nil, FileCursor.advance_zero], List.nil_prefix⟩

/-- The loop of `_php_stream_read` ends within `size` rounds. -/
theorem readLoop_spec (o : Options) (n : ℕ) :
    ∀ {s : Stream σ} {size : ℕ}, Synced file s → size ≤ n →
      let r := readLoop file o n s size
      Reads file s (r.2.moved r.1.length) r.1 ∧ r.1.length ≤ size ∧
        (0 < size → (cursor file s).ahead ≠ [] → r.1 ≠ []) := by
  have hnothing : ∀ {s : Stream σ}, Synced file s →
      Reads file s (s.moved ([] : List UInt8).length) [] := by
    intro s h
    have hmoved : s.moved ([] : List UInt8).length = s := by
      unfold Stream.moved
      rw [List.length_nil, Int.natCast_zero, Int.add_zero]
    rw [hmoved]
    exact h.reads_nothing
  induction n with
  | zero =>
    intro s size h hsize
    exact ⟨hnothing h, Nat.zero_le _, fun hpos => absurd hpos (by omega)⟩
  | succ n ih =>
    intro s size h hsize
    unfold readLoop
    dsimp only
    split_ifs with hpos hmore
    · obtain ⟨hreads, hlen, hnonempty⟩ := readOnce_spec o h hpos
      generalize readOnce file o s size = r at *
      have hback : 0 < (r.1 ++ r.2.1).length := by
        have hpos := List.length_pos_iff.mpr hmore.1
        rw [List.length_append]
        omega
      generalize r.1 ++ r.2.1 = bytes at *
      have hless : size - bytes.length ≤ n := by omega
      obtain ⟨hrest, hrestlen, -⟩ := ih hreads.synced hless
      rw [readLoop_moved] at hrest hrestlen
      dsimp only at hrest hrestlen ⊢
      refine ⟨?_, ?_, fun _ hne hnil => hnonempty hne (List.append_eq_nil_iff.mp hnil).1⟩
      · rw [List.length_append, ← Stream.moved_moved]
        exact hreads.trans hrest
      · rw [List.length_append]
        omega
    · obtain ⟨hreads, hlen, hnonempty⟩ := readOnce_spec o h hpos
      exact ⟨hreads, hlen, fun _ => hnonempty⟩
    · exact ⟨hnothing h, Nat.zero_le _, fun hpos' => absurd hpos' hpos⟩

/-- `_php_stream_read` reads at most `size` bytes, and some if there are any. -/
theorem streamRead_spec (o : Options) (h : Synced file s) (size : ℕ) :
    let r := streamRead file o s size
    Reads file s r.2 r.1 ∧ r.1.length ≤ size ∧
      (0 < size → (cursor file s).ahead ≠ [] → r.1 ≠ []) :=
  readLoop_spec o size h (Nat.le_refl size)

/-- `_php_stream_read` takes bytes that are in the read buffer from there. -/
theorem streamRead_buffered (file : ByteFile σ) (o : Options) (h : Synced file s) {size : ℕ}
    (hsize : size ≤ s.available) :
    streamRead file o s size = (s.buffered.take size, s.consume size) := by
  have hlen : (s.buffered.take size).length = size := by
    rw [List.length_take, h.length_buffered]
    omega
  unfold streamRead
  cases size with
  | zero =>
    unfold readLoop Stream.consume
    simp
  | succ n =>
    have honce : readOnce file o s (n + 1) =
        (s.buffered.take (n + 1), [], { s with readpos := s.readpos + (n + 1) }) := by
      unfold readOnce
      dsimp only
      rw [hlen, if_pos (Nat.sub_self _)]
    unfold readLoop
    dsimp only
    rw [if_pos (Nat.succ_pos n), honce]
    dsimp only
    rw [if_neg (by simp), List.append_nil, hlen]
    rfl

end PhpRuntime.Streams
