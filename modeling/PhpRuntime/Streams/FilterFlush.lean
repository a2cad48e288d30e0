import Mathlib.Algebra.GroupWithZero.Nat
import Mathlib.Data.List.Basic
import Mathlib.Data.Int.Notation
import PhpRuntime.Lib.Fallible

/-!
# Flushing a filter

`_php_stream_filter_flush` (`main/streams/filter.c`). A filter takes a brigade of buckets and
passes another one on; here a brigade is the list of the contents of its buckets. What a filter
holds when it is flushed goes through the filters after it, and from there to the read buffer or to
the stream.
-/

set_option autoImplicit false

namespace PhpRuntime.Streams

open PhpRuntime.Lib (bind_eq_ok)

/-- `php_stream_filter_status_t` -/
inductive FilterStatus where
  | errFatal
  | feedMe
  | passOn
  deriving DecidableEq, Repr

/-- `PSFS_FLAG_NORMAL`, `PSFS_FLAG_FLUSH_INC` and `PSFS_FLAG_FLUSH_CLOSE`. -/
inductive FilterFlags where
  | normal
  | flushInc
  | flushClose
  deriving DecidableEq, Repr

/-- What `fops->filter` returns, with the output brigade and the filter after the call. -/
structure FilterReturn (φ : Type) where
  status : FilterStatus
  out : List (List UInt8)
  filter : φ

/-- `stream->ops->write`: it takes the first bytes of a bucket and returns how many. `written` is
what the stream was given so far. -/
structure WriteOps (σ : Type) where
  write : σ → List UInt8 → ℕ × σ
  written : σ → List UInt8
  written_write : ∀ s bytes, written (write s bytes).2 = written s ++ bytes.take (write s bytes).1

/-- What the C standard leaves undefined. -/
inductive Fault where
  | overlappingCopy
  | nullCall
  deriving DecidableEq, Repr

/-- The fields of `php_stream` that a flush uses. `readbuf` is the memory that was allocated, and
`readbuflen` what the stream knows of its size. -/
structure BufferedStream (σ : Type) where
  abstract : σ
  readbuf : List UInt8
  readbuflen : ℕ
  readpos : ℕ
  writepos : ℕ
  chunk_size : ℕ

/-- The chain of a filter. -/
inductive FilterChain where
  | readfilters
  | writefilters
  deriving DecidableEq, Repr

variable {σ φ : Type}

namespace BufferedStream

/-- `stream->writepos - stream->readpos` -/
def available (s : BufferedStream σ) : ℕ := s.writepos - s.readpos

/-- The bytes in the read buffer from `readpos` to `writepos`. -/
def unread (s : BufferedStream σ) : List UInt8 := (s.readbuf.take s.writepos).drop s.readpos

/-- The positions are in the buffer, and its size is known. -/
structure Consistent (s : BufferedStream σ) : Prop where
  read_le : s.readpos ≤ s.writepos
  write_le : s.writepos ≤ s.readbuflen
  allocated : s.readbuflen = s.readbuf.length

/-- The unread bytes are copied to the front of the buffer. `writepos` is computed from the new
`readpos`. -/
def backUp (s : BufferedStream σ) : Except Fault (BufferedStream σ) :=
  if 0 < s.readpos then
    if s.readpos < s.available then .error .overlappingCopy
    else .ok { s with
      readbuf := (s.readbuf.drop s.readpos).take s.available ++ s.readbuf.drop s.available
      readpos := 0
      writepos := s.writepos - 0 }
  else .ok s

/-- Space for `flushed_size` bytes. Nothing reads the new bytes before they are written. -/
def grow (s : BufferedStream σ) (flushed_size : ℕ) : BufferedStream σ :=
  if s.readbuflen - s.writepos < flushed_size then
    { s with
      readbuf := s.readbuf.take (s.writepos + flushed_size + s.chunk_size) ++
        List.replicate (s.writepos + flushed_size + s.chunk_size - s.readbuf.length) 0 }
  else s

/-- The buckets are copied behind `writepos`. -/
def fill (s : BufferedStream σ) : List (List UInt8) → BufferedStream σ
  | [] => s
  | bucket :: buckets =>
    fill { s with
      readbuf := s.readbuf.take s.writepos ++ bucket ++
        s.readbuf.drop (s.writepos + bucket.length)
      writepos := s.writepos + bucket.length } buckets

end BufferedStream

/-- The buckets are given to `stream->ops->write`. -/
def writeBuckets (ops : WriteOps σ) (s : σ) : List (List UInt8) → σ
  | [] => s
  | bucket :: buckets => writeBuckets ops (ops.write s bucket).2 buckets

variable (fops : φ → FilterFlags → List (List UInt8) → FilterReturn φ) (ops : Option (WriteOps σ))

/-- The loop of `_php_stream_filter_flush`. `current` runs over the filter and the filters after it,
and for each it is `filter` that is run. -/
def flushLoop (filter : φ) (flags : FilterFlags) (inp : List (List UInt8)) :
    List φ → FilterReturn φ
  | [] => ⟨.passOn, inp, filter⟩
  | _ :: next =>
    let r := fops filter flags inp
    if r.status = .passOn then flushLoop r.filter .normal r.out next else r

/-- What becomes of the buckets that the last filter passes on: they go to the read buffer or to the
stream. -/
def deliver (s : BufferedStream σ) (chain : FilterChain) (flushed_size : ℕ)
    (buckets : List (List UInt8)) : Except Fault (BufferedStream σ) :=
  match chain with
  | .readfilters => do
    let s ← s.backUp
    return (s.grow flushed_size).fill buckets
  | .writefilters =>
    match ops with
    | none => .error .nullCall
    | some ops => .ok { s with abstract := writeBuckets ops s.abstract buckets }

/-- `_php_stream_filter_flush` for a filter that `later` follows. Besides the stream it returns the
filter, and whether it succeeds. -/
def filterFlush (s : BufferedStream σ) (chain : Option FilterChain) (filter : φ) (later : List φ)
    (finish : Bool) : Except Fault (Bool × φ × BufferedStream σ) :=
  match chain with
  | none => .ok (false, filter, s)
  | some chain =>
    let r := flushLoop fops filter (if finish then .flushClose else .flushInc) [] (filter :: later)
    if r.status = .feedMe then .ok (true, r.filter, s)
    else if r.status = .errFatal then .ok (false, r.filter, s)
    else
      let flushed_size := (r.out.map List.length).sum
      if flushed_size = 0 then .ok (true, r.filter, s)
      else do
        let s ← deliver ops s chain flushed_size r.out
        return (true, r.filter, s)

/-! ## What a flush delivers -/

/-- A brigade that goes through filters, or nothing if one of them does not pass it on. -/
def passThrough : List φ → List (List UInt8) → Option (List (List UInt8))
  | [], inp => some inp
  | filter :: next, inp =>
    let r := fops filter .normal inp
    if r.status = .passOn then passThrough next r.out else none

def passedBytes (brigade : Option (List (List UInt8))) : List UInt8 := (brigade.getD []).flatten

/-- What the filter holds, passed through the filters after it. -/
def heldData (filter : φ) (later : List φ) (finish : Bool) : List UInt8 :=
  let r := fops filter (if finish then .flushClose else .flushInc) []
  passedBytes (if r.status = .passOn then passThrough fops later r.out else none)

/-- The brigade that the filter gives when it is run again for every filter after it. -/
def repeatedBrigade (filter : φ) (later : List φ) (finish : Bool) : Option (List (List UInt8)) :=
  let r := flushLoop fops filter (if finish then .flushClose else .flushInc) [] (filter :: later)
  if r.status = .passOn then some r.out else none

/-- The bytes that a stream takes of some buckets. -/
def taken (ops : WriteOps σ) (s : σ) : List (List UInt8) → List UInt8
  | [] => []
  | bucket :: buckets =>
    bucket.take (ops.write s bucket).1 ++ taken ops (ops.write s bucket).2 buckets

theorem written_writeBuckets (ops : WriteOps σ) (s : σ) (buckets : List (List UInt8)) :
    ops.written (writeBuckets ops s buckets) = ops.written s ++ taken ops s buckets := by
  induction buckets generalizing s with
  | nil => exact (List.append_nil _).symm
  | cons bucket buckets ih =>
    rw [writeBuckets, taken, ih, ops.written_write, List.append_assoc]

theorem taken_length_le (ops : WriteOps σ) (s : σ) (buckets : List (List UInt8)) :
    (taken ops s buckets).length ≤ buckets.flatten.length := by
  induction buckets generalizing s with
  | nil => exact Nat.le_refl _
  | cons bucket buckets ih =>
    have hrest := ih (ops.write s bucket).2
    rw [taken, List.flatten_cons, List.length_append, List.length_append, List.length_take]
    omega

theorem taken_eq_nil (ops : WriteOps σ) (s : σ) {buckets : List (List UInt8)}
    (h : buckets.flatten = []) : taken ops s buckets = [] := by
  have hle := taken_length_le ops s buckets
  rw [h] at hle
  exact List.eq_nil_of_length_eq_zero (Nat.le_zero.mp hle)

namespace BufferedStream

variable {s : BufferedStream σ}

/-- The bytes before `writepos` that stay when the unread bytes are copied to the front. -/
def leftBehind (s : BufferedStream σ) : List UInt8 := (s.readbuf.take s.writepos).drop s.available

theorem Consistent.leftBehind_length (h : s.Consistent) : s.leftBehind.length = s.readpos := by
  have hread := h.read_le
  have hwrite := h.write_le
  have hlen := h.allocated
  unfold leftBehind available
  rw [List.length_drop, List.length_take]
  omega

theorem fill_spec (h : s.readpos ≤ s.writepos) (buckets : List (List UInt8))
    (hroom : s.writepos + buckets.flatten.length ≤ s.readbuf.length) :
    (s.fill buckets).unread = s.unread ++ buckets.flatten ∧
      (s.fill buckets).readbuf.length = s.readbuf.length ∧
      (s.fill buckets).readbuflen = s.readbuflen ∧ (s.fill buckets).readpos = s.readpos ∧
      (s.fill buckets).writepos = s.writepos + buckets.flatten.length := by
  induction buckets generalizing s with
  | nil => exact ⟨(List.append_nil _).symm, rfl, rfl, rfl, rfl⟩
  | cons bucket buckets ih =>
    rw [List.flatten_cons, List.length_append] at hroom
    have hlength : (s.readbuf.take s.writepos ++ bucket ++
        s.readbuf.drop (s.writepos + bucket.length)).length = s.readbuf.length := by
      rw [List.length_append, List.length_append, List.length_take, List.length_drop]
      omega
    obtain ⟨hunread, hlen, hbuflen, hread, hwrite⟩ := ih
      (s := { s with
        readbuf := s.readbuf.take s.writepos ++ bucket ++
          s.readbuf.drop (s.writepos + bucket.length)
        writepos := s.writepos + bucket.length })
      (show s.readpos ≤ s.writepos + bucket.length by omega) (by dsimp only; omega)
    rw [fill, List.flatten_cons]
    refine ⟨?_, hlen.trans hlength, hbuflen, hread, ?_⟩
    · have htake : (s.readbuf.take s.writepos).length = s.writepos := by
        rw [List.length_take]
        omega
      rw [hunread, ← List.append_assoc]
      congr 1
      unfold unread
      dsimp only
      rw [List.take_append_of_le_length (by rw [List.length_append]; omega),
        List.take_of_length_le (by rw [List.length_append]; omega),
        List.drop_append_of_le_length (by omega)]
    · rw [hwrite, List.length_append]
      exact Nat.add_assoc _ _ _

theorem backUp_front (h : s.readpos = 0) : s.backUp = .ok s := by
  rw [backUp, if_neg (by omega)]

theorem backUp_spec (h : s.Consistent) (hpos : 0 < s.readpos) (hle : s.available ≤ s.readpos) :
    ∃ s', s.backUp = .ok s' ∧ s'.unread = s.unread ++ s.leftBehind ∧ s'.Consistent ∧
      s'.writepos = s.writepos ∧ s'.readbuflen = s.readbuflen := by
  have hread := h.read_le
  have hwrite := h.write_le
  have halloc := h.allocated
  have havail : s.available = s.writepos - s.readpos := rfl
  have hfront : ((s.readbuf.drop s.readpos).take s.available).length = s.available := by
    rw [List.length_take, List.length_drop]
    omega
  refine ⟨{ s with
    readbuf := (s.readbuf.drop s.readpos).take s.available ++ s.readbuf.drop s.available
    readpos := 0
    writepos := s.writepos - 0 }, ?_, ?_, ⟨Nat.zero_le _, hwrite, ?_⟩, rfl, rfl⟩
  · rw [backUp, if_pos hpos, if_neg (by omega)]
  · unfold unread leftBehind
    dsimp only
    rw [List.drop_zero, Nat.sub_zero, List.take_append, List.take_of_length_le (by omega), hfront,
      List.drop_take, List.drop_take]
    rfl
  · dsimp only
    rw [List.length_append, hfront, List.length_drop]
    omega

theorem grow_fill_spec (h : s.Consistent) (buckets : List (List UInt8)) :
    ((s.grow buckets.flatten.length).fill buckets).unread = s.unread ++ buckets.flatten ∧
      (((s.grow buckets.flatten.length).fill buckets).Consistent ↔
        buckets.flatten.length ≤ s.readbuflen - s.writepos) := by
  have hread := h.read_le
  have hwrite := h.write_le
  have halloc := h.allocated
  unfold grow
  split
  · next hlarge =>
    have hlen : (s.readbuf.take (s.writepos + buckets.flatten.length + s.chunk_size) ++
        List.replicate (s.writepos + buckets.flatten.length + s.chunk_size - s.readbuf.length)
          (0 : UInt8)).length = s.writepos + buckets.flatten.length + s.chunk_size := by
      rw [List.length_append, List.length_take, List.length_replicate]
      omega
    generalize hbuf : s.readbuf.take (s.writepos + buckets.flatten.length + s.chunk_size) ++
      List.replicate (s.writepos + buckets.flatten.length + s.chunk_size - s.readbuf.length)
        (0 : UInt8) = readbuf at hlen ⊢
    have htake : readbuf.take s.writepos = s.readbuf.take s.writepos := by
      rw [← hbuf, List.take_append_of_le_length (by rw [List.length_take]; omega), List.take_take,
        Nat.min_eq_left (by omega)]
    obtain ⟨hunread, hlength, hbuflen, -, -⟩ :=
      fill_spec (s := { s with readbuf := readbuf }) hread buckets (by dsimp only; omega)
    refine ⟨?_, ?_⟩
    · rw [hunread]
      unfold unread
      dsimp only
      rw [htake]
    · constructor
      · intro hcons
        have hknown := hcons.allocated
        rw [hbuflen, hlength] at hknown
        dsimp only at hknown
        omega
      · intro hfits
        omega
  · next hfits =>
    obtain ⟨hunread, hlength, hbuflen, hreadpos, hwritepos⟩ :=
      fill_spec hread buckets (by omega)
    refine ⟨hunread, ⟨fun _ => by omega, fun _ => ⟨?_, ?_, ?_⟩⟩⟩
    · omega
    · omega
    · omega

end BufferedStream

/-- What the stream was given, if it can be written to. -/
def givenTo (ops : Option (WriteOps σ)) (s : σ) : List UInt8 :=
  match ops with
  | none => []
  | some ops => ops.written s

/-- A flush on the read chain leaves what was held behind the unread bytes, in a buffer whose size
is known; on the write chain it gives it to the stream. -/
def FlushRight (s : BufferedStream σ) (chain : FilterChain) (filter : φ) (later : List φ)
    (finish : Bool) : Prop :=
  ∃ success filter' s',
    filterFlush fops ops s (some chain) filter later finish = .ok (success, filter', s') ∧
      match chain with
      | .readfilters => s'.unread = s.unread ++ heldData fops filter later finish ∧ s'.Consistent
      | .writefilters => givenTo ops s'.abstract =
          givenTo ops s.abstract ++ heldData fops filter later finish

/-- When that is so: the buckets that the filter gives when it is run again, behind the bytes that
are left at the front of the buffer, are what the later filters would make of the held data, and the
buffer has space for them; what a stream takes of them is what they would make. -/
def FlushFits (s : BufferedStream σ) (chain : FilterChain) (filter : φ) (later : List φ)
    (finish : Bool) : Prop :=
  let repeated := repeatedBrigade fops filter later finish
  let held := heldData fops filter later finish
  match chain, ops with
  | .readfilters, _ => (passedBytes repeated = [] ∧ held = []) ∨
      (passedBytes repeated ≠ [] ∧ (s.readpos = 0 ∨ s.available ≤ s.readpos) ∧
        s.leftBehind ++ passedBytes repeated = held ∧
        (passedBytes repeated).length ≤ s.readbuflen - s.writepos)
  | .writefilters, none => passedBytes repeated = [] ∧ held = []
  | .writefilters, some ops => taken ops s.abstract (repeated.getD []) = held

variable {fops ops} {s : BufferedStream σ} {filter : φ} {later : List φ} {finish : Bool}
  {chain : FilterChain}

theorem filterFlush_nothing (ops : Option (WriteOps σ)) (s : BufferedStream σ)
    (chain : FilterChain)
    (h : passedBytes (repeatedBrigade fops filter later finish) = []) :
    ∃ success filter',
      filterFlush fops ops s (some chain) filter later finish = .ok (success, filter', s) := by
  unfold repeatedBrigade at h
  unfold filterFlush
  dsimp only at h ⊢
  generalize flushLoop fops filter (if finish = true then .flushClose else .flushInc) []
    (filter :: later) = r at h ⊢
  split
  · exact ⟨_, _, rfl⟩
  split
  · exact ⟨_, _, rfl⟩
  · next hfeed hfatal =>
    have hpass : r.status = .passOn := by
      cases hstatus : r.status with
      | errFatal => exact absurd hstatus hfatal
      | feedMe => exact absurd hstatus hfeed
      | passOn => rfl
    rw [if_pos hpass] at h
    have hsize : (r.out.map List.length).sum = 0 := by
      rw [← List.length_flatten]
      exact congrArg List.length h
    rw [if_pos hsize]
    exact ⟨_, _, rfl⟩

theorem filterFlush_some (ops : Option (WriteOps σ)) (s : BufferedStream σ) (chain : FilterChain)
    (h : passedBytes (repeatedBrigade fops filter later finish) ≠ []) :
    ∃ filter' buckets, repeatedBrigade fops filter later finish = some buckets ∧
      filterFlush fops ops s (some chain) filter later finish = do
        let s ← deliver ops s chain buckets.flatten.length buckets
        return (true, filter', s) := by
  unfold repeatedBrigade at h ⊢
  unfold filterFlush
  dsimp only at h ⊢
  generalize flushLoop fops filter (if finish = true then .flushClose else .flushInc) []
    (filter :: later) = r at h ⊢
  split at h
  · next hpass =>
    have hsize : (r.out.map List.length).sum = r.out.flatten.length := List.length_flatten.symm
    have hpos : r.out.flatten.length ≠ 0 := fun hzero => h (List.eq_nil_of_length_eq_zero hzero)
    refine ⟨r.filter, r.out, if_pos hpass, ?_⟩
    rw [if_neg (by rw [hpass]; decide), if_neg (by rw [hpass]; decide), hsize, if_neg hpos]
  · exact absurd rfl h

theorem BufferedStream.Consistent.backUp_iff (h : s.Consistent) :
    (∃ s', s.backUp = .ok s' ∧ s'.unread = s.unread ++ s.leftBehind ∧ s'.Consistent ∧
      s'.writepos = s.writepos ∧ s'.readbuflen = s.readbuflen) ↔
        s.readpos = 0 ∨ s.available ≤ s.readpos := by
  constructor
  · rintro ⟨s', hback, -⟩
    by_contra hneither
    rw [BufferedStream.backUp, if_pos (by omega), if_pos (by omega)] at hback
    cases hback
  · intro hor
    by_cases hpos : s.readpos = 0
    · have hleft : s.leftBehind = [] := by
        apply List.eq_nil_of_length_eq_zero
        rw [h.leftBehind_length, hpos]
      refine ⟨s, BufferedStream.backUp_front hpos, ?_, h, rfl, rfl⟩
      rw [hleft, List.append_nil]
    · exact BufferedStream.backUp_spec h (by omega) (by omega)

theorem deliver_read_iff (h : s.Consistent) (buckets : List (List UInt8)) (held : List UInt8) :
    (∃ s', deliver ops s .readfilters buckets.flatten.length buckets = .ok s' ∧
      s'.unread = s.unread ++ held ∧ s'.Consistent) ↔
        (s.readpos = 0 ∨ s.available ≤ s.readpos) ∧ s.leftBehind ++ buckets.flatten = held ∧
          buckets.flatten.length ≤ s.readbuflen - s.writepos := by
  unfold deliver
  dsimp only
  by_cases hmove : s.readpos = 0 ∨ s.available ≤ s.readpos
  · obtain ⟨s1, hback, hunread, hcons, hwritepos, hbuflen⟩ := h.backUp_iff.mpr hmove
    obtain ⟨hfilled, hknown⟩ := BufferedStream.grow_fill_spec hcons buckets
    rw [hwritepos, hbuflen] at hknown
    rw [hunread, List.append_assoc] at hfilled
    rw [hback]
    constructor
    · rintro ⟨s', hs', hheld, hcons'⟩
      obtain rfl := Except.ok.inj hs'
      rw [hfilled] at hheld
      exact ⟨hmove, List.append_cancel_left hheld, hknown.mp hcons'⟩
    · rintro ⟨-, rfl, hfits⟩
      exact ⟨_, rfl, hfilled, hknown.mpr hfits⟩
  · constructor
    · rintro ⟨s', hs', -⟩
      rw [BufferedStream.backUp, if_pos (by omega), if_pos (by omega)] at hs'
      cases hs'
    · rintro ⟨hor, -⟩
      exact absurd hor hmove

theorem flushRight_iff_nothing (h : s.Consistent)
    (hnothing : passedBytes (repeatedBrigade fops filter later finish) = []) :
    FlushRight fops ops s chain filter later finish ↔
      heldData fops filter later finish = [] := by
  obtain ⟨success, filter', hflush⟩ := filterFlush_nothing ops s chain hnothing
  unfold FlushRight
  rw [hflush]
  constructor
  · rintro ⟨_, _, s', heq, hright⟩
    obtain rfl := congrArg (fun r => r.2.2) (Except.ok.inj heq)
    cases chain with
    | readfilters => exact List.self_eq_append_right.mp hright.1
    | writefilters => exact List.self_eq_append_right.mp hright
  · intro hheld
    refine ⟨_, _, _, rfl, ?_⟩
    rw [hheld, List.append_nil, List.append_nil]
    cases chain with
    | readfilters => exact ⟨rfl, h⟩
    | writefilters => rfl

theorem flushRight_iff_deliver {buckets : List (List UInt8)}
    (hbuckets : repeatedBrigade fops filter later finish = some buckets)
    (hne : buckets.flatten ≠ []) :
    FlushRight fops ops s chain filter later finish ↔
      ∃ s', deliver ops s chain buckets.flatten.length buckets = .ok s' ∧
        match chain with
        | .readfilters => s'.unread = s.unread ++ heldData fops filter later finish ∧ s'.Consistent
        | .writefilters => givenTo ops s'.abstract =
            givenTo ops s.abstract ++ heldData fops filter later finish := by
  have hsome : passedBytes (repeatedBrigade fops filter later finish) ≠ [] := by
    rw [hbuckets]
    exact hne
  obtain ⟨filter', buckets', hbuckets', hflush⟩ := filterFlush_some ops s chain hsome
  obtain rfl := Option.some.inj (hbuckets.symm.trans hbuckets')
  rw [FlushRight, hflush]
  constructor
  · rintro ⟨_, _, s', heq, hright⟩
    obtain ⟨s1, hdeliver, hs1⟩ := bind_eq_ok heq
    obtain rfl := congrArg (fun r => r.2.2) (Except.ok.inj hs1)
    exact ⟨s1, hdeliver, hright⟩
  · rintro ⟨s', hdeliver, hright⟩
    rw [hdeliver]
    exact ⟨_, _, _, rfl, hright⟩

theorem deliver_write_iff (buckets : List (List UInt8)) (held : List UInt8) :
    (∃ s', deliver ops s .writefilters buckets.flatten.length buckets = .ok s' ∧
      givenTo ops s'.abstract = givenTo ops s.abstract ++ held) ↔
        ∃ writer, ops = some writer ∧ taken writer s.abstract buckets = held := by
  cases ops with
  | none =>
    constructor
    · rintro ⟨s', heq, -⟩
      cases heq
    · rintro ⟨writer, heq, -⟩
      cases heq
  | some writer =>
    have hwritten := written_writeBuckets writer s.abstract buckets
    constructor
    · rintro ⟨s', heq, hright⟩
      obtain rfl := Except.ok.inj heq
      exact ⟨writer, rfl, List.append_cancel_left (hwritten.symm.trans hright)⟩
    · rintro ⟨writer', heq, rfl⟩
      obtain rfl := Option.some.inj heq
      exact ⟨_, rfl, hwritten⟩

/-- A filter that keeps what it is given until it is flushed. -/
def keeper (kept : List UInt8) (flags : FilterFlags) (inp : List (List UInt8)) :
    FilterReturn (List UInt8) :=
  if flags = .normal then ⟨.feedMe, [], kept ++ inp.flatten⟩
  else ⟨.passOn, [kept ++ inp.flatten], []⟩

end PhpRuntime.Streams
