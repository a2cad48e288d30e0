import Mathlib.Data.Int.Notation
import PhpRuntime.Lib.FileCursor

/-!
# Streams

`main/streams/streams.c`: the read buffer of a stream without filters, and reading, reading
a line or a record, writing and seeking through it. The operations of the stream
(`php_stream_ops`) are those of a seekable stream over a file; `ByteFile` says what they
do. Lengths and positions are taken to be below 2^63.
-/

set_option autoImplicit false

namespace PhpRuntime.Streams

open PhpRuntime.Lib

/-- `SEEK_SET`, `SEEK_CUR` and `SEEK_END`. -/
inductive Whence where
  | seekSet
  | seekCur
  | seekEnd
  deriving DecidableEq, Repr

/-- The offset that a seek asks for, in a file of `size` bytes. -/
def Whence.target (position size offset : ℤ) : Whence → ℤ
  | seekSet => offset
  | seekCur => position + offset
  | seekEnd => size + offset

/-- `php_stream_ops` over a file: `contents` and `offset` are what the state of the file stands
for. `read` gives any bytes but none only at the end, and sets the `eof` flag of the stream in
any way; `write` writes everything; `seek` returns 0 and the new offset for the offsets that are
valid, among which are those up to the end. -/
structure ByteFile (σ : Type) where
  contents : σ → List UInt8
  offset : σ → ℕ
  valid : ℕ → ℕ → Bool
  read : σ → Bool → ℕ → List UInt8 × Bool × σ
  write : σ → List UInt8 → ℕ × σ
  seek : σ → ℤ → Whence → ℤ × ℤ × σ
  valid_of_le : ∀ size offset, offset ≤ size → valid size offset = true
  read_prefix : ∀ s eof n, (read s eof n).1 <+: (contents s).drop (offset s)
  read_length : ∀ s eof n, (read s eof n).1.length ≤ n
  read_nonempty : ∀ s eof n, 0 < n → (contents s).drop (offset s) ≠ [] → (read s eof n).1 ≠ []
  read_contents : ∀ s eof n, contents (read s eof n).2.2 = contents s
  read_offset : ∀ s eof n, offset (read s eof n).2.2 = offset s + (read s eof n).1.length
  write_length : ∀ s bytes, (write s bytes).1 = bytes.length
  write_contents : ∀ s bytes,
    contents (write s bytes).2 = overwrite 0 (contents s) (offset s) bytes
  write_offset : ∀ s bytes, offset (write s bytes).2 = offset s + bytes.length
  seek_valid : ∀ s off whence target, whence.target (offset s) (contents s).length off = target →
    valid (contents s).length target.toNat = true → 0 ≤ target →
      (seek s off whence).1 = 0 ∧ (seek s off whence).2.1 = target ∧
        contents (seek s off whence).2.2 = contents s ∧
        (offset (seek s off whence).2.2 : ℤ) = target

/-- What the functions below do not change of a stream: its chunk size, which is set from an
`int`, whether `PHP_STREAM_FLAG_NO_BUFFER` and `PHP_STREAM_FLAG_EOL_MAC` are set (and
`PHP_STREAM_FLAG_DETECT_EOL` is not), and whether its wrapper is `php_plain_files_wrapper`. -/
structure Options where
  chunk_size : ℕ
  no_buffer : Bool
  eol_mac : Bool
  plain_files : Bool
  chunk_pos : 0 < chunk_size
  chunk_le : chunk_size ≤ 2147483647

/-- `php_stream`. The length of `readbuf` is `readbuflen`. -/
structure Stream (σ : Type) where
  abstract : σ
  readbuf : List UInt8
  readpos : ℕ
  writepos : ℕ
  position : ℤ
  eof : Bool

variable {σ : Type}

/-- The conversion of a `size_t` to `int`. -/
def toInt (n : ℕ) : ℤ := Int.bmod n 4294967296

namespace Stream

/-- `stream->writepos - stream->readpos`. -/
def available (s : Stream σ) : ℕ := s.writepos - s.readpos

/-- The bytes in the read buffer from `readpos` to `writepos`. -/
def buffered (s : Stream σ) : List UInt8 := (s.readbuf.take s.writepos).drop s.readpos

/-- Bytes that have been copied from the read buffer are behind the position. -/
def consume (s : Stream σ) (n : ℕ) : Stream σ :=
  { s with readpos := s.readpos + n, position := s.position + n }

/-- The buffered bytes are moved to the front of the buffer. -/
def moveToFront (s : Stream σ) : Stream σ :=
  { s with
    readbuf := s.readbuf.drop s.readpos ++ s.readbuf.drop (s.readbuf.length - s.readpos)
    writepos := s.writepos - s.readpos
    readpos := 0 }

end Stream

variable (file : ByteFile σ) (o : Options)

/-- The buffer of a stream with space for another chunk. Nothing reads the new bytes before they
are written. -/
def makeSpace (s : Stream σ) : Stream σ :=
  let s :=
    if s.readbuf ≠ [] ∧ s.readbuf.length - s.writepos < o.chunk_size then s.moveToFront else s
  if s.readbuf.length - s.writepos < o.chunk_size then
    { s with readbuf := s.readbuf ++ List.replicate o.chunk_size 0 }
  else s

/-- `php_stream_fill_read_buffer`, without filters. -/
def fillReadBuffer (s : Stream σ) (size : ℕ) : Stream σ :=
  if s.available < size then
    let s := makeSpace o s
    let r := file.read s.abstract s.eof (s.readbuf.length - s.writepos)
    { s with
      abstract := r.2.2
      eof := r.2.1
      readbuf := s.readbuf.take s.writepos ++ r.1 ++ s.readbuf.drop (s.writepos + r.1.length)
      writepos := s.writepos + r.1.length }
  else s

/-! ## Reading -/

/-- One way through the loop of `_php_stream_read`: what comes from the read buffer and what is
read then, if bytes are missing. -/
def readOnce (s : Stream σ) (size : ℕ) : List UInt8 × List UInt8 × Stream σ :=
  let front := s.buffered.take size
  let s := { s with readpos := s.readpos + front.length }
  let size := size - front.length
  if size = 0 then (front, [], s)
  else if o.no_buffer ∨ o.chunk_size = 1 then
    let r := file.read s.abstract s.eof size
    (front, r.1, { s with abstract := r.2.2, eof := r.2.1 })
  else
    let s := fillReadBuffer file o s size
    let bytes := s.buffered.take size
    (front, bytes, { s with readpos := s.readpos + bytes.length })

/-- The loop of `_php_stream_read`. -/
def readLoop : ℕ → Stream σ → ℕ → List UInt8 × Stream σ
  | 0, s, _ => ([], s)
  | n + 1, s, size =>
    if 0 < size then
      let r := readOnce file o s size
      let bytes := r.1 ++ r.2.1
      if r.2.1 ≠ [] ∧ o.plain_files then
        let rest := readLoop n r.2.2 (size - bytes.length)
        (bytes ++ rest.1, rest.2)
      else (bytes, r.2.2)
    else ([], s)

/-- `_php_stream_read`. -/
def streamRead (s : Stream σ) (size : ℕ) : List UInt8 × Stream σ :=
  let r := readLoop file o size s size
  (r.1, { r.2 with position := r.2.position + r.1.length })

def Options.eol : UInt8 := if o.eol_mac then 13 else 10

/-- `php_stream_locate_eol` in the read buffer: how many bytes are before it. -/
def locateEol (s : Stream σ) : Option ℕ := s.buffered.findIdx? fun c => c = o.eol

/-- How many bytes of the read buffer are up to the end of the line, and whether it is there. -/
def eolLength (s : Stream σ) : ℕ × Bool :=
  match locateEol o s with
  | some i => (i + 1, true)
  | none => (s.available, false)

/-- How many bytes of the read buffer `_php_stream_get_line` copies, and whether it is done then.
`maxlen` is `none` in grow mode. -/
def lineLength (s : Stream σ) : Option ℕ → ℕ × Bool
  | none => eolLength o s
  | some m => if m - 1 ≤ (eolLength o s).1 then (m - 1, true) else eolLength o s

/-- The loop of `_php_stream_get_line`. -/
def lineLoop : ℕ → Stream σ → Option ℕ → List UInt8 × Stream σ
  | 0, s, _ => ([], s)
  | n + 1, s, maxlen =>
    if 0 < s.available then
      let cpysz := lineLength o s maxlen
      let bytes := s.buffered.take cpysz.1
      let s := s.consume cpysz.1
      if cpysz.2 then (bytes, s)
      else
        let rest := lineLoop n s (maxlen.map (· - cpysz.1))
        (bytes ++ rest.1, rest.2)
    else if s.eof then ([], s)
    else
      let toread := match maxlen with
        | none => o.chunk_size
        | some m => min (m - 1) o.chunk_size
      let s := fillReadBuffer file o s toread
      if s.available = 0 then ([], s) else lineLoop n s maxlen

/-- `_php_stream_get_line`, with a buffer of `maxlen` bytes or none. Every second time round the
loop copies bytes of the file. -/
def getLine (s : Stream σ) (maxlen : Option ℕ) : Option (List UInt8) × Stream σ :=
  if maxlen = some 0 then (none, s)
  else
    let r := lineLoop file o (2 * (file.contents s.abstract).length + 2) s maxlen
    (if r.1 = [] then none else some r.1, r.2)

/-- `php_memnstr`, and `memchr` for one byte. -/
def memnstr (haystack needle : List UInt8) : Option ℕ :=
  (List.range (haystack.length + 1)).find? fun i => needle.isPrefixOf (haystack.drop i)

/-- `_php_stream_search_delim`: how far from `readpos` the delimiter is. -/
def searchDelim (s : Stream σ) (maxlen skiplen : ℕ) (delim : List UInt8) : Option ℕ :=
  let seek_len := min s.available maxlen
  if seek_len ≤ skiplen then none
  else (memnstr ((s.buffered.take seek_len).drop skiplen) delim).map (skiplen + ·)

/-- The search for a delimiter, if there is one. -/
def findDelim (s : Stream σ) (maxlen skiplen : ℕ) (delim : List UInt8) : Option ℕ :=
  if delim = [] then none else searchDelim s maxlen skiplen delim

/-- The loop of `php_stream_get_record`. -/
def recordLoop (maxlen : ℕ) (delim : List UInt8) :
    ℕ → Stream σ → ℕ → Option ℕ × Stream σ
  | 0, s, _ => (none, s)
  | n + 1, s, buffered_len =>
    if buffered_len < maxlen then
      let to_read_now := min (maxlen - buffered_len) o.chunk_size
      let s := fillReadBuffer file o s (buffered_len + to_read_now)
      let just_read := s.available - buffered_len
      if just_read = 0 then (none, s)
      else
        match findDelim s maxlen (buffered_len - (delim.length - 1)) delim with
        | some i => (some i, s)
        | none => recordLoop maxlen delim n s (buffered_len + just_read)
    else (none, s)

/-- The delimiter that `php_stream_get_record` finds, in the read buffer or in what it reads. -/
def foundDelim (s : Stream σ) (maxlen : ℕ) (delim : List UInt8) : Option ℕ × Stream σ :=
  match findDelim s maxlen 0 delim with
  | some i => (some i, s)
  | none => recordLoop file o maxlen delim maxlen s s.available

/-- `tent_ret_len`, or nothing if there is no record yet. -/
def recordLength (s : Stream σ) (maxlen : ℕ) (delim : List UInt8) : Option ℕ → Option ℕ
  | some i => some i
  | none =>
    if delim = [] ∧ maxlen ≤ s.available then some maxlen
    else if s.available < maxlen ∧ ¬ s.eof then none
    else if s.available = 0 ∧ s.eof then none
    else some (min s.available maxlen)

/-- `php_stream_get_record`. -/
def getRecord (s : Stream σ) (maxlen : ℕ) (delim : List UInt8) :
    Option (List UInt8) × Stream σ :=
  if maxlen = 0 then (none, s)
  else
    let r := foundDelim file o s maxlen delim
    match recordLength r.2 maxlen delim r.1 with
    | none => (none, r.2)
    | some tent_ret_len =>
      let ret := streamRead file o r.2 tent_ret_len
      (some ret.1, if r.1.isSome then ret.2.consume delim.length else ret.2)

/-! ## Writing and seeking -/

def Stream.invalidate (s : Stream σ) : Stream σ := { s with readpos := 0, writepos := 0 }

/-- `stream->ops->seek` with `&stream->position`. -/
def opsSeek (s : Stream σ) (offset : ℤ) (whence : Whence) : ℤ × Stream σ :=
  let r := file.seek s.abstract offset whence
  (r.1, { s with abstract := r.2.2, position := r.2.1 })

/-- The loop of `_php_stream_write_buffer`. -/
def writeLoop : ℕ → Stream σ → List UInt8 → ℕ × Stream σ
  | 0, s, _ => (0, s)
  | n + 1, s, buf =>
    if buf = [] then (0, s)
    else
      let r := file.write s.abstract (buf.take o.chunk_size)
      let s := { s with abstract := r.2 }
      if 0 < toInt r.1 then
        let rest := writeLoop n { s with position := s.position + r.1 } (buf.drop r.1)
        (r.1 + rest.1, rest.2)
      else (0, s)

/-- `_php_stream_write` and `_php_stream_write_buffer`. -/
def streamWrite (s : Stream σ) (buf : List UInt8) : ℕ × Stream σ :=
  if buf = [] then (0, s)
  else
    let s := if s.readpos ≠ s.writepos then (opsSeek file s.invalidate s.position .seekSet).2 else s
    writeLoop file o buf.length s buf

/-- How far a seek moves in the read buffer, if it stays there. -/
def seekInBuffer (s : Stream σ) (offset : ℤ) : Whence → Option ℤ
  | .seekCur => if 0 < offset ∧ offset ≤ s.available then some offset else none
  | .seekSet =>
    if s.position < offset ∧ offset ≤ s.position + s.available then some (offset - s.position)
    else none
  | .seekEnd => none

/-- `_php_stream_seek`. -/
def streamSeek (s : Stream σ) (offset : ℤ) (whence : Whence) : ℤ × Stream σ :=
  match if o.no_buffer then none else seekInBuffer s offset whence with
  | some d => (0, { s.consume d.toNat with eof := false })
  | none =>
    let (offset, whence) := match whence with
      | .seekCur => (s.position + offset, .seekSet)
      | _ => (offset, whence)
    let r := opsSeek file s offset whence
    (r.1, { r.2 with eof := if r.1 = 0 then false else r.2.eof }.invalidate)

/-- `_php_stream_tell`. -/
def streamTell (s : Stream σ) : ℤ := s.position

end PhpRuntime.Streams
