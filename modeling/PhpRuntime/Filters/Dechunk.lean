import Mathlib.Data.List.Basic
import PhpRuntime.Lib.ByteBuffer
import PhpRuntime.Lib.ChunkedCoding

/-!
# The filter `dechunk`

`php_dechunk` decodes a chunked body in place, one buffer at a time. A case of its `switch` is one
definition here, and a case that falls through calls the definition of the next one.
-/

set_option autoImplicit false

namespace PhpRuntime.Filters

open PhpRuntime.Lib

/-- `php_chunked_filter_state`. -/
inductive ChunkState where
  | CHUNK_SIZE_START
  | CHUNK_SIZE
  | CHUNK_SIZE_EXT
  | CHUNK_SIZE_CR
  | CHUNK_SIZE_LF
  | CHUNK_BODY
  | CHUNK_BODY_CR
  | CHUNK_BODY_LF
  | CHUNK_TRAILER
  | CHUNK_ERROR
  deriving DecidableEq, Repr

open ChunkState

/-- `php_chunked_filter_data`: what stays from one buffer to the next. -/
structure ChunkedFilterData where
  state : ChunkState
  chunk_size : ℕ
  deriving DecidableEq, Repr

/-- As `chunked_filter_create` makes it. -/
def ChunkedFilterData.create : ChunkedFilterData where
  state := CHUNK_SIZE_START
  chunk_size := 0

/-- A call `memmove(out, p, n)`. -/
structure Memmove where
  out : ℕ
  p : ℕ
  n : ℕ
  deriving DecidableEq, Repr

/-- The variables of `php_dechunk`. The pointers are indices of `buf`. `moves` are the calls of
`memmove` made so far, the last one first. -/
structure Dechunk where
  buf : ByteBuffer
  p : ℕ
  out : ℕ
  out_len : ℕ
  data : ChunkedFilterData
  moves : List Memmove

/-- How the `switch` is left: to the head of the loop, or by a `return out_len`. -/
inductive Flow where
  | again (d : Dechunk)
  | done (d : Dechunk)

namespace Dechunk

/-- `*p` -/
def byte (d : Dechunk) : UInt8 := d.buf.cell d.p

def setState (d : Dechunk) (state : ChunkState) : Dechunk :=
  { d with data := { d.data with state := state } }

/-- `p++` -/
def next (d : Dechunk) : Dechunk := { d with p := d.p + 1 }

/-- `if (p != out) memmove(out, p, n);` -/
def move (d : Dechunk) (n : ℕ) : Dechunk :=
  if d.p = d.out then d
  else
    { d with
      buf := d.buf.copy d.out (d.buf.bytes d.p n)
      moves := ⟨d.out, d.p, n⟩ :: d.moves }

/-- The digits in `CHUNK_SIZE`: `k` bytes are left. `size_t` is kept modulo `2 ^ 64`. -/
def sizeLoop : ℕ → Dechunk → Dechunk
  | 0, d => d
  | k + 1, d =>
    match Chunked.hexValue d.byte with
    | some v =>
      sizeLoop k
        { d with
          p := d.p + 1
          data :=
            { state := CHUNK_SIZE
              chunk_size := (d.data.chunk_size * 16 + v) % Chunked.sizeLimit } }
    | none =>
      if d.data.state = CHUNK_SIZE_START then d.setState CHUNK_ERROR
      else d.setState CHUNK_SIZE_EXT

/-- The bytes of an extension: `k` bytes are left. -/
def extLoop : ℕ → Dechunk → Dechunk
  | 0, d => d
  | k + 1, d =>
    if d.byte ≠ Chunked.cr ∧ d.byte ≠ Chunked.lf then extLoop k d.next else d

variable (stop : ℕ)

def caseError (d : Dechunk) : Flow :=
  let moved := d.move (stop - d.p)
  .done { moved with out_len := d.out_len + (stop - d.p) }

def caseTrailer (d : Dechunk) : Flow := .again { d with p := stop }

def caseBodyLf (d : Dechunk) : Flow :=
  if d.byte = Chunked.lf then .again (d.next.setState CHUNK_SIZE_START)
  else .again (d.setState CHUNK_ERROR)

def caseBodyCr (d : Dechunk) : Flow :=
  if d.byte = Chunked.cr then
    if d.p + 1 = stop then .done (d.next.setState CHUNK_BODY_LF) else caseBodyLf d.next
  else caseBodyLf d

def bodyEnd (d : Dechunk) : Dechunk :=
  let moved := d.move d.data.chunk_size
  { moved with
    out := d.out + d.data.chunk_size
    out_len := d.out_len + d.data.chunk_size
    p := d.p + d.data.chunk_size }

def bodyPart (d : Dechunk) : Dechunk :=
  let moved := d.move (stop - d.p)
  { moved with
    data :=
      { state := CHUNK_BODY
        chunk_size := d.data.chunk_size - (stop - d.p) }
    out_len := d.out_len + (stop - d.p) }

def caseBody (d : Dechunk) : Flow :=
  if d.data.chunk_size ≤ stop - d.p then
    if d.p + d.data.chunk_size = stop then .done (d.bodyEnd.setState CHUNK_BODY_CR)
    else caseBodyCr stop d.bodyEnd
  else .done (d.bodyPart stop)

def caseSizeLf (d : Dechunk) : Flow :=
  if d.byte = Chunked.lf then
    if d.data.chunk_size = 0 then .again (d.next.setState CHUNK_TRAILER)
    else if d.p + 1 = stop then .done (d.next.setState CHUNK_BODY)
    else caseBody stop d.next
  else .again (d.setState CHUNK_ERROR)

def caseSizeCr (d : Dechunk) : Flow :=
  if d.byte = Chunked.cr then
    if d.p + 1 = stop then .done (d.next.setState CHUNK_SIZE_LF) else caseSizeLf stop d.next
  else caseSizeLf stop d

def caseSizeExt (d : Dechunk) : Flow :=
  let skipped := extLoop (stop - d.p) d
  if skipped.p = stop then .done skipped else caseSizeCr stop skipped

def caseSize (d : Dechunk) : Flow :=
  let sized := sizeLoop (stop - d.p) d
  if sized.data.state = CHUNK_ERROR then .again sized
  else if sized.p = stop then .done sized
  else caseSizeExt stop sized

def caseSizeStart (d : Dechunk) : Flow :=
  caseSize stop { d with data := { d.data with chunk_size := 0 } }

/-- `switch (data->state)` -/
def dispatch (d : Dechunk) : Flow :=
  match d.data.state with
  | CHUNK_SIZE_START => caseSizeStart stop d
  | CHUNK_SIZE => caseSize stop d
  | CHUNK_SIZE_EXT => caseSizeExt stop d
  | CHUNK_SIZE_CR => caseSizeCr stop d
  | CHUNK_SIZE_LF => caseSizeLf stop d
  | CHUNK_BODY => caseBody stop d
  | CHUNK_BODY_CR => caseBodyCr stop d
  | CHUNK_BODY_LF => caseBodyLf d
  | CHUNK_TRAILER => caseTrailer stop d
  | CHUNK_ERROR => caseError stop d

/-- `while (p < end)`. There is no result when the fuel is used up. -/
def loop : ℕ → Dechunk → Option Dechunk
  | 0, _ => none
  | fuel + 1, d =>
    if d.p < stop then
      match dispatch stop d with
      | .again d' => loop fuel d'
      | .done d' => some d'
    else some d

end Dechunk

/-- A bucket: a buffer and the number of bytes in it. -/
structure Bucket where
  buf : ByteBuffer
  buflen : ℕ

def Bucket.content (bucket : Bucket) : List UInt8 := bucket.buf.bytes 0 bucket.buflen

/-- Every round of the loop but one reads a byte. -/
def php_dechunk (bucket : Bucket) (data : ChunkedFilterData) : Option Dechunk :=
  Dechunk.loop bucket.buflen (bucket.buflen + 2)
    { buf := bucket.buf, p := 0, out := 0, out_len := 0, data := data, moves := [] }

/-- The filter after some buckets: the buckets put out, the bytes consumed, its data, and the
calls of `memmove` made. -/
structure FilterRun where
  buckets_out : List Bucket
  consumed : ℕ
  data : ChunkedFilterData
  moves : List Memmove

/-- The loop of `php_chunked_filter` over the buckets of a brigade. -/
def php_chunked_filter : ChunkedFilterData → List Bucket → Option FilterRun
  | data, [] => some ⟨[], 0, data, []⟩
  | data, bucket :: buckets => do
    let d ← php_dechunk bucket data
    let rest ← php_chunked_filter d.data buckets
    return {
      buckets_out := ⟨d.buf, d.out_len⟩ :: rest.buckets_out
      consumed := bucket.buflen + rest.consumed
      data := rest.data
      moves := d.moves ++ rest.moves }

def contents (buckets : List Bucket) : List UInt8 := buckets.flatMap Bucket.content

end PhpRuntime.Filters
