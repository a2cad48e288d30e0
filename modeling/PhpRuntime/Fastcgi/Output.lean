import Mathlib.Data.List.Basic
import Mathlib.Data.Int.Notation
import PhpRuntime.Lib.ByteBuffer
import PhpRuntime.Lib.RecordStream

/-!
# The output of a FastCGI request

`fcgi_write` and `fcgi_flush` with the output buffer of a request. The pointers into `out_buf` are
indices: the `8192` bytes of `out_buf` come first, and the `16` bytes of `reserved` are behind them.
-/

set_option autoImplicit false

namespace PhpRuntime.Fastcgi

open PhpRuntime.Lib

/-- `fcgi_request_type` -/
inductive RequestType where
  | FCGI_BEGIN_REQUEST
  | FCGI_ABORT_REQUEST
  | FCGI_END_REQUEST
  | FCGI_PARAMS
  | FCGI_STDIN
  | FCGI_STDOUT
  | FCGI_STDERR
  | FCGI_DATA
  | FCGI_GET_VALUES
  | FCGI_GET_VALUES_RESULT
  deriving DecidableEq, Repr

namespace RequestType

def code : RequestType → UInt8
  | FCGI_BEGIN_REQUEST => 1
  | FCGI_ABORT_REQUEST => 2
  | FCGI_END_REQUEST => 3
  | FCGI_PARAMS => 4
  | FCGI_STDIN => 5
  | FCGI_STDOUT => 6
  | FCGI_STDERR => 7
  | FCGI_DATA => 8
  | FCGI_GET_VALUES => 9
  | FCGI_GET_VALUES_RESULT => 10

end RequestType

open RequestType

/-- `sizeof(req->out_buf)` -/
def outBufSize : ℕ := 8192

/-- `sizeof(fcgi_header)` -/
def headerSize : ℕ := 8

/-- `sizeof(fcgi_end_request_rec)`, the size of `reserved`. -/
def endRequestSize : ℕ := 16

/-- A request with its output: what is sent on the socket, and how many times it is written to. -/
structure Request where
  id : ℕ
  keep : Bool
  out_hdr : Option ℕ
  out_pos : ℕ
  out_buf : ByteBuffer
  sent : List UInt8
  writes : ℕ
  id_lt : id < 65536

namespace Request

/-- As `fcgi_read_request` leaves it. -/
def fresh (id : Fin 65536) (keep : Bool) (cell : ℕ → UInt8) : Request where
  id := id
  keep := keep
  out_hdr := none
  out_pos := 0
  out_buf := ⟨cell, 0⟩
  sent := []
  writes := 0
  id_lt := id.isLt

end Request

/-- The padding after `len` bytes: `((len + 7) & ~7) - len`. -/
def padding (len : ℕ) : ℕ := (len + 7) / 8 * 8 - len

/-- The header is stored at `hdr`, and the padding behind the content. -/
def fcgi_make_header (req : Request) (hdr : ℕ) (type : UInt8) (len : ℕ) : Request :=
  let pad := padding len
  let buf := req.out_buf.copy hdr (Record.header type req.id len pad)
  { req with
    out_buf :=
      if pad = 0 then buf else buf.copy (hdr + headerSize + len) (List.replicate pad 0) }

def open_packet (req : Request) (type : RequestType) : Request :=
  { req with
    out_hdr := some req.out_pos
    out_buf := req.out_buf.set (req.out_pos + 1) type.code
    out_pos := req.out_pos + headerSize }

def close_packet (req : Request) : Request :=
  match req.out_hdr with
  | none => req
  | some hdr =>
    let len := req.out_pos - (hdr + headerSize)
    let made := fcgi_make_header req hdr (req.out_buf.cell (hdr + 1)) len
    { made with
      out_pos := req.out_pos + padding len
      out_hdr := none }

/-- `memcpy(req->out_pos, str, len); req->out_pos += len;` -/
def append (req : Request) (str : List UInt8) : Request :=
  { req with
    out_buf := req.out_buf.copy req.out_pos str
    out_pos := req.out_pos + str.length }

/-- How the socket behaves: a write sends all the bytes, or fails when it has sent some of them. -/
def Socket : Type := ℕ → Option ℕ

def Socket.good : Socket := fun _ => none

variable (socket : Socket)

/-- `safe_write`, and whether all the bytes are sent. -/
def safe_write (req : Request) (bytes : List UInt8) : Request × Bool :=
  match socket req.writes with
  | none => ({ req with sent := req.sent ++ bytes, writes := req.writes + 1 }, true)
  | some n => ({ req with sent := req.sent ++ bytes.take n, writes := req.writes + 1 }, false)

/-- The end of the request: the header and what is set of the body. `reserved` is left. -/
def makeEndRequest (req : Request) : Request :=
  let made := fcgi_make_header req req.out_pos FCGI_END_REQUEST.code 8
  { made with out_buf := made.out_buf.copy (req.out_pos + headerSize) [0, 0, 0, 0, 0] }

/-- `fcgi_flush`, and what it returns. -/
def fcgi_flush (req : Request) (close : Bool) : Request × Bool :=
  let closed := close_packet req
  let len := closed.out_pos
  let ended := if close then makeEndRequest closed else closed
  let len := if close then len + endRequestSize else len
  let (written, ok) := safe_write socket ended (ended.out_buf.bytes 0 len)
  if ok then ({ written with out_pos := 0 }, true) else ({ written with keep := false }, false)

/-- A block is sent from the data of the caller, behind a header that is sent from the buffer. -/
def sendBlock (req : Request) (type : RequestType) (block : List UInt8) : Request × Bool :=
  let made := fcgi_make_header (open_packet req type) req.out_pos type.code block.length
  let (flushed, ok) := fcgi_flush socket { made with out_hdr := none } false
  if ok then
    let (written, ok) := safe_write socket flushed block
    if ok then (written, true) else ({ written with keep := false }, false)
  else (flushed, false)

/-- `while ((len - pos) > 0xffff)`: what is left of the data, when no write has failed. -/
def sendBlocks (req : Request) (type : RequestType) (str : List UInt8) :
    Request × Option (List UInt8) :=
  if str.length > 0xffff then
    match sendBlock socket req type (str.take 0xfff8) with
    | (sent, true) => sendBlocks sent type (str.drop 0xfff8)
    | (failed, false) => (failed, none)
  else (req, some str)
termination_by str.length
decreasing_by
  rw [List.length_drop]
  omega

/-- The last branch of `fcgi_write`: the data do not go through the buffer, but for what is behind
the last eight bytes. -/
def writeDirect (req : Request) (type : RequestType) (str : List UInt8) : Request × Bool :=
  match sendBlocks socket (close_packet req) type str with
  | (failed, none) => (failed, false)
  | (req, some str) =>
    let pad := padding str.length
    let rest := if pad = 0 then 0 else 8 - pad
    match sendBlock socket req type (str.take (str.length - rest)) with
    | (failed, false) => (failed, false)
    | (sent, true) =>
      if pad = 0 then (sent, true)
      else (append (open_packet sent type) (str.drop (str.length - rest)), true)

def ensurePacket (req : Request) (type : RequestType) : Request :=
  if req.out_hdr = none then open_packet req type else req

/-- The first `limit` bytes fill the buffer up. -/
def fillUp (req : Request) (type : RequestType) (str : List UInt8) (limit : ℤ) : Request :=
  let opened := ensurePacket req type
  if limit > 0 then append opened (str.take limit.toNat) else opened

/-- The middle branch of `fcgi_write`: the buffer is filled up and sent, and what is left is put
in a new packet. -/
def writeThrough (req : Request) (type : RequestType) (str : List UInt8) (limit : ℤ) :
    Request × Bool :=
  match fcgi_flush socket (fillUp req type str limit) false with
  | (failed, false) => (failed, false)
  | (flushed, true) =>
    if str.length > limit then
      (append (open_packet flushed type) (str.drop limit.toNat), true)
    else (flushed, true)

def closeOther (req : Request) (type : RequestType) : Request :=
  match req.out_hdr with
  | some hdr => if req.out_buf.cell (hdr + 1) ≠ type.code then close_packet req else req
  | none => req

/-- `limit`: what fits in the buffer, behind a header if no packet is open. -/
def roomLimit (req : Request) : ℤ :=
  let limit : ℤ := (outBufSize : ℤ) - req.out_pos
  if req.out_hdr = none then max (limit - headerSize) 0 else limit

/-- `fcgi_write`, and what it returns. -/
def fcgi_write (req : Request) (type : RequestType) (str : List UInt8) : Request × ℤ :=
  if str.length ≤ 0 then (req, 0)
  else
    let req := closeOther req type
    let limit := roomLimit req
    let len : ℤ := str.length
    if len < limit then (append (ensurePacket req type) str, len)
    else
      let (req, ok) :=
        if len - limit < outBufSize - headerSize then writeThrough socket req type str limit
        else writeDirect socket req type str
      (req, if ok then len else -1)

/-! ### The clear version -/

/-- The loop of the version under `#if 0`. There is no result when the fuel is used up. -/
def clearLoop : ℕ → Request → RequestType → List UInt8 → Option (Request × Bool)
  | 0, _, _, _ => none
  | fuel + 1, req, type, str =>
    if str = [] then some (req, true)
    else
      let limit : ℤ := (outBufSize : ℤ) - req.out_pos
      let (flushed, ok) :=
        if req.out_hdr = none ∧ 0 ≤ limit ∧ limit < headerSize then fcgi_flush socket req false
        else (req, true)
      if ok then
        let opened := ensurePacket flushed type
        let limit : ℤ := (outBufSize : ℤ) - opened.out_pos
        if str.length < limit then some (append opened str, true)
        else
          let (sent, ok) := fcgi_flush socket (append opened (str.take limit.toNat)) false
          if ok then clearLoop fuel sent type (str.drop limit.toNat) else some (sent, false)
      else some (flushed, false)

/-- The version under `#if 0`. A round of its loop copies a byte, or leaves the buffer empty. -/
def fcgi_write_clear (req : Request) (type : RequestType) (str : List UInt8) :
    Option (Request × ℤ) :=
  if str.length ≤ 0 then some (req, 0)
  else
    match clearLoop socket (str.length + 2) (closeOther req type) type str with
    | none => none
    | some (req, ok) => some (req, if ok then str.length else -1)

/-! ### Runs -/

/-- The types that data are written with. -/
inductive OutStream where
  | out
  | err
  deriving DecidableEq, Repr

def OutStream.type : OutStream → RequestType
  | out => FCGI_STDOUT
  | err => FCGI_STDERR

/-- A call of `fcgi_write`, or of `fcgi_flush(req, 0)`. -/
inductive Op where
  | write (stream : OutStream) (str : List UInt8)
  | flush

def Op.data (stream : OutStream) : Op → List UInt8
  | .write stream' str => if stream' = stream then str else []
  | .flush => []

def step (req : Request) : Op → Request
  | .write stream str => (fcgi_write socket req stream.type str).1
  | .flush => (fcgi_flush socket req false).1

def runOps (req : Request) (ops : List Op) : Request := ops.foldl (step socket) req

def runClear : Request → List Op → Option Request
  | req, [] => some req
  | req, .write stream str :: ops => do
    let (req, _) ← fcgi_write_clear socket req stream.type str
    runClear req ops
  | req, .flush :: ops => runClear (fcgi_flush socket req false).1 ops

def Throughout (P : Request → Op → Prop) : Request → List Op → Prop
  | _, [] => True
  | req, op :: ops => P req op ∧ Throughout P (step socket req op) ops

end PhpRuntime.Fastcgi
