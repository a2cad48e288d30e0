import PhpRuntime.Fastcgi.Output
import Mathlib.Logic.Function.Basic

/-!
# The environment of a FastCGI request

`fcgi_read_request` puts the names and values of the `FCGI_PARAMS` records into the hash
table of the request, where `fcgi_getenv`, `fcgi_putenv` and `fcgi_loadenv` find them. A
bucket is known by its place in the order in which the buckets are handed out, a chain
and the list of all buckets are lists of such places. The copies that
`fcgi_hash_strndup` makes live as long as the table, they are the bytes themselves.
-/

set_option autoImplicit false

namespace PhpRuntime.Fastcgi

open PhpRuntime.Lib RequestType

/-! ## The hash function -/

/-- The value of a byte as an `unsigned char`. -/
def unsignedChar (b : UInt8) : ℤ := b.toNat

/-- The value of a byte as a `char`, which is signed. -/
def signedChar (b : UInt8) : ℤ :=
  if b.toNat < 128 then b.toNat else b.toNat - 256

/-- `FCGI_HASH_FUNC`, an `unsigned int`, of the characters from `var` on. -/
def FCGI_HASH_FUNC (var : ℕ → ℤ) (var_len : ℕ) : ℕ :=
  if var_len < 3 then var_len
  else ((var 3 * 4 + var (var_len - 2) * 16 + var (var_len - 1) * 4 + var_len) %
    4294967296).toNat

/-- The hash value of a name that is a C string, with a zero behind it. -/
def stringHash (var : List UInt8) : ℕ :=
  FCGI_HASH_FUNC (fun i => signedChar (var.getD i 0)) var.length

/-- The hash value of a name of `var_len` bytes at `p`, where `past` is the byte behind
those of `p`. -/
def bufferHash (p : List UInt8) (past : UInt8) (var_len : ℕ) : ℕ :=
  FCGI_HASH_FUNC (fun i => unsignedChar (p.getD i past)) var_len

/-! ## The hash table -/

/-- `fcgi_hash_bucket`. No value means that the bucket was deleted. -/
structure FcgiBucket where
  hash_value : ℕ
  var : List UInt8
  val : Option (List UInt8)

/-- `fcgi_hash`: the chains of the slots, the list of all buckets with the newest first, the
buckets, and how many of them are handed out. -/
structure FcgiHash where
  hash_table : ℕ → List ℕ
  list : List ℕ
  bucket : ℕ → FcgiBucket
  idx : ℕ

/-- `FCGI_HASH_TABLE_SIZE` -/
def hashTableSize : ℕ := 128

/-- The slot of a hash value, `hash_value & FCGI_HASH_TABLE_MASK`. -/
def slot (hash_value : ℕ) : ℕ := hash_value % hashTableSize

def fcgi_hash_clean (h : FcgiHash) : FcgiHash :=
  { h with hash_table := fun _ => [], list := [], idx := 0 }

/-- The bucket has this hash value and this name. -/
def FcgiHash.has (h : FcgiHash) (hash_value : ℕ) (var : List UInt8) (p : ℕ) : Bool :=
  (h.bucket p).hash_value == hash_value && (h.bucket p).var == var

/-- The first bucket of the chain that has this hash value and this name. -/
def FcgiHash.find (h : FcgiHash) (hash_value : ℕ) (var : List UInt8) : Option ℕ :=
  (h.hash_table (slot hash_value)).find? (h.has hash_value var)

/-- `p->val = val` -/
def FcgiHash.assign (h : FcgiHash) (p : ℕ) (val : Option (List UInt8)) : FcgiHash :=
  { h with
    bucket := Function.update h.bucket p ⟨(h.bucket p).hash_value, (h.bucket p).var, val⟩ }

/-- A bucket is handed out and put in front of its chain and of the list. -/
def FcgiHash.add (h : FcgiHash) (hash_value : ℕ) (var val : List UInt8) : FcgiHash where
  hash_table :=
    Function.update h.hash_table (slot hash_value) (h.idx :: h.hash_table (slot hash_value))
  list := h.idx :: h.list
  bucket := Function.update h.bucket h.idx ⟨hash_value, var, some val⟩
  idx := h.idx + 1

def fcgi_hash_set (h : FcgiHash) (hash_value : ℕ) (var val : List UInt8) : FcgiHash :=
  match h.find hash_value var with
  | some p => h.assign p (some val)
  | none => h.add hash_value var val

/-- The bucket goes out of its chain and stays on the list, without a value. -/
def FcgiHash.drop (h : FcgiHash) (hash_value p : ℕ) : FcgiHash :=
  { h.assign p none with
    hash_table :=
      Function.update h.hash_table (slot hash_value) ((h.hash_table (slot hash_value)).erase p) }

def fcgi_hash_del (h : FcgiHash) (hash_value : ℕ) (var : List UInt8) : FcgiHash :=
  match h.find hash_value var with
  | some p => h.drop hash_value p
  | none => h

def fcgi_hash_get (h : FcgiHash) (hash_value : ℕ) (var : List UInt8) : Option (List UInt8) :=
  (h.find hash_value var).bind fun p => (h.bucket p).val

/-- What `fcgi_hash_apply` passes to its function, in order. -/
def fcgi_hash_apply (h : FcgiHash) : List (List UInt8 × List UInt8) :=
  h.list.filterMap fun p => (h.bucket p).val.map fun val => ((h.bucket p).var, val)

def fcgi_getenv (env : FcgiHash) (var : List UInt8) : Option (List UInt8) :=
  fcgi_hash_get env (stringHash var) var

/-- The value is a C string, which ends at its first zero. -/
def cString (val : List UInt8) : List UInt8 :=
  val.takeWhile (· ≠ 0)

def fcgi_putenv (env : FcgiHash) (var : List UInt8) : Option (List UInt8) → FcgiHash
  | none => fcgi_hash_del env (stringHash var) var
  | some val => fcgi_hash_set env (stringHash var) var (cString val)

def fcgi_loadenv (env : FcgiHash) : List (List UInt8 × List UInt8) :=
  fcgi_hash_apply env

/-! ## Names and values -/

/-- A length of one or of four bytes. Where the four bytes are the last ones it fails. -/
def getLength : List UInt8 → Option (ℕ × List UInt8)
  | [] => none
  | b :: p =>
    if b.toNat < 128 then some (b.toNat, p)
    else
      match p with
      | b2 :: b1 :: b0 :: c :: p =>
        some (b.toNat % 128 * 16777216 + b2.toNat * 65536 + b1.toNat * 256 + b0.toNat, c :: p)
      | _ => none

/-- The two lengths of a pair and what follows, if there are as many bytes. -/
def getLengths (p : List UInt8) : Option (ℕ × ℕ × List UInt8) :=
  match getLength p with
  | none => none
  | some (name_len, p) =>
    match getLength p with
    | none => none
    | some (val_len, p) =>
      if (name_len + val_len) % 4294967296 > p.length then none else some (name_len, val_len, p)

/-- The loop of `fcgi_get_params` over the bytes from `p` to `end`, where `past` is the byte
at `end`. No round leaves as many bytes as it found, so that their number bounds the rounds. -/
def getParams (past : UInt8) : ℕ → FcgiHash → List UInt8 → FcgiHash × Bool
  | 0, env, p => (env, p.isEmpty)
  | fuel + 1, env, p =>
    if p = [] then (env, true)
    else
      match getLengths p with
      | none => (env, false)
      | some (name_len, val_len, p) =>
        let env := fcgi_hash_set env (bufferHash p past name_len) (p.take name_len)
          ((p.drop name_len).take val_len)
        getParams past fuel env (p.drop (name_len + val_len))

def fcgi_get_params (env : FcgiHash) (p : List UInt8) (past : UInt8) : FcgiHash × Bool :=
  getParams past p.length env p

/-! ## Records -/

/-- `fcgi_header` -/
structure Header where
  version : UInt8
  type : UInt8
  requestId : ℕ
  contentLength : ℕ
  paddingLength : ℕ

def Header.ofBytes (bytes : List UInt8) : Header where
  version := bytes.getD 0 0
  type := bytes.getD 1 0
  requestId := (bytes.getD 2 0).toNat * 256 + (bytes.getD 3 0).toNat
  contentLength := (bytes.getD 4 0).toNat * 256 + (bytes.getD 5 0).toNat
  paddingLength := (bytes.getD 6 0).toNat

/-- `safe_read`: all of the `count` bytes and what comes after them. -/
def safe_read (input : List UInt8) (count : ℕ) : Option (List UInt8 × List UInt8) :=
  if count ≤ input.length then some (input.take count, input.drop count) else none

def readHeader (input : List UInt8) : Option (Header × List UInt8) :=
  match safe_read input headerSize with
  | none => none
  | some (bytes, input) =>
    if (Header.ofBytes bytes).version < 1 then none else some (Header.ofBytes bytes, input)

/-- Empty `FCGI_STDIN` records before a request are passed over. -/
def skipStdin : ℕ → Header → List UInt8 → Option (Header × List UInt8)
  | 0, _, _ => none
  | fuel + 1, hdr, input =>
    if hdr.type = FCGI_STDIN.code ∧ hdr.contentLength = 0 then
      match readHeader input with
      | none => none
      | some (hdr, input) => skipStdin fuel hdr input
    else some (hdr, input)

/-- `FCGI_MAX_LENGTH` -/
def maxLength : ℕ := 65535

/-- What `fcgi_read_request` returns, the environment, the id if it is set, and what is not
read yet. -/
structure Reading where
  ok : Bool
  env : FcgiHash
  id : Option ℕ
  keep : Bool
  input : List UInt8

/-- The buffer with the bytes that are read into it. -/
def fillBuffer (buf : ℕ → UInt8) (bytes : List UInt8) (i : ℕ) : UInt8 :=
  bytes.getD i (buf i)

/-- The loop over the `FCGI_PARAMS` records. Every round reads a header. -/
def readParams (id : Option ℕ) (keep : Bool) :
    ℕ → Header → (ℕ → UInt8) → FcgiHash → List UInt8 → Reading
  | 0, _, _, env, input => ⟨false, env, id, false, input⟩
  | fuel + 1, hdr, buf, env, input =>
    if hdr.type = FCGI_PARAMS.code ∧ 0 < hdr.contentLength then
      if hdr.contentLength + hdr.paddingLength > maxLength then ⟨false, env, id, keep, input⟩
      else
        match safe_read input (hdr.contentLength + hdr.paddingLength) with
        | none => ⟨false, env, id, false, input⟩
        | some (bytes, input) =>
          let buf := fillBuffer buf bytes
          let (env, parsed) :=
            fcgi_get_params env (bytes.take hdr.contentLength) (buf hdr.contentLength)
          if parsed then
            match readHeader input with
            | none => ⟨false, env, id, false, input⟩
            | some (hdr, input) => readParams id keep fuel hdr buf env input
          else ⟨false, env, id, false, input⟩
    else ⟨true, env, id, keep, input⟩

/-- `fcgi_role` -/
inductive Role where
  | FCGI_RESPONDER
  | FCGI_AUTHORIZER
  | FCGI_FILTER
  deriving DecidableEq

/-- `"FCGI_ROLE"` -/
def roleVar : List UInt8 := [70, 67, 71, 73, 95, 82, 79, 76, 69]

namespace Role

def code : Role → ℕ
  | FCGI_RESPONDER => 1
  | FCGI_AUTHORIZER => 2
  | FCGI_FILTER => 3

def ofCode (n : ℕ) : Option Role :=
  if n = 1 then some FCGI_RESPONDER
  else if n = 2 then some FCGI_AUTHORIZER
  else if n = 3 then some FCGI_FILTER
  else none

/-- `"RESPONDER"`, `"AUTHORIZER"` and `"FILTER"` -/
def name : Role → List UInt8
  | FCGI_RESPONDER => [82, 69, 83, 80, 79, 78, 68, 69, 82]
  | FCGI_AUTHORIZER => [65, 85, 84, 72, 79, 82, 73, 90, 69, 82]
  | FCGI_FILTER => [70, 73, 76, 84, 69, 82]

end Role

/-- The part of `fcgi_read_request` behind the header of a `FCGI_BEGIN_REQUEST` record. -/
def beginRequest (hdr : Header) (buf : ℕ → UInt8) (env : FcgiHash) (input : List UInt8) :
    Reading :=
  match safe_read input (hdr.contentLength + hdr.paddingLength) with
  | none => ⟨false, env, some hdr.requestId, false, input⟩
  | some (body, input) =>
    let keep := (body.getD 2 0).toNat % 2 = 1
    match Role.ofCode ((body.getD 0 0).toNat * 256 + (body.getD 1 0).toNat) with
    | none => ⟨false, env, some hdr.requestId, keep, input⟩
    | some role =>
      let env := fcgi_hash_set env (stringHash roleVar) roleVar role.name
      match readHeader input with
      | none => ⟨false, env, some hdr.requestId, keep, input⟩
      | some (first, input) =>
        readParams (some hdr.requestId) keep (input.length + 1) first (fillBuffer buf body) env input

/-- `fcgi_read_request` with the buffer `buf` of its stack frame. It answers a
`FCGI_GET_VALUES` record and returns 0 as for a record of any other type, the answer is
left out. -/
def fcgi_read_request (buf : ℕ → UInt8) (env : FcgiHash) (input : List UInt8) : Reading :=
  match readHeader input with
  | none => ⟨false, env, none, false, input⟩
  | some (hdr, input) =>
    match skipStdin (input.length + 1) hdr input with
    | none => ⟨false, env, none, false, input⟩
    | some (hdr, input) =>
      if hdr.contentLength + hdr.paddingLength > maxLength then ⟨false, env, none, false, input⟩
      else if hdr.type = FCGI_BEGIN_REQUEST.code ∧ hdr.contentLength = 8 then
        beginRequest hdr buf env input
      else ⟨false, env, some hdr.requestId, false, input⟩

end PhpRuntime.Fastcgi
