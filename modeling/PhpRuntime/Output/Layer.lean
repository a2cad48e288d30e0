import Mathlib.Data.Nat.Notation
import Mathlib.Data.Nat.Bitwise
import Mathlib.Logic.Function.Basic
import PhpRuntime.Lib.Cells

/-!
# The output layer

The stack of output handlers and the operations on it. Handlers are records at addresses, as other
parts of the layer point to them while they are taken off the stack. A buffer is the bytes used and
the size allocated; the data pointer of a buffer with bytes in it is not NULL.

A request comes with what the layer does not decide: whether `php_header` allows output, and what
each call of a user handler writes before it returns `false`.
-/

set_option autoImplicit false

namespace PhpRuntime.Output

open PhpRuntime.Lib

def PHP_OUTPUT_HANDLER_WRITE : ℕ := 0x00
def PHP_OUTPUT_HANDLER_START : ℕ := 0x01
def PHP_OUTPUT_HANDLER_FLUSH : ℕ := 0x04
def PHP_OUTPUT_HANDLER_FINAL : ℕ := 0x08

def PHP_OUTPUT_HANDLER_ALIGNTO_SIZE : ℕ := 0x1000
def PHP_OUTPUT_HANDLER_DEFAULT_SIZE : ℕ := 0x4000

def PHP_OUTPUT_HANDLER_INITBUF_SIZE (s : ℕ) : ℕ :=
  if 1 < s then s + PHP_OUTPUT_HANDLER_ALIGNTO_SIZE - s % PHP_OUTPUT_HANDLER_ALIGNTO_SIZE
  else PHP_OUTPUT_HANDLER_DEFAULT_SIZE

/-- `php_output_buffer` -/
structure Buffer where
  data : List UInt8
  size : ℕ
  deriving DecidableEq, Repr

namespace Buffer

def used (buffer : Buffer) : ℕ :=
  buffer.data.length

/-- No data, as after `memset`. -/
def null : Buffer where
  data := []
  size := 0

end Buffer

/-- The flags of a handler; `PHP_OUTPUT_HANDLER_INTERNAL` is `user` not set. -/
structure HandlerFlags where
  user : Bool
  flushable : Bool
  removable : Bool
  started : Bool
  disabled : Bool
  processed : Bool
  deriving DecidableEq, Repr

/-- `php_output_handler`. The internal handler is always `php_output_handler_default_func`. -/
structure Handler where
  flags : HandlerFlags
  level : ℕ
  size : ℕ
  buffer : Buffer
  deriving DecidableEq, Repr

namespace Handler

def holding (handler : Handler) (buffer : Buffer) : Handler :=
  { handler with buffer := buffer }

/-- The handler ran, and is disabled unless it succeeded. -/
def ran (handler : Handler) (succeeded : Bool) : Handler :=
  { handler with flags := { handler.flags with
      started := true
      processed := handler.flags.processed || succeeded
      disabled := handler.flags.disabled || !succeeded } }

end Handler

/-- `php_output_context` -/
structure Context where
  op : ℕ
  input : Buffer
  out : Buffer
  deriving DecidableEq, Repr

/-- `php_output_handler_status_t` -/
inductive HandlerStatus where
  | PHP_OUTPUT_HANDLER_FAILURE
  | PHP_OUTPUT_HANDLER_SUCCESS
  | PHP_OUTPUT_HANDLER_NO_DATA
  deriving DecidableEq, Repr

open HandlerStatus

/-- The output globals: the flags, the handlers (the stack from the bottom to the top), what went to
the SAPI and to `php_output_direct`, and how often `php_output_header` and user handlers ran. The
log `written` is what the script has written so far. -/
structure Globals where
  outputDisabled : Bool
  outputWritten : Bool
  outputSent : Bool
  activated : Bool
  handler : ℕ → Handler
  next : ℕ
  handlers : List ℕ
  active : Option ℕ
  running : Option ℕ
  sapi : List UInt8
  direct : List UInt8
  headers : ℕ
  calls : ℕ
  written : List UInt8

/-- What the layer does not decide. `header n` tells whether output is allowed after the headers at
the `n`-th output: they are sent already, or `php_header` allows it. `echo n data mode` is what the
`n`-th call of a user handler writes. -/
structure Request where
  header : ℕ → Bool
  echo : ℕ → List UInt8 → ℕ → List (List UInt8)

namespace Globals

def setHandler (g : Globals) (h : ℕ) (handler : Handler) : Globals :=
  { g with handler := Function.update g.handler h handler }

/-- What the buffers of a part of the stack hold, from the bottom to the top. -/
def contents (g : Globals) (row : List ℕ) : List UInt8 :=
  gather (fun h => (g.handler h).buffer.data) row

end Globals

def php_output_header (req : Request) (g : Globals) : Globals :=
  { g with
    headers := g.headers + 1
    outputDisabled := g.outputDisabled || !req.header g.headers }

def php_output_deactivate (req : Request) (g : Globals) : Globals :=
  { php_output_header req g with
    activated := !g.activated
    active := none
    running := none
    handlers := [] }

def php_output_lock_error (g : Globals) (op : ℕ) : Bool :=
  op ≠ 0 && g.active.isSome && g.running.isSome

def php_output_context_init (op : ℕ) : Context where
  op := op
  input := Buffer.null
  out := Buffer.null

def php_output_context_reset (context : Context) : Context :=
  php_output_context_init context.op

def php_output_context_feed (context : Context) (buffer : Buffer) : Context :=
  { context with input := buffer }

def php_output_context_swap (context : Context) : Context :=
  { context with input := context.out, out := Buffer.null }

def php_output_context_pass (context : Context) : Context :=
  { context with input := Buffer.null, out := context.input }

def php_output_handler_init (flags : HandlerFlags) (chunk_size : ℕ) : Handler where
  flags := flags
  level := 0
  size := chunk_size
  buffer := { data := [], size := PHP_OUTPUT_HANDLER_INITBUF_SIZE chunk_size }

/-- The buffer of a handler with chunk size `size` takes more data, and grows for it. -/
def Buffer.store (buffer : Buffer) (size : ℕ) (data : List UInt8) : Buffer where
  data := buffer.data ++ data
  size :=
    if buffer.size - buffer.used ≤ data.length then
      let grow_int := PHP_OUTPUT_HANDLER_INITBUF_SIZE size
      let grow_buf := PHP_OUTPUT_HANDLER_INITBUF_SIZE (data.length - (buffer.size - buffer.used))
      buffer.size + max grow_int grow_buf
    else buffer.size

/-- The result is whether the buffer does not have to be processed. -/
def php_output_handler_append (g : Globals) (h : ℕ) (buf : Buffer) : Globals × Bool :=
  if buf.used ≠ 0 then
    let handler := g.handler h
    let buffer := handler.buffer.store handler.size buf.data
    let g := { g with outputWritten := true }.setHandler h (handler.holding buffer)
    if handler.size ≠ 0 ∧ handler.size ≤ buffer.used then (g, g.running.isSome) else (g, true)
  else (g, true)

/-- `php_output_handler_default_func` -/
def php_output_handler_default_func (context : Context) : Context :=
  php_output_context_pass context

/-- The status of an internal handler that returns `SUCCESS`. -/
def successStatus (out : Buffer) : HandlerStatus :=
  if out.used ≠ 0 then PHP_OUTPUT_HANDLER_SUCCESS else PHP_OUTPUT_HANDLER_NO_DATA

section Handlers

variable (req : Request)
-- the call of a user function with `ob_data` and `ob_mode`, which then returns `false`
variable (call : List UInt8 → ℕ → Globals → Globals)

def php_output_handler_run (g : Globals) (h : ℕ) (context : Context) :
    Globals × Context × HandlerStatus :=
  let handler := g.handler h
  if handler.flags.user then
    (call handler.buffer.data context.op { g with running := some h }, context,
      PHP_OUTPUT_HANDLER_FAILURE)
  else
    let context := php_output_handler_default_func (php_output_context_feed context handler.buffer)
    ({ g with running := some h }, context, successStatus context.out)

/-- What becomes of the handler and the context after the handler has run. -/
def php_output_handler_finish (g : Globals) (h : ℕ) (context : Context) (status : HandlerStatus) :
    Globals × Context :=
  let handler := g.handler h
  let g := { g with running := none }
  let emptied := { handler.buffer with data := [] }
  match status with
  | PHP_OUTPUT_HANDLER_FAILURE =>
    (g.setHandler h ((handler.ran false).holding Buffer.null),
      { context with out := handler.buffer })
  | PHP_OUTPUT_HANDLER_NO_DATA =>
    (g.setHandler h ((handler.ran true).holding emptied), php_output_context_reset context)
  | PHP_OUTPUT_HANDLER_SUCCESS => (g.setHandler h ((handler.ran true).holding emptied), context)

def php_output_handler_op (g : Globals) (h : ℕ) (context : Context) :
    Globals × Context × HandlerStatus :=
  if php_output_lock_error g context.op then
    (php_output_deactivate req g, context, PHP_OUTPUT_HANDLER_FAILURE)
  else
    let (g, stored) := php_output_handler_append g h context.input
    if stored ∧ context.op = 0 then (g, context, PHP_OUTPUT_HANDLER_NO_DATA)
    else
      let original_op := context.op
      let op := if (g.handler h).flags.started then original_op
        else original_op ||| PHP_OUTPUT_HANDLER_START
      let (g, context, status) := php_output_handler_run call g h { context with op := op }
      let (g, context) := php_output_handler_finish g h context status
      (g, { context with op := original_op }, status)

/-- The result is whether the walk over the stack stops. -/
def php_output_stack_apply_op (h : ℕ) (s : Globals × Context) : (Globals × Context) × Bool :=
  let level := (s.1.handler h).level
  if (s.1.handler h).flags.disabled then
    ((s.1, if level = 0 then php_output_context_pass s.2 else s.2), false)
  else
    match php_output_handler_op req call s.1 h s.2 with
    | (g, context, PHP_OUTPUT_HANDLER_NO_DATA) => ((g, context), true)
    | (g, context, _) =>
      ((g, if level = 0 then context else php_output_context_swap context), false)

/-- `zend_stack_apply_with_argument` from the top of the stack down: no callback can push or pop. -/
def zend_stack_apply_topdown {S : Type} (apply : ℕ → S → S × Bool) : List ℕ → S → S
  | [], s => s
  | h :: hs, s =>
    let (s, stop) := apply h s
    if stop then s else zend_stack_apply_topdown apply hs s

/-- The output of an operation is written to the SAPI. -/
def php_output_op_send (g : Globals) (out : Buffer) : Globals :=
  if out.used ≠ 0 then
    let g := php_output_header req g
    if g.outputDisabled then g else { g with sapi := g.sapi ++ out.data, outputSent := true }
  else g

def php_output_op (op : ℕ) (str : List UInt8) (g : Globals) : Globals :=
  if php_output_lock_error g op then php_output_deactivate req g
  else
    let context := php_output_context_init op
    let str : Buffer := { data := str, size := 0 }
    let fed := { context with input := str }
    if g.active.isSome ∧ g.handlers.length ≠ 0 then
      if 1 < g.handlers.length then
        let (g, context) :=
          zend_stack_apply_topdown (php_output_stack_apply_op req call) g.handlers.reverse (g, fed)
        php_output_op_send req g context.out
      else
        match g.handlers.getLast? with
        | some active =>
          if (g.handler active).flags.disabled then
            php_output_op_send req g (php_output_context_pass fed).out
          else
            let (g, context, _) := php_output_handler_op req call g active fed
            php_output_op_send req g context.out
        | none => php_output_op_send req g (php_output_context_pass fed).out
    else php_output_op_send req g str

def php_output_write (str : List UInt8) (g : Globals) : Globals :=
  if g.outputDisabled then g
  else if g.activated then php_output_op req call PHP_OUTPUT_HANDLER_WRITE str g
  else { g with direct := g.direct ++ str }

def echo (str : List UInt8) (g : Globals) : Globals :=
  php_output_write req call str { g with written := g.written ++ str }

/-- The result is whether there was a buffer to flush. -/
def php_output_flush (g : Globals) : Globals × Bool :=
  match g.active with
  | none => (g, false)
  | some active =>
    if (g.handler active).flags.flushable then
      let context := php_output_context_init PHP_OUTPUT_HANDLER_FLUSH
      let (g, context, _) := php_output_handler_op req call g active context
      if context.out.used ≠ 0 then
        let g := { g with handlers := g.handlers.dropLast }
        let g := php_output_write req call context.out.data g
        ({ g with handlers := g.handlers ++ g.active.toList }, true)
      else (g, true)
    else (g, false)

def php_output_flush_all (g : Globals) : Globals :=
  if g.active.isSome then php_output_op req call PHP_OUTPUT_HANDLER_FLUSH [] g else g

/-- The last run of a handler before it is popped off the stack. -/
def php_output_stack_pop_run (g : Globals) (orphan : ℕ) : Globals × Context :=
  let context := php_output_context_init PHP_OUTPUT_HANDLER_FINAL
  if (g.handler orphan).flags.disabled then (g, context)
  else
    let op := if (g.handler orphan).flags.started then context.op
      else context.op ||| PHP_OUTPUT_HANDLER_START
    let (g, context, _) := php_output_handler_op req call g orphan { context with op := op }
    (g, context)

/-- `PHP_OUTPUT_POP_FORCE` is `force`, and nothing is discarded. -/
def php_output_stack_pop (force : Bool) (g : Globals) : Globals × Bool :=
  match g.active with
  | none => (g, false)
  | some orphan =>
    if !force && !(g.handler orphan).flags.removable then (g, false)
    else
      let (g, context) := php_output_stack_pop_run req call g orphan
      let handlers := g.handlers.dropLast
      let g := { g with handlers := handlers, active := handlers.getLast? }
      (if context.out.used ≠ 0 then php_output_write req call context.out.data g else g, true)

def php_output_end (g : Globals) : Globals × Bool :=
  php_output_stack_pop req call false g

/-- The loop of `php_output_end_all`, with a bound of its turns. -/
def php_output_end_all_loop : ℕ → Globals → Globals
  | 0, g => g
  | n + 1, g =>
    if g.active.isSome then
      let (g, popped) := php_output_stack_pop req call true g
      if popped then php_output_end_all_loop n g else g
    else g

def php_output_end_all (g : Globals) : Globals :=
  php_output_end_all_loop req call g.handlers.length g

/-- `conflict` is what the registered conflict checks say. -/
def php_output_handler_start (handler : Handler) (conflict : Bool) (g : Globals) : Globals × Bool :=
  if php_output_lock_error g PHP_OUTPUT_HANDLER_START then (php_output_deactivate req g, false)
  else if conflict then (g, false)
  else
    let h := g.next
    let g := g.setHandler h { handler with level := g.handlers.length }
    ({ g with next := h + 1, handlers := g.handlers ++ [h], active := some h }, true)

end Handlers

/-- A user handler is called: it writes, and the buffering functions are locked meanwhile. -/
def callUser (req : Request) (data : List UInt8) (mode : ℕ) (g : Globals) : Globals :=
  -- a handler runs already, so that nothing written here makes another one run
  let idle := fun (_ : List UInt8) (_ : ℕ) (g : Globals) => g
  let g' := (req.echo g.calls data mode).foldl (fun g str => echo req idle str g) g
  { g' with calls := g'.calls + 1 }

/-- What a script does with the output layer. -/
inductive Operation where
  | start (flags : HandlerFlags) (chunk_size : ℕ) (conflict : Bool)
  | write (str : List UInt8)
  | flush
  | flush_all
  | end_flush
  | end_all

def step (req : Request) (g : Globals) : Operation → Globals
  | .start flags chunk_size conflict =>
    (php_output_handler_start req (php_output_handler_init flags chunk_size) conflict g).1
  | .write str => echo req (callUser req) str g
  | .flush => (php_output_flush req (callUser req) g).1
  | .flush_all => php_output_flush_all req (callUser req) g
  | .end_flush => (php_output_end req (callUser req) g).1
  | .end_all => php_output_end_all req (callUser req) g

/-- `php_output_activate` -/
def php_output_activate : Globals where
  outputDisabled := false
  outputWritten := false
  outputSent := false
  activated := true
  handler _ := php_output_handler_init
    { user := false, flushable := false, removable := false, started := false, disabled := false,
      processed := false } 0
  next := 0
  handlers := []
  active := none
  running := none
  sapi := []
  direct := []
  headers := 0
  calls := 0
  written := []

def run (req : Request) (operations : List Operation) : Globals :=
  operations.foldl (step req) php_output_activate

end PhpRuntime.Output
