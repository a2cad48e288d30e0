import PhpRuntime.Lib.FreeList
import Mathlib.Data.Int.Notation
import Mathlib.Logic.Function.Basic

/-!
# The object store

`zend_objects_API.c` keeps every object of a script in an array of buckets that grows by
`erealloc`. A handle is an index into the array, `refcount` says how many references the
object has, and the buckets that are not in use are linked into a free list.

Releasing the last reference calls the object's `dtor` and its `free_storage`, and either
may use the store again. A callback that is running is a `Frame`, which keeps what the
interrupted `zend_objects_store_del_ref_by_handle_ex` needs afterwards: its handle, the
pointer `obj` it goes on using and the `failure` flag. `World` adds to the store what its
callers and callbacks see, for the statements only: who owns how many references, the
calls that were made and the accesses through `obj`.
-/

set_option autoImplicit false

namespace PhpRuntime.Objects

/-- The number of values of a `zend_uint`, `2 ^ 32`. -/
def uintRange : ℕ := 4294967296

theorem one_lt_uintRange : 1 < uintRange := by decide

def bucketSize : ℕ := 64

/-- A handle as the `int` that the free list stores. -/
def link (handle : ℕ) : ℤ :=
  if handle < 2147483648 then handle else handle - 4294967296

/-- The handle that an `int` of the free list stands for. -/
def unlink (n : ℤ) : ℕ :=
  (n % 4294967296).toNat

/-- A bucket of the store. `next` and `object` share their bytes in the source, `next` is
read only where the bucket is on the free list and `object` only where it is not. The
pointer `dtor` is left out because it is never NULL, of `free_storage` only whether it is
there matters. -/
structure Bucket where
  destructor_called : Bool
  valid : Bool
  object : ℕ
  free_storage : Bool
  refcount : ℕ
  next : ℤ
  deriving DecidableEq

/-- What `zend_objects_store_put` writes into a bucket. -/
def Bucket.put (object : ℕ) (free_storage : Bool) (b : Bucket) : Bucket where
  destructor_called := false
  valid := true
  object := object
  free_storage := free_storage
  refcount := 1
  next := b.next

/-- `obj->refcount--`. -/
def Bucket.decremented (b : Bucket) : Bucket :=
  { b with refcount := (uintRange - 1 + b.refcount) % uintRange }

@[simp] theorem Bucket.decremented_valid (b : Bucket) : b.decremented.valid = b.valid := rfl

@[simp] theorem Bucket.decremented_next (b : Bucket) : b.decremented.next = b.next := rfl

/-- The store: the address of its array, the buckets there, `top`, `size` and the free list. -/
structure Store where
  object_buckets : ℕ
  bucket : ℕ → Bucket
  top : ℕ
  size : ℕ
  free_list_head : ℤ

namespace Store

/-- `&EG(objects_store).object_buckets[handle]`. -/
def address (s : Store) (handle : ℕ) : ℕ :=
  s.object_buckets + handle * bucketSize

def Live (s : Store) (handle : ℕ) : Prop :=
  1 ≤ handle ∧ handle < s.top ∧ (s.bucket handle).valid = true

instance (s : Store) (handle : ℕ) : Decidable (s.Live handle) :=
  inferInstanceAs (Decidable (_ ∧ _ ∧ _))

/-- The handles below `top` that are not in use. -/
def Vacant (s : Store) (handle : ℕ) : Prop :=
  1 ≤ handle ∧ handle < s.top ∧ (s.bucket handle).valid = false

def modify (s : Store) (handle : ℕ) (f : Bucket → Bucket) : Store :=
  { s with bucket := Function.update s.bucket handle (f (s.bucket handle)) }

/-- The array grows where it has no room for another bucket, and `erealloc` returns `moved`. -/
def grow (moved : ℕ) (s : Store) : Store :=
  if s.top = s.size then
    { s with size := s.size * 2 % uintRange, object_buckets := moved }
  else s

/-- The handle that `zend_objects_store_put` returns. -/
def nextHandle (s : Store) : ℕ :=
  if s.free_list_head ≠ -1 then unlink s.free_list_head else s.top

end Store

/-- `emalloc` returns the address `array`, with what `memory` has there. -/
def zend_objects_store_init (array : ℕ) (memory : ℕ → Bucket) (init_size : ℕ) : Store where
  object_buckets := array
  bucket := Function.update memory 0 ⟨false, false, 0, false, 0, 0⟩
  top := 1
  size := init_size
  free_list_head := -1

/-- The store after a put. The handle it returns is `nextHandle`. -/
def zend_objects_store_put (object : ℕ) (free_storage : Bool) (moved : ℕ) (s : Store) : Store :=
  if s.free_list_head ≠ -1 then
    { s with free_list_head := (s.bucket (unlink s.free_list_head)).next }.modify
      (unlink s.free_list_head) (Bucket.put object free_storage)
  else
    { s.grow moved with top := ((s.grow moved).top + 1) % uintRange }.modify
      s.top (Bucket.put object free_storage)

/-- `refcount++`. -/
def zend_objects_store_add_ref (handle : ℕ) (s : Store) : Store :=
  s.modify handle fun b => { b with refcount := (b.refcount + 1) % uintRange }

/-- `ZEND_OBJECTS_STORE_ADD_TO_FREE_LIST`. -/
def Store.addToFreeList (handle : ℕ) (s : Store) : Store :=
  { s with free_list_head := link handle }.modify handle fun b =>
    { b with next := s.free_list_head, valid := false }

/-- `obj->refcount--` writes to the bucket that lies at `obj`, if the array has one there. -/
def Store.decrement (obj : ℕ) (s : Store) : Store :=
  { s with bucket := fun h => if s.address h = obj then (s.bucket h).decremented else s.bucket h }

def Store.setCalled (handle : ℕ) (s : Store) : Store :=
  s.modify handle fun b => { b with destructor_called := true }

/-! ## Callbacks -/

/-- The callbacks of an object. -/
inductive Callback where
  | dtor
  | free_storage
  deriving DecidableEq

/-- A callback was called for an object that had `others` references besides the one
that is being released. -/
structure Call where
  callback : Callback
  object : ℕ
  others : ℕ
  deriving DecidableEq

/-- Whether a call is the one of this callback for this object. -/
def Call.is (callback : Callback) (object : ℕ) (c : Call) : Bool :=
  c.callback == callback && c.object == object

/-- An access through `obj` while the array had `size` buckets from `array` on. -/
structure Access where
  obj : ℕ
  array : ℕ
  size : ℕ
  deriving DecidableEq

/-- The bucket at `obj` lies in the array. -/
def Access.Inside (a : Access) : Prop :=
  a.array ≤ a.obj ∧ a.obj + bucketSize ≤ a.array + a.size * bucketSize

instance (a : Access) : Decidable a.Inside :=
  inferInstanceAs (Decidable (_ ∧ _))

/-- The callback that an interrupted release waits for. After `dtor` it reads `obj` again,
after `free_storage` it goes on with the `obj` it had. -/
inductive Phase where
  | dtor
  | free_storage (obj : ℕ)
  deriving DecidableEq

/-- A release whose callback is running. -/
structure Frame where
  handle : ℕ
  phase : Phase
  failure : Bool
  deriving DecidableEq

/-- The release has called `free_storage`. -/
def Frame.Freeing (f : Frame) : Prop :=
  f.phase ≠ .dtor

instance (f : Frame) : Decidable f.Freeing :=
  inferInstanceAs (Decidable (_ ≠ _))

/-- The store, the references its callers own of each handle, for each object that was
created whether it has a `free_storage`, and the calls and accesses so far. -/
structure World where
  store : Store
  owned : ℕ → ℕ
  created : List Bool
  calls : List Call
  accesses : List Access

/-- The references to `handle` that the interrupted releases have not given up yet. -/
def pending (stack : List Frame) (handle : ℕ) : ℕ :=
  (stack.map Frame.handle).count handle

namespace World

/-- An access through `obj`. -/
def access (obj : ℕ) (w : World) : World :=
  { w with accesses := ⟨obj, w.store.object_buckets, w.store.size⟩ :: w.accesses }

/-- A callback of the object at `handle` is called. -/
def call (callback : Callback) (handle : ℕ) (stack : List Frame) (w : World) : World :=
  { w with calls :=
      ⟨callback, (w.store.bucket handle).object, w.owned handle + pending stack handle⟩ :: w.calls }

/-- The caller hands one of its references over. -/
def take (handle : ℕ) (w : World) : World :=
  { w with owned := Function.update w.owned handle (w.owned handle - 1) }

/-- `destructor_called = 1`. -/
def setCalled (handle : ℕ) (w : World) : World :=
  { w with store := w.store.setCalled handle }

/-- How often a callback of an object was called. -/
def times (w : World) (callback : Callback) (object : ℕ) : ℕ :=
  w.calls.countP (Call.is callback object)

end World

/-- The world, the callbacks that are running, innermost first, and whether
`zend_bailout` is on its way to the innermost one. -/
structure State where
  world : World
  stack : List Frame
  bailout : Bool

def finish (obj : ℕ) (failure : Bool) (w : World) (stack : List Frame) : State where
  world := { w.access obj with store := (w.access obj).store.decrement obj }
  stack := stack
  bailout := failure && !stack.isEmpty

/-- The bucket goes to the free list and the release ends, with the `obj` it had. -/
def release (handle obj : ℕ) (failure : Bool) (w : World) (stack : List Frame) : State :=
  finish obj failure { w with store := w.store.addToFreeList handle } stack

/-- A release from where it reads `obj` again. -/
def afterDtor (handle : ℕ) (failure : Bool) (w : World) (stack : List Frame) : State :=
  let obj := w.store.address handle
  let w := w.access obj
  if (w.store.bucket handle).refcount = 1 then
    if (w.store.bucket handle).free_storage then
      { world := w.call .free_storage handle stack
        stack := ⟨handle, .free_storage obj, failure⟩ :: stack
        bailout := false }
    else release handle obj failure w stack
  else finish obj failure w stack

/-- The release of one of the caller's references, until it ends or calls a callback. -/
def zend_objects_store_del_ref_by_handle_ex (handle : ℕ) (w : World) (stack : List Frame) :
    State :=
  if w.store.object_buckets = 0 then
    { world := w, stack := stack, bailout := false }
  else
    let w := w.take handle
    let obj := w.store.address handle
    if (w.store.bucket handle).valid then
      let w := w.access obj
      if (w.store.bucket handle).refcount = 1 then
        if (w.store.bucket handle).destructor_called then
          afterDtor handle false w stack
        else
          { world := (w.setCalled handle).call .dtor handle stack
            stack := ⟨handle, .dtor, false⟩ :: stack
            bailout := false }
      else finish obj false w stack
    else finish obj false w stack

/-- The innermost callback ends, by itself or by a bailout that `zend_catch` stops. -/
def resume (failed : Bool) (w : World) : List Frame → State
  | [] => { world := w, stack := [], bailout := false }
  | f :: stack =>
    match f.phase with
    | .dtor => afterDtor f.handle (f.failure || failed) w stack
    | .free_storage obj => release f.handle obj (f.failure || failed) w stack

theorem resume_dtor {failed : Bool} {w : World} {f : Frame} {stack : List Frame}
    (hp : f.phase = .dtor) :
    resume failed w (f :: stack) = afterDtor f.handle (f.failure || failed) w stack := by
  unfold resume
  simp only [hp]

theorem resume_free_storage {failed : Bool} {w : World} {f : Frame} {stack : List Frame}
    {obj : ℕ} (hp : f.phase = .free_storage obj) :
    resume failed w (f :: stack) = release f.handle obj (f.failure || failed) w stack := by
  unfold resume
  simp only [hp]

/-! ## Runs -/

/-- What the script, or the innermost callback, does next. `moved` is the address that
`erealloc` returns if the put grows the array. -/
inductive Action where
  | put (free_storage : Bool) (moved : ℕ)
  | add_ref (handle : ℕ)
  | del_ref (handle : ℕ)
  | ret (failed : Bool)
  deriving DecidableEq

/-- The object of the put is the next one, and its reference belongs to the caller. -/
def put (free_storage : Bool) (moved : ℕ) (w : World) : World :=
  let handle := w.store.nextHandle
  let store := zend_objects_store_put w.created.length free_storage moved w.store
  World.access (store.address handle)
    { w with
      store := store
      owned := Function.update w.owned handle (w.owned handle + 1)
      created := w.created ++ [free_storage] }

def addRef (handle : ℕ) (w : World) : World :=
  { w with
    store := zend_objects_store_add_ref handle w.store
    owned := Function.update w.owned handle (w.owned handle + 1) }

def step (s : State) : Action → State
  | .put free_storage moved => { s with world := put free_storage moved s.world }
  | .add_ref handle => { s with world := addRef handle s.world }
  | .del_ref handle => zend_objects_store_del_ref_by_handle_ex handle s.world s.stack
  | .ret failed => resume failed s.world s.stack

def run (s : State) (actions : List Action) : State :=
  actions.foldl step s

end PhpRuntime.Objects
