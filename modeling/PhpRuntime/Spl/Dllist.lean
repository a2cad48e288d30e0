import Mathlib.Data.Finset.Card
import PhpRuntime.Lib.LinkedSegment
import PhpRuntime.Spl.Zvals

/-!
# `SplDoublyLinkedList`

The list of `ext/spl/spl_dllist.c`: the functions `spl_ptr_llist_*` on elements in memory,
with `spl_ptr_llist_zval_ctor` and `spl_ptr_llist_zval_dtor` as the hooks of every list,
and the methods of the class. A freed element keeps the words it last held. The counters
`count` and `rc` are taken to be large enough, and what the destructor of a freed zval
does is a step of its own.
-/

set_option autoImplicit false

namespace PhpRuntime.Spl

open PhpRuntime.Lib

abbrev Addr := ℕ

/-- `spl_ptr_llist_element`. -/
structure Element where
  prev : Option Addr
  next : Option Addr
  rc : ℤ
  data : Option ZvalAddr

/-- The elements in memory, which of them are allocated, and the zvals. -/
structure Memory (ν : Type) where
  elements : Addr → Element
  live : Finset Addr
  zvals : Zvals ν

/-- `spl_ptr_llist`. -/
structure Llist where
  head : Option Addr
  tail : Option Addr
  count : ℤ

variable {ν : Type}

namespace Memory

def next (m : Memory ν) (a : Addr) : Option Addr := (m.elements a).next

def prev (m : Memory ν) (a : Addr) : Option Addr := (m.elements a).prev

def data (m : Memory ν) (a : Addr) : Option ZvalAddr := (m.elements a).data

def rc (m : Memory ν) (a : Addr) : ℤ := (m.elements a).rc

/-- A store through a pointer that has been tested against NULL. -/
def storeAt (m : Memory ν) (p : Option Addr) (f : Element → Element) : Memory ν :=
  { m with elements := fun x => if p = some x then f (m.elements x) else m.elements x }

def onZvals (m : Memory ν) (f : Zvals ν → Zvals ν) : Memory ν := { m with zvals := f m.zvals }

/-- `spl_ptr_llist_zval_dtor`. -/
def zvalDtor (m : Memory ν) (elem : Addr) : Memory ν :=
  match m.data elem with
  | none => m
  | some z => m.onZvals fun zs => zs.zvalPtrDtor z

/-- `spl_ptr_llist_zval_ctor`. -/
def zvalCtor (m : Memory ν) (elem : Addr) : Memory ν :=
  match m.data elem with
  | none => m
  | some z => m.onZvals fun zs => zs.addref z

/-- `zval_ptr_dtor` on a pointer that may be NULL. -/
def zvalPtrDtor (m : Memory ν) (p : Option ZvalAddr) : Memory ν :=
  match p with
  | none => m
  | some z => m.onZvals fun zs => zs.zvalPtrDtor z

/-- `SPL_LLIST_DELREF`. -/
def delref (m : Memory ν) (elem : Addr) : Memory ν :=
  let m := m.storeAt (some elem) fun e => { e with rc := e.rc - 1 }
  if m.rc elem = 0 then { m with live := m.live.erase elem } else m

/-- `SPL_LLIST_CHECK_DELREF`. -/
def checkDelref (m : Memory ν) (p : Option Addr) : Memory ν :=
  match p with
  | none => m
  | some elem => m.delref elem

/-- `SPL_LLIST_CHECK_ADDREF`. -/
def checkAddref (m : Memory ν) (p : Option Addr) : Memory ν :=
  m.storeAt p fun e => { e with rc := e.rc + 1 }

/-- `emalloc` of an element that is filled with `e`. -/
def emalloc (m : Memory ν) (emalloc : Emalloc) (e : Element) : Addr × Memory ν :=
  (emalloc.addr m.live,
    { (m.storeAt (some (emalloc.addr m.live)) fun _ => e) with
      live := insert (emalloc.addr m.live) m.live })

/-- A walk that meets no element twice ends within this many steps. -/
def walkBound (m : Memory ν) : ℕ := m.live.card + 1

end Memory

/-! ## `spl_ptr_llist_*` -/

/-- `spl_ptr_llist_init`. -/
def splPtrLlistInit : Llist := { head := none, tail := none, count := 0 }

/-- `spl_ptr_llist_unshift`. -/
def splPtrLlistUnshift (emalloc : Emalloc) (m : Memory ν) (llist : Llist) (data : ZvalAddr) :
    Memory ν × Llist :=
  let (elem, m) := m.emalloc emalloc { data := some data, rc := 1, prev := none, next := llist.head }
  let m := m.storeAt llist.head fun e => { e with prev := some elem }
  let tail := if llist.head.isSome then llist.tail else some elem
  (m.zvalCtor elem, { head := some elem, tail := tail, count := llist.count + 1 })

/-- `spl_ptr_llist_push`. -/
def splPtrLlistPush (emalloc : Emalloc) (m : Memory ν) (llist : Llist) (data : ZvalAddr) :
    Memory ν × Llist :=
  let (elem, m) := m.emalloc emalloc { data := some data, rc := 1, prev := llist.tail, next := none }
  let m := m.storeAt llist.tail fun e => { e with next := some elem }
  let head := if llist.tail.isSome then llist.head else some elem
  (m.zvalCtor elem, { head := head, tail := some elem, count := llist.count + 1 })

/-- The end of `spl_ptr_llist_pop` and `spl_ptr_llist_shift`: the element is let go and its
data returned. -/
def letGo (m : Memory ν) (elem : Addr) : Option ZvalAddr × Memory ν :=
  let data := m.data elem
  let m := m.zvalDtor elem
  let m := m.storeAt (some elem) fun e => { e with data := none }
  (data, m.delref elem)

/-- `spl_ptr_llist_pop`. -/
def splPtrLlistPop (m : Memory ν) (llist : Llist) : Option ZvalAddr × Memory ν × Llist :=
  match llist.tail with
  | none => (none, m, llist)
  | some tail =>
    let m := m.storeAt (m.prev tail) fun e => { e with next := none }
    let head := if (m.prev tail).isSome then llist.head else none
    let llist := { head := head, tail := m.prev tail, count := llist.count - 1 }
    ((letGo m tail).1, (letGo m tail).2, llist)

/-- `spl_ptr_llist_shift`. -/
def splPtrLlistShift (m : Memory ν) (llist : Llist) : Option ZvalAddr × Memory ν × Llist :=
  match llist.head with
  | none => (none, m, llist)
  | some head =>
    let m := m.storeAt (m.next head) fun e => { e with prev := none }
    let tail := if (m.next head).isSome then llist.tail else none
    let llist := { head := m.next head, tail := tail, count := llist.count - 1 }
    ((letGo m head).1, (letGo m head).2, llist)

/-- `spl_ptr_llist_last`. -/
def splPtrLlistLast (m : Memory ν) (llist : Llist) : Option ZvalAddr := llist.tail.bind m.data

/-- `spl_ptr_llist_first`. -/
def splPtrLlistFirst (m : Memory ν) (llist : Llist) : Option ZvalAddr := llist.head.bind m.data

/-- `spl_ptr_llist_offset`: the loop makes `offset` steps, or fewer if the list ends. -/
def splPtrLlistOffset (m : Memory ν) (llist : Llist) (offset : ℤ) (backward : Bool) :
    Option Addr :=
  if backward then follow m.prev offset.toNat llist.tail
  else follow m.next offset.toNat llist.head

/-- The loop of `spl_ptr_llist_copy`. -/
def copyLoop (emalloc : Emalloc) : ℕ → Memory ν → Option Addr → Llist → Memory ν × Llist
  | 0, m, _, target => (m, target)
  | _ + 1, m, none, target => (m, target)
  | n + 1, m, some current, target =>
    let next := m.next current
    let m := m.zvalCtor current
    match m.data current with
    | none => (m, target)
    | some data =>
      let pushed := splPtrLlistPush emalloc m target data
      copyLoop emalloc n pushed.1 next pushed.2

/-- `spl_ptr_llist_copy`. -/
def splPtrLlistCopy (emalloc : Emalloc) (m : Memory ν) (source target : Llist) :
    Memory ν × Llist :=
  copyLoop emalloc m.walkBound m source.head target

/-- The loop of `spl_ptr_llist_destroy`. -/
def destroyLoop : ℕ → Memory ν → Option Addr → Memory ν
  | 0, m, _ => m
  | _ + 1, m, none => m
  | n + 1, m, some current =>
    let next := m.next current
    destroyLoop n ((m.zvalDtor current).delref current) next

/-- `spl_ptr_llist_destroy`. -/
def splPtrLlistDestroy (m : Memory ν) (llist : Llist) : Memory ν :=
  destroyLoop m.walkBound m llist.head

/-! ## The class -/

/-- `SPL_DLLIST_IT_DELETE`. -/
def splDllistItDelete : ℕ := 1

/-- `SPL_DLLIST_IT_LIFO`. -/
def splDllistItLifo : ℕ := 2

/-- `SPL_DLLIST_IT_MASK`. -/
def splDllistItMask : ℕ := 3

/-- `SPL_DLLIST_IT_FIX`. -/
def splDllistItFix : ℕ := 4

/-- `spl_dllist_object`. -/
structure DllistObject where
  llist : Llist
  traverse_position : ℤ
  traverse_pointer : Option Addr
  flags : ℕ

namespace DllistObject

/-- `intern->flags & SPL_DLLIST_IT_LIFO`. -/
def lifo (intern : DllistObject) : Bool := intern.flags &&& splDllistItLifo ≠ 0

end DllistObject

/-- The class of the list that an object's class is or descends from. -/
inductive DllistClass where
  | SplDoublyLinkedList
  | SplQueue
  | SplStack
  deriving DecidableEq, Repr

/-- The flags that the loop over the parent classes sets. -/
def DllistClass.flags : DllistClass → ℕ
  | SplDoublyLinkedList => 0
  | SplQueue => splDllistItFix
  | SplStack => splDllistItFix ||| splDllistItLifo

/-- The exceptions of the methods. -/
inductive ExceptionClass where
  | RuntimeException
  | OutOfRangeException
  deriving DecidableEq, Repr

/-- What a method returns. A zval is returned as a copy of its value. -/
inductive Return (ν : Type) where
  | true
  | null
  | long (l : ℤ)
  | value (v : ν)
  | exception (ce : ExceptionClass) (message : String)
  deriving DecidableEq, Repr

/-- `RETURN_ZVAL` without its last argument. -/
def returnZval (m : Memory ν) (z : ZvalAddr) : Return ν := .value (m.zvals.zval z).value

/-- An index argument: `IS_NULL`, a number (a double is cut to its integer part), a string,
which may be numeric, or something else. -/
inductive Index where
  | null
  | long (l : ℤ)
  | string (numeric : Option ℤ)
  | other
  deriving DecidableEq, Repr

/-- `spl_offset_convert_to_long`. -/
def splOffsetConvertToLong : Index → ℤ
  | .long l => l
  | .string (some l) => l
  | _ => -1

/-- `spl_dllist_object_new_ex` without an original. -/
def splDllistObjectNew (ce : DllistClass) : DllistObject where
  llist := splPtrLlistInit
  traverse_position := 0
  traverse_pointer := none
  flags := ce.flags

/-- `spl_dllist_object_new_ex` for a clone of `other`. -/
def splDllistObjectClone (emalloc : Emalloc) (m : Memory ν) (ce : DllistClass)
    (other : DllistObject) : Memory ν × DllistObject :=
  let (m, llist) := splPtrLlistCopy emalloc m other.llist splPtrLlistInit
  (m.checkAddref llist.head,
    { llist := llist
      traverse_position := 0
      traverse_pointer := llist.head
      flags := other.flags ||| ce.flags })

/-- The loop of `spl_dllist_object_free_storage`. -/
def popLoop : ℕ → Memory ν → Llist → Memory ν × Llist
  | 0, m, llist => (m, llist)
  | n + 1, m, llist =>
    if 0 < llist.count then
      let (tmp, m, llist) := splPtrLlistPop m llist
      popLoop n (m.zvalPtrDtor tmp) llist
    else (m, llist)

/-- `spl_dllist_object_free_storage`. -/
def splDllistObjectFreeStorage (m : Memory ν) (intern : DllistObject) : Memory ν :=
  let (m, llist) := popLoop intern.llist.count.toNat m intern.llist
  let m := splPtrLlistDestroy m llist
  m.checkDelref intern.traverse_pointer

namespace DllistObject

def setLlist (intern : DllistObject) (llist : Llist) : DllistObject := { intern with llist := llist }

/-- `SplDoublyLinkedList::push`. -/
def push (emalloc : Emalloc) (m : Memory ν) (intern : DllistObject) (value : ZvalAddr) :
    Return ν × Memory ν × DllistObject :=
  let (value, zvals) := m.zvals.separateArgIfRef emalloc value
  let (m, llist) := splPtrLlistPush emalloc { m with zvals := zvals } intern.llist value
  (.true, m, intern.setLlist llist)

/-- `SplDoublyLinkedList::unshift`. -/
def unshift (emalloc : Emalloc) (m : Memory ν) (intern : DllistObject) (value : ZvalAddr) :
    Return ν × Memory ν × DllistObject :=
  let (value, zvals) := m.zvals.separateArgIfRef emalloc value
  let (m, llist) := splPtrLlistUnshift emalloc { m with zvals := zvals } intern.llist value
  (.true, m, intern.setLlist llist)

/-- `SplDoublyLinkedList::pop`. -/
def pop (m : Memory ν) (intern : DllistObject) : Return ν × Memory ν × DllistObject :=
  let (value, m, llist) := splPtrLlistPop m intern.llist
  match value with
  | none =>
    (.exception .RuntimeException "Can't pop from an empty datastructure", m, intern.setLlist llist)
  | some z => (returnZval m z, m.zvalPtrDtor (some z), intern.setLlist llist)

/-- `SplDoublyLinkedList::shift`. -/
def shift (m : Memory ν) (intern : DllistObject) : Return ν × Memory ν × DllistObject :=
  let (value, m, llist) := splPtrLlistShift m intern.llist
  match value with
  | none =>
    (.exception .RuntimeException "Can't shift from an empty datastructure", m,
      intern.setLlist llist)
  | some z => (returnZval m z, m.zvalPtrDtor (some z), intern.setLlist llist)

/-- What `top` and `bottom` return for the data of an end. -/
def peek (m : Memory ν) : Option ZvalAddr → Return ν
  | none => .exception .RuntimeException "Can't peek at an empty datastructure"
  | some z => returnZval m z

/-- `SplDoublyLinkedList::top`. -/
def top (m : Memory ν) (intern : DllistObject) : Return ν := peek m (splPtrLlistLast m intern.llist)

/-- `SplDoublyLinkedList::bottom`. -/
def bottom (m : Memory ν) (intern : DllistObject) : Return ν :=
  peek m (splPtrLlistFirst m intern.llist)

/-- `SplDoublyLinkedList::count`. -/
def count (intern : DllistObject) : Return ν := .long intern.llist.count

/-- `SplDoublyLinkedList::setIteratorMode`. -/
def setIteratorMode (intern : DllistObject) (value : ℕ) : Return ν × DllistObject :=
  if intern.flags &&& splDllistItFix ≠ 0 ∧
      intern.flags &&& splDllistItLifo ≠ value &&& splDllistItLifo then
    (.exception .RuntimeException
      "Iterators' LIFO/FIFO modes for SplStack/SplQueue objects are frozen", intern)
  else
    (.long (value &&& splDllistItMask : ℕ), { intern with flags := value &&& splDllistItMask })

def inRange (intern : DllistObject) (index : ℤ) : Bool := 0 ≤ index ∧ index < intern.llist.count

/-- `SplDoublyLinkedList::offsetGet`. -/
def offsetGet (m : Memory ν) (intern : DllistObject) (zindex : Index) : Return ν :=
  let index := splOffsetConvertToLong zindex
  if ¬ intern.inRange index then
    .exception .OutOfRangeException "Offset invalid or out of range"
  else
    match splPtrLlistOffset m intern.llist index intern.lifo with
    | none => .exception .OutOfRangeException "Offset invalid"
    | some element =>
      match m.data element with
      | none => .null
      | some value => returnZval m value

/-- `SplDoublyLinkedList::offsetSet`. -/
def offsetSet (emalloc : Emalloc) (m : Memory ν) (intern : DllistObject) (zindex : Index)
    (value : ZvalAddr) : Return ν × Memory ν × DllistObject :=
  let (value, zvals) := m.zvals.separateArgIfRef emalloc value
  let m := { m with zvals := zvals }
  if zindex = .null then
    let (m, llist) := splPtrLlistPush emalloc m intern.llist value
    (.null, m, intern.setLlist llist)
  else
    let index := splOffsetConvertToLong zindex
    if ¬ intern.inRange index then
      (.exception .OutOfRangeException "Offset invalid or out of range",
        m.zvalPtrDtor (some value), intern)
    else
      match splPtrLlistOffset m intern.llist index intern.lifo with
      | none =>
        (.exception .OutOfRangeException "Offset invalid", m.zvalPtrDtor (some value), intern)
      | some element =>
        let m := m.zvalDtor element
        let m := m.zvalPtrDtor (m.data element)
        let m := m.storeAt (some element) fun e => { e with data := some value }
        (.null, m.zvalCtor element, intern)

/-- The list without an element: its neighbours are connected and the ends taken care of. -/
def unlink (m : Memory ν) (llist : Llist) (element : Addr) : Memory ν × Llist :=
  let m := m.storeAt (m.prev element) fun e => { e with next := m.next element }
  let m := m.storeAt (m.next element) fun e => { e with prev := m.prev element }
  (m,
    { head := if llist.head = some element then m.next element else llist.head
      tail := if llist.tail = some element then m.prev element else llist.tail
      count := llist.count - 1 })

/-- `SplDoublyLinkedList::offsetUnset`. -/
def offsetUnset (m : Memory ν) (intern : DllistObject) (zindex : Index) :
    Return ν × Memory ν × DllistObject :=
  let index := splOffsetConvertToLong zindex
  if ¬ intern.inRange index then
    (.exception .OutOfRangeException "Offset out of range", m, intern)
  else
    match splPtrLlistOffset m intern.llist index intern.lifo with
    | none => (.exception .OutOfRangeException "Offset invalid", m, intern)
    | some element =>
      let (m, llist) := unlink m intern.llist element
      let m := m.zvalDtor element
      let m := m.zvalPtrDtor (m.data element)
      let m := m.storeAt (some element) fun e => { e with data := none }
      (.null, m.delref element, intern.setLlist llist)

end DllistObject

end PhpRuntime.Spl
