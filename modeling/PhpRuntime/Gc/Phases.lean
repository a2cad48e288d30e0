import PhpRuntime.Gc.Heap

/-!
# The three phases of a collection

The walks of `Zend/zend_gc.c`, one definition for each function. A walk recurses along the
graph and has no bound of its own, so each takes fuel and returns `none` when it runs out; a
`goto tail_call` is a call like any other. Where the source first skips the NULL entries at
the end of a property table (so that the last zval can be a tail call), the loop below meets
them and skips them.
-/

set_option autoImplicit false

namespace PhpRuntime.Gc

def walkTable (f : ZvalPtr → Cells → Option Cells) : List ZvalPtr → Cells → Option Cells
  | [], s => some s
  | pz :: t, s => (f pz s).bind (walkTable f t)

def walkSlots (f : ZvalPtr → Cells → Option Cells) : List (Option ZvalPtr) → Cells → Option Cells
  | [], s => some s
  | none :: t, s => walkSlots f t s
  | some pz :: t, s => (f pz s).bind (walkSlots f t)

/-- A step at every zval that `get_gc` returns for a valid object. -/
def Heap.walkObject (H : Heap) (f : ZvalPtr → Cells → Option Cells) (h : Handle) (s : Cells) :
    Option Cells :=
  if (H.bucket h).valid then
    match (H.bucket h).getGc with
    | some ⟨table, none⟩ => walkSlots f table s
    | some ⟨table, some props⟩ => (walkSlots f table s).bind (walkTable f (H.table props))
    | none => some s
  else some s

section

variable (H : Heap)

/-- `zval_scan_black`, called for a zval whatever its colour. -/
def zvalScanBlack : ℕ → ZvalPtr → Cells → Option Cells
  | 0, _, _ => none
  | fuel + 1, pz, s =>
    let child pz s :=
      let s := H.addRef 1 pz s
      if (s.zval pz).word.color ≠ .black then zvalScanBlack fuel pz s else some s
    let s := s.zvalSetColor pz .black
    match H.value pz with
    | .object h =>
      if H.objectBuckets then
        let s := s.objAddRef h 1
        if (s.obj h).word.color ≠ .black then
          H.walkObject child h (s.objSetColor h .black)
        else some s
      else some s
    | .array ht => if ht ≠ H.symbolTable then walkTable child (H.table ht) s else some s
    | .scalar => some s

/-- `zobj_scan_black`. -/
def zobjScanBlack (fuel : ℕ) (h : Handle) (s : Cells) : Option Cells :=
  let child pz s :=
    let s := H.addRef 1 pz s
    if (s.zval pz).word.color ≠ .black then zvalScanBlack H fuel pz s else some s
  H.walkObject child h (s.objSetColor h .black)

/-- `zval_mark_grey`. -/
def zvalMarkGrey : ℕ → ZvalPtr → Cells → Option Cells
  | 0, _, _ => none
  | fuel + 1, pz, s =>
    let child pz s := zvalMarkGrey fuel pz (H.addRef (-1) pz s)
    if (s.zval pz).word.color ≠ .grey then
      let s := s.zvalSetColor pz .grey
      match H.value pz with
      | .object h =>
        if H.objectBuckets then
          let s := s.objAddRef h (-1)
          if (s.obj h).word.color ≠ .grey then
            H.walkObject child h (s.objSetColor h .grey)
          else some s
        else some s
      | .array ht =>
        if ht = H.symbolTable then some (s.zvalSetColor pz .black)
        else walkTable child (H.table ht) s
      | .scalar => some s
    else some s

/-- `zobj_mark_grey`. -/
def zobjMarkGrey (fuel : ℕ) (h : Handle) (s : Cells) : Option Cells :=
  let child pz s := zvalMarkGrey H fuel pz (H.addRef (-1) pz s)
  if (s.obj h).word.color ≠ .grey then H.walkObject child h (s.objSetColor h .grey) else some s

/-- `zval_scan`. -/
def zvalScan : ℕ → ZvalPtr → Cells → Option Cells
  | 0, _, _ => none
  | fuel + 1, pz, s =>
    if (s.zval pz).word.color = .grey then
      if 0 < (s.zval pz).refcount then zvalScanBlack H fuel pz s
      else
        let s := s.zvalSetColor pz .white
        match H.value pz with
        | .object h =>
          if H.objectBuckets then
            if (s.obj h).word.color = .grey then
              if 0 < (s.obj h).refcount then zobjScanBlack H fuel h s
              else H.walkObject (zvalScan fuel) h (s.objSetColor h .white)
            else some s
          else some s
        | .array ht =>
          if ht = H.symbolTable then some (s.zvalSetColor pz .black)
          else walkTable (zvalScan fuel) (H.table ht) s
        | .scalar => some s
    else some s

/-- `zobj_scan`. -/
def zobjScan (fuel : ℕ) (h : Handle) (s : Cells) : Option Cells :=
  if H.objectBuckets then
    if (s.obj h).word.color = .grey then
      if 0 < (s.obj h).refcount then zobjScanBlack H fuel h s
      else H.walkObject (zvalScan H fuel) h (s.objSetColor h .white)
    else some s
  else some s

/-- `zval_collect_white`. A zval goes to the list after the property table of its object and
before the hash table `get_gc` returned, or at once when there is no such table. -/
def zvalCollectWhite : ℕ → ZvalPtr → Cells → Option Cells
  | 0, _, _ => none
  | fuel + 1, pz, s =>
    let child pz s := zvalCollectWhite fuel pz (H.addRef 1 pz s)
    if (s.zval pz).word = .white then
      let s := s.zvalSetColor pz .black
      match H.value pz with
      | .object h =>
        if H.objectBuckets then
          if (s.obj h).word = .white then
            let s := s.objSetColor h .purple
            if (H.bucket h).valid then
              match (H.bucket h).getGc with
              | some ⟨table, none⟩ => walkSlots child table (s.putOnList pz)
              | some ⟨table, some props⟩ =>
                (walkSlots child table s).bind fun s =>
                  walkTable child (H.table props) (s.putOnList pz)
              | none => some (s.putOnList pz)
            else some (s.putOnList pz)
          else some (s.putOnList pz)
        else some (s.putOnList pz)
      | .array ht => walkTable child (H.table ht) (s.putOnList pz)
      | .scalar => some (s.putOnList pz)
    else some s

/-- `zobj_collect_white`. -/
def zobjCollectWhite (fuel : ℕ) (h : Handle) (s : Cells) : Option Cells :=
  let child pz s := zvalCollectWhite H fuel pz (H.addRef 1 pz s)
  if H.objectBuckets then
    if (s.obj h).word = .white then H.walkObject child h (s.objSetColor h .purple) else some s
  else some s

/-- One round of `gc_mark_roots`. -/
def markRoot (fuel : ℕ) (current : Slot) (s : Globals) : Option Globals :=
  match s.root current with
  | .object h =>
    if H.objectBuckets then
      if (s.cells.obj h).word.color = .purple then
        (zobjMarkGrey H fuel h s.cells).map fun c => { s with cells := c }
      else some ({ s with cells := s.cells.objSetAddress h .null }.removeFromBuffer current)
    else some s
  | .zval pz =>
    if (s.cells.zval pz).word.color = .purple then
      (zvalMarkGrey H fuel pz s.cells).map fun c => { s with cells := c }
    else some ({ s with cells := s.cells.zvalSetAddress pz .null }.removeFromBuffer current)

/-- The loop of `gc_mark_roots`. -/
def markRootsFrom : ℕ → Option Slot → Globals → Option Globals
  | _, none, s => some s
  | 0, some _, _ => none
  | fuel + 1, some current, s =>
    (markRoot H fuel current s).bind fun s => markRootsFrom fuel (s.next (some current)) s

/-- `gc_mark_roots`. -/
def gcMarkRoots (fuel : ℕ) (s : Globals) : Option Globals := markRootsFrom H fuel (s.next none) s

/-- One round of `gc_scan_roots`. -/
def scanRoot (fuel : ℕ) (current : Slot) (s : Globals) : Option Globals :=
  match s.root current with
  | .object h => (zobjScan H fuel h s.cells).map fun c => { s with cells := c }
  | .zval pz => (zvalScan H fuel pz s.cells).map fun c => { s with cells := c }

/-- The loop of `gc_scan_roots`. -/
def scanRootsFrom : ℕ → Option Slot → Globals → Option Globals
  | _, none, s => some s
  | 0, some _, _ => none
  | fuel + 1, some current, s =>
    (scanRoot H fuel current s).bind fun s => scanRootsFrom fuel (s.next (some current)) s

/-- `gc_scan_roots`. -/
def gcScanRoots (fuel : ℕ) (s : Globals) : Option Globals := scanRootsFrom H fuel (s.next none) s

/-- One round of `gc_collect_roots`. -/
def collectRoot (fuel : ℕ) (current : Slot) (s : Globals) : Option Globals :=
  let collected : Option Cells :=
    match s.root current with
    | .object h =>
      if H.objectBuckets then zobjCollectWhite H fuel h (s.cells.objSetAddress h .null)
      else some s.cells
    | .zval pz => zvalCollectWhite H fuel pz (s.cells.zvalSetAddress pz .null)
  collected.map fun c => { s with cells := c }.removeFromBuffer current

/-- The loop of `gc_collect_roots`. -/
def collectRootsFrom : ℕ → Option Slot → Globals → Option Globals
  | _, none, s => some s
  | 0, some _, _ => none
  | fuel + 1, some current, s =>
    (collectRoot H fuel current s).bind fun s => collectRootsFrom fuel (s.next (some current)) s

/-- `gc_collect_roots`. -/
def gcCollectRoots (fuel : ℕ) (s : Globals) : Option Globals :=
  collectRootsFrom H fuel (s.next none) s

/-- The first part of `gc_collect_cycles`: the three phases, with an empty list to free at
the start. -/
def gcCollect (fuel : ℕ) (s : Globals) : Option Globals :=
  (gcMarkRoots H fuel { s with cells := { s.cells with zvalToFree := .freeListEnd } }).bind
    fun s => (gcScanRoots H fuel s).bind (gcCollectRoots H fuel)

end

end PhpRuntime.Gc
