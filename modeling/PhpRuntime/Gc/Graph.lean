import Mathlib.Data.Set.Defs
import PhpRuntime.Gc.Phases

/-!
# The graph of a heap

The zvals and the objects of a heap as the nodes of a graph of counted nodes: an object zval
has an edge to its object, an array zval to the zvals of its hash table, an object to the
zvals `get_gc` returns for it. The zval of the symbol table is pinned. A store to the cells
is an operation of the graph, and a loop over zvals is a sequence of visits.
-/

set_option autoImplicit false

namespace PhpRuntime.Gc

open PhpRuntime.Lib PhpRuntime.Lib.TrialDeletion
open scoped UInt32.CommRing

/-- A node of the heap graph. -/
inductive Node where
  | zval (pz : ZvalPtr)
  | obj (handle : Handle)
deriving DecidableEq, Repr

/-- The zvals `get_gc` returns for an object, without the NULL entries. -/
def Heap.children (H : Heap) (h : Handle) : List ZvalPtr :=
  if (H.bucket h).valid then
    match (H.bucket h).getGc with
    | some ⟨table, none⟩ => table.filterMap id
    | some ⟨table, some props⟩ => table.filterMap id ++ H.table props
    | none => []
  else []

def Heap.succ (H : Heap) : Node → List Node
  | .zval pz =>
    match H.value pz with
    | .object h => if H.objectBuckets then [.obj h] else []
    | .array ht => if ht = H.symbolTable then [] else (H.table ht).map .zval
    | .scalar => []
  | .obj h => (H.children h).map .zval

def Heap.pinned (H : Heap) : Node → Bool
  | .zval pz => H.isSymbolTable pz
  | .obj _ => false

/-- Zvals are put on the list to free, objects are not. -/
def Node.isZval : Node → Bool
  | .zval _ => true
  | .obj _ => false

theorem Heap.isSymbolTable_iff (H : Heap) (pz : ZvalPtr) :
    H.isSymbolTable pz = true ↔ H.value pz = .array H.symbolTable := by
  unfold Heap.isSymbolTable
  cases H.value pz <;> simp

def Heap.graph (H : Heap) : Graph Node where
  succ := H.succ
  pinned := H.pinned
  listed := Node.isZval
  leaf n hn := by
    cases n with
    | zval pz => simp [Heap.succ, (H.isSymbolTable_iff pz).mp hn]
    | obj h => simp [Heap.pinned] at hn

def Cells.cell (s : Cells) : Node → Cell
  | .zval pz => s.zval pz
  | .obj h => s.obj h

/-- The cells as a state of the graph, with the zvals of the list to free. -/
def Cells.view (s : Cells) (freed : List ZvalPtr) : State Node UInt32 where
  color n := (s.cell n).word.color
  buffered n := (s.cell n).word.address.isSlot
  rc n := (s.cell n).refcount
  freed := (freed.map Node.zval : List Node)

variable {H : Heap} {s s' : Cells} {pz : ZvalPtr} {h : Handle} {l : List ZvalPtr}

/-! ## What a zval holds on to -/

theorem succ_object (hv : H.value pz = .object h) (hb : H.objectBuckets = true) :
    H.graph.succ (.zval pz) = [.obj h] := by
  simp [Heap.graph, Heap.succ, hv, hb]

theorem succ_object_none (hv : H.value pz = .object h) (hb : ¬ H.objectBuckets = true) :
    H.graph.succ (.zval pz) = [] := by
  simp [Heap.graph, Heap.succ, hv, hb]

theorem succ_array {ht : TablePtr} (hv : H.value pz = .array ht) (hs : ht ≠ H.symbolTable) :
    H.graph.succ (.zval pz) = (H.table ht).map .zval := by
  simp [Heap.graph, Heap.succ, hv, hs]

theorem succ_symbolTable {ht : TablePtr} (hv : H.value pz = .array ht) (hs : ht = H.symbolTable) :
    H.graph.succ (.zval pz) = [] := by
  simp [Heap.graph, Heap.succ, hv, hs]

theorem succ_scalar (hv : H.value pz = .scalar) : H.graph.succ (.zval pz) = [] := by
  simp [Heap.graph, Heap.succ, hv]

theorem not_symbolTable_of_object (hv : H.value pz = .object h) : H.isSymbolTable pz = false := by
  simp [Heap.isSymbolTable, hv]

theorem not_symbolTable_of_array {ht : TablePtr} (hv : H.value pz = .array ht)
    (hs : ht ≠ H.symbolTable) : H.isSymbolTable pz = false := by
  simp [Heap.isSymbolTable, hv, hs]

theorem not_symbolTable_of_scalar (hv : H.value pz = .scalar) : H.isSymbolTable pz = false := by
  simp [Heap.isSymbolTable, hv]

/-- A part of the heap that nothing leads out of. -/
def Heap.Closed (H : Heap) (M : Set Node) : Prop := ∀ v ∈ M, ∀ c ∈ H.graph.succ v, c ∈ M

namespace Heap.Closed

variable {M : Set Node}

theorem children (hM : H.Closed M) (hh : .obj h ∈ M) : ∀ pz ∈ H.children h, .zval pz ∈ M :=
  fun _ hpz => hM _ hh _ (List.mem_map_of_mem hpz)

theorem table (hM : H.Closed M) (hpz : .zval pz ∈ M) {ht : TablePtr}
    (hv : H.value pz = .array ht) (hs : ht ≠ H.symbolTable) :
    ∀ q ∈ H.table ht, .zval q ∈ M := fun q hq => by
  apply hM _ hpz
  rw [succ_array hv hs]
  exact List.mem_map_of_mem hq

theorem object (hM : H.Closed M) (hpz : .zval pz ∈ M) (hv : H.value pz = .object h)
    (hb : H.objectBuckets = true) : .obj h ∈ M := by
  apply hM _ hpz
  rw [succ_object hv hb]
  exact List.mem_singleton_self _

end Heap.Closed

/-! ## Stores -/

@[simp] theorem graph_pinned_zval : H.graph.pinned (.zval pz) = H.isSymbolTable pz := rfl

@[simp] theorem graph_pinned_obj : H.graph.pinned (.obj h) = false := rfl

@[simp] theorem graph_listed_zval : H.graph.listed (.zval pz) = true := rfl

@[simp] theorem graph_listed_obj : H.graph.listed (.obj h) = false := rfl

@[simp] theorem view_color_zval : (s.view l).color (.zval pz) = (s.zval pz).word.color := rfl

@[simp] theorem view_color_obj : (s.view l).color (.obj h) = (s.obj h).word.color := rfl

@[simp] theorem view_rc_zval : (s.view l).rc (.zval pz) = (s.zval pz).refcount := rfl

@[simp] theorem view_rc_obj : (s.view l).rc (.obj h) = (s.obj h).refcount := rfl

@[simp] theorem view_buffered_zval :
    (s.view l).buffered (.zval pz) = (s.zval pz).word.address.isSlot := rfl

@[simp] theorem view_buffered_obj :
    (s.view l).buffered (.obj h) = (s.obj h).word.address.isSlot := rfl

theorem Node.zval_injective : Function.Injective Node.zval := fun _ _ h => Node.zval.inj h

@[simp] theorem view_freed_count : (s.view l).freed.count (.zval pz) = l.count pz :=
  (Multiset.coe_count ..).trans (List.count_map_of_injective l Node.zval Node.zval_injective pz)

theorem view_ext {t : State Node UInt32} (hc : ∀ n, (s.cell n).word.color = t.color n)
    (hb : ∀ n, (s.cell n).word.address.isSlot = t.buffered n)
    (hr : ∀ n, (s.cell n).refcount = t.rc n)
    (hf : ((l.map Node.zval : List Node) : Multiset Node) = t.freed) : s.view l = t := by
  cases t
  unfold Cells.view
  congr 1
  · exact funext hc
  · exact funext hb
  · exact funext hr

theorem cell_zval (c : Cell) (n : Node) :
    ({ s with zval := Function.update s.zval pz c } : Cells).cell n =
      if n = .zval pz then c else s.cell n := by
  cases n with
  | zval q => simp [Cells.cell, Function.update_apply]
  | obj h => simp [Cells.cell]

theorem cell_obj (c : Cell) (n : Node) :
    ({ s with obj := Function.update s.obj h c } : Cells).cell n =
      if n = .obj h then c else s.cell n := by
  cases n with
  | zval q => simp [Cells.cell]
  | obj k => simp [Cells.cell, Function.update_apply]

theorem view_zvalSetColor (c : Color) :
    (s.zvalSetColor pz c).view l = (s.view l).paint (.zval pz) c := by
  apply view_ext
  · intro n
    rw [Cells.zvalSetColor, cell_zval, paint_color]
    split <;> rfl
  · intro n
    rw [Cells.zvalSetColor, cell_zval, paint_buffered]
    split
    · rename_i hn; rw [hn]; rfl
    · rfl
  · intro n
    rw [Cells.zvalSetColor, cell_zval, paint_rc]
    split
    · rename_i hn; rw [hn]; rfl
    · rfl
  · rfl

theorem view_objSetColor (c : Color) :
    (s.objSetColor h c).view l = (s.view l).paint (.obj h) c := by
  apply view_ext
  · intro n
    rw [Cells.objSetColor, cell_obj, paint_color]
    split <;> rfl
  · intro n
    rw [Cells.objSetColor, cell_obj, paint_buffered]
    split
    · rename_i hn; rw [hn]; rfl
    · rfl
  · intro n
    rw [Cells.objSetColor, cell_obj, paint_rc]
    split
    · rename_i hn; rw [hn]; rfl
    · rfl
  · rfl

theorem view_zvalAddRef (d : UInt32) :
    (s.zvalAddRef pz d).view l = (s.view l).addRc (.zval pz) d := by
  apply view_ext
  · intro n
    rw [Cells.zvalAddRef, cell_zval]
    split
    · rename_i hn; rw [hn]; rfl
    · rfl
  · intro n
    rw [Cells.zvalAddRef, cell_zval]
    split
    · rename_i hn; rw [hn]; rfl
    · rfl
  · intro n
    rw [Cells.zvalAddRef, cell_zval]
    simp only [State.addRc, Function.update_apply]
    split <;> rfl
  · rfl

theorem view_objAddRef (d : UInt32) :
    (s.objAddRef h d).view l = (s.view l).addRc (.obj h) d := by
  apply view_ext
  · intro n
    rw [Cells.objAddRef, cell_obj]
    split
    · rename_i hn; rw [hn]; rfl
    · rfl
  · intro n
    rw [Cells.objAddRef, cell_obj]
    split
    · rename_i hn; rw [hn]; rfl
    · rfl
  · intro n
    rw [Cells.objAddRef, cell_obj]
    simp only [State.addRc, Function.update_apply]
    split <;> rfl
  · rfl

theorem view_addRef (d : UInt32) :
    (H.addRef d pz s).view l = H.graph.edge d (.zval pz) (s.view l) := by
  unfold Heap.addRef Graph.edge
  rw [graph_pinned_zval]
  split
  · rfl
  · exact view_zvalAddRef d

theorem view_objAddRef_edge (d : UInt32) :
    (s.objAddRef h d).view l = H.graph.edge d (.obj h) (s.view l) := by
  unfold Graph.edge
  rw [graph_pinned_obj, if_neg (by simp)]
  exact view_objAddRef d

theorem view_zvalSetAddress {a : Address} (ha : a.isSlot = false) :
    (s.zvalSetAddress pz a).view l = (s.view l).unbuffer (.zval pz) := by
  apply view_ext
  · intro n
    rw [Cells.zvalSetAddress, cell_zval]
    split
    · rename_i hn; rw [hn]; rfl
    · rfl
  · intro n
    rw [Cells.zvalSetAddress, cell_zval]
    simp only [State.unbuffer, Function.update_apply]
    split
    · exact ha
    · rfl
  · intro n
    rw [Cells.zvalSetAddress, cell_zval]
    split
    · rename_i hn; rw [hn]; rfl
    · rfl
  · rfl

theorem view_objSetAddress {a : Address} (ha : a.isSlot = false) :
    (s.objSetAddress h a).view l = (s.view l).unbuffer (.obj h) := by
  apply view_ext
  · intro n
    rw [Cells.objSetAddress, cell_obj]
    split
    · rename_i hn; rw [hn]; rfl
    · rfl
  · intro n
    rw [Cells.objSetAddress, cell_obj]
    simp only [State.unbuffer, Function.update_apply]
    split
    · exact ha
    · rfl
  · intro n
    rw [Cells.objSetAddress, cell_obj]
    split
    · rename_i hn; rw [hn]; rfl
    · rfl
  · rfl

theorem view_putOnList (hb : (s.zval pz).word.address.isSlot = false)
    (hc : (s.zval pz).word.color = .black) (hl : s.zvalToFree.isSlot = false) :
    (s.putOnList pz).view (pz :: l) = (s.view l).list (.zval pz) := by
  have hcell : ∀ n, (s.putOnList pz).cell n = if n = .zval pz then
      ⟨(s.zval pz).refcount + 1, ⟨s.zvalToFree, .black⟩⟩ else s.cell n := fun n => by
    cases n with
    | zval q => simp [Cells.cell, Cells.putOnList, Function.update_apply]
    | obj k => simp [Cells.cell, Cells.putOnList]
  apply view_ext
  · intro n
    rw [hcell]
    split
    · rename_i hn; rw [hn]; exact hc.symm
    · rfl
  · intro n
    rw [hcell]
    split
    · rename_i hn; rw [hn]; exact hl.trans hb.symm
    · rfl
  · intro n
    rw [hcell]
    simp only [State.list, State.addRc, Function.update_apply]
    split <;> rfl
  · rfl

/-! ## What the first two walks leave alone -/

/-- The addresses and the list to free are as they were. -/
structure Frame (s s' : Cells) : Prop where
  address : ∀ n, (s'.cell n).word.address = (s.cell n).word.address
  zvalToFree : s'.zvalToFree = s.zvalToFree

namespace Frame

theorem refl (s : Cells) : Frame s s := ⟨fun _ => rfl, rfl⟩

theorem trans {s₁ : Cells} (h1 : Frame s s₁) (h2 : Frame s₁ s') : Frame s s' :=
  ⟨fun n => (h2.address n).trans (h1.address n), h2.zvalToFree.trans h1.zvalToFree⟩

theorem zvalSetColor (s : Cells) (pz : ZvalPtr) (c : Color) : Frame s (s.zvalSetColor pz c) := by
  refine ⟨fun n => ?_, rfl⟩
  rw [Cells.zvalSetColor, cell_zval]
  split
  · rename_i hn; rw [hn]; rfl
  · rfl

theorem objSetColor (s : Cells) (h : Handle) (c : Color) : Frame s (s.objSetColor h c) := by
  refine ⟨fun n => ?_, rfl⟩
  rw [Cells.objSetColor, cell_obj]
  split
  · rename_i hn; rw [hn]; rfl
  · rfl

theorem objAddRef (s : Cells) (h : Handle) (d : UInt32) : Frame s (s.objAddRef h d) := by
  refine ⟨fun n => ?_, rfl⟩
  rw [Cells.objAddRef, cell_obj]
  split
  · rename_i hn; rw [hn]; rfl
  · rfl

theorem addRef (H : Heap) (s : Cells) (pz : ZvalPtr) (d : UInt32) : Frame s (H.addRef d pz s) := by
  unfold Heap.addRef
  split
  · exact .refl s
  · refine ⟨fun n => ?_, rfl⟩
    rw [Cells.zvalAddRef, cell_zval]
    split
    · rename_i hn; rw [hn]; rfl
    · rfl

end Frame

/-! ## Loops -/

section Loops

variable {S : Type} {W : Walk Node S} {Rep : Cells → S → Prop}
  {f : ZvalPtr → Cells → Option Cells} {t : S}

/-- A step of a program at a zval of `M` follows the edge to it and visits it. -/
def Follows (M : Set Node) (W : Walk Node S) (Rep : Cells → S → Prop)
    (f : ZvalPtr → Cells → Option Cells) : Prop :=
  ∀ pz s s' t, .zval pz ∈ M → f pz s = some s' → Rep s t →
    ∃ t', W.Visit (.zval pz) (W.edge (.zval pz) t) t' ∧ Rep s' t'

theorem walkTable_visits {M : Set Node} (hf : Follows M W Rep f) {zs : List ZvalPtr}
    (hzs : ∀ pz ∈ zs, .zval pz ∈ M) (hw : walkTable f zs s = some s') (hr : Rep s t) :
    ∃ t', W.Visits (zs.map .zval) t t' ∧ Rep s' t' := by
  induction zs generalizing s t with
  | nil =>
    rw [walkTable, Option.some_inj] at hw
    exact ⟨t, .nil t, hw ▸ hr⟩
  | cons pz zs ih =>
    rw [walkTable, Option.bind_eq_some_iff] at hw
    obtain ⟨s₁, h1, h2⟩ := hw
    obtain ⟨t₁, hv, hr₁⟩ := hf pz s s₁ t (hzs pz (by simp)) h1 hr
    obtain ⟨t', hvs, hr'⟩ := ih (fun q hq => hzs q (by simp [hq])) h2 hr₁
    exact ⟨t', Walk.visits_cons_iff.mpr ⟨t₁, hv, hvs⟩, hr'⟩

theorem walkSlots_eq (zs : List (Option ZvalPtr)) (s : Cells) :
    walkSlots f zs s = walkTable f (zs.filterMap id) s := by
  induction zs generalizing s with
  | nil => rfl
  | cons z zs ih =>
    cases z with
    | none => exact ih s
    | some pz =>
      show (f pz s).bind (walkSlots f zs) = (f pz s).bind (walkTable f (zs.filterMap id))
      congr 1
      exact funext ih

theorem walkTable_append (xs ys : List ZvalPtr) (s : Cells) :
    walkTable f (xs ++ ys) s = (walkTable f xs s).bind (walkTable f ys) := by
  induction xs generalizing s with
  | nil => rfl
  | cons pz xs ih =>
    rw [List.cons_append, walkTable, walkTable, Option.bind_assoc]
    congr 1
    exact funext ih

theorem walkObject_eq (s : Cells) : H.walkObject f h s = walkTable f (H.children h) s := by
  unfold Heap.walkObject Heap.children
  split
  · cases (H.bucket h).getGc with
    | none => rfl
    | some g =>
      obtain ⟨table, props⟩ := g
      cases props with
      | none => exact walkSlots_eq table s
      | some props => rw [walkTable_append, ← walkSlots_eq]
  · rfl

theorem walkTable_isSome {M : Finset Node} {N : Set Node} (hW : W.Finishes)
    (hf : Follows N W Rep f) (hN : ∀ m ∈ M, m ∈ N) {n : ℕ}
    (htot : ∀ pz s t, .zval pz ∈ M → Rep s t → W.todoCount M t < n → (f pz s).isSome)
    {zs : List ZvalPtr} (hzs : ∀ pz ∈ zs, .zval pz ∈ M) (hr : Rep s t)
    (hn : W.todoCount M t < n) : (walkTable f zs s).isSome := by
  induction zs generalizing s t with
  | nil => rfl
  | cons pz zs ih =>
    obtain ⟨s₁, h1⟩ := Option.isSome_iff_exists.mp (htot pz s t (hzs pz (by simp)) hr hn)
    obtain ⟨t₁, hv, hr₁⟩ := hf pz s s₁ t (hN _ (hzs pz (by simp))) h1 hr
    rw [walkTable, h1, Option.bind_some]
    apply ih (fun q hq => hzs q (by simp [hq])) hr₁
    exact ((hW.todoCount_visit hv).trans (hW.todoCount_edge _ t)).trans_lt hn

end Loops

end PhpRuntime.Gc
