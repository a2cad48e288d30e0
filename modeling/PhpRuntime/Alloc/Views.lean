import Mathlib.Logic.Function.Basic
import Mathlib.Tactic.SplitIfs
import PhpRuntime.Alloc.FreeLists

/-!
# What the free lists look like

The links of the free blocks as functions. A store changes one of these functions at one place,
and the functions of the memory manager are followed from store to store.
-/

set_option autoImplicit false

namespace PhpRuntime.Alloc

/-- The sizes and the links of the blocks, and what the heap has about them. -/
@[ext] structure View where
  size : ℕ → ℕ
  parent : ℕ → Slot
  read : Slot → Ptr
  next : Ptr → Ptr
  prev : Ptr → Ptr
  freeBitmap : BitVec 64
  largeFreeBitmap : BitVec 64
  restCount : ℤ

namespace View

def write (v : View) (s : Slot) (p : Ptr) : View := { v with read := Function.update v.read s p }

def setParent (v : View) (b : ℕ) (s : Slot) : View :=
  { v with parent := Function.update v.parent b s }

def setNext (v : View) (p q : Ptr) : View := { v with next := Function.update v.next p q }

def setPrev (v : View) (p q : Ptr) : View := { v with prev := Function.update v.prev p q }

/-- `b` becomes a node at the link `s`, alone in its ring. -/
def linkNode (v : View) (b : ℕ) (s : Slot) : View :=
  { v with
    read := Function.update v.read s (.block b)
    parent := Function.update v.parent b s
    next := Function.update v.next (.block b) (.block b)
    prev := Function.update v.prev (.block b) (.block b) }

/-- The child of `x` is set, and the parent of what is the child then. -/
def adopt (v : View) (x : ℕ) (right : Bool) (p : Ptr) : View :=
  { v with
    read := Function.update v.read (.child x right) p
    parent := fun c => if p = .block c then .child x right else v.parent c }

/-- `x` gets the place of `b` in its tree. -/
def subst (v : View) (b x : ℕ) : View :=
  let v' := (v.write (v.parent b) (.block x)).setParent x (v.parent b)
  let v'' := v'.adopt x false (v'.read (.child b false))
  v''.adopt x true (v''.read (.child b true))

def IsChild (p : Ptr) : Prop := p = .null ∨ ∃ c, p = .block c

def IsLink : Slot → Prop
  | .null => False
  | .restBlock => False
  | _ => True

end View

open View

namespace FreeLists

def view (h : FreeLists) : View where
  size b := (h.mem b).size
  parent b := (h.mem b).parent
  read := h.read
  next := h.nextFreeBlock
  prev := h.prevFreeBlock
  freeBitmap := h.freeBitmap
  largeFreeBitmap := h.largeFreeBitmap
  restCount := h.restCount

variable {h : FreeLists} {p q : Ptr} {s : Slot} {b : ℕ}

@[simp] theorem view_size : h.view.size b = (h.mem b).size := rfl

@[simp] theorem view_parent : h.view.parent b = (h.mem b).parent := rfl

@[simp] theorem view_read : h.view.read = h.read := rfl

@[simp] theorem view_next : h.view.next = h.nextFreeBlock := rfl

@[simp] theorem view_prev : h.view.prev = h.prevFreeBlock := rfl

/-! ### The stores -/

theorem mem_setBlock {β : Type} (f : Block → β) (h : FreeLists) (b : ℕ) (block : Block) (x : ℕ) :
    f ((h.setBlock b block).mem x) = Function.update (fun x => f (h.mem x)) b (f block) x := by
  change f (if x = b then block else h.mem x) = _
  rw [Function.update_apply]
  split_ifs with hx
  · rfl
  · rfl

theorem setBlock_view (h : FreeLists) (b : ℕ) (block : Block) :
    (h.setBlock b block).view =
      { h.view with
        size := Function.update h.view.size b block.size
        parent := Function.update h.view.parent b block.parent
        read := Function.update (Function.update h.read (.child b false) block.child0)
          (.child b true) block.child1
        next := Function.update h.nextFreeBlock (.block b) block.nextFreeBlock
        prev := Function.update h.prevFreeBlock (.block b) block.prevFreeBlock } := by
  apply View.ext
  · exact funext (mem_setBlock Block.size h b block)
  · exact funext (mem_setBlock Block.parent h b block)
  · funext s
    change (h.setBlock b block).read s = Function.update
      (Function.update h.read (.child b false) block.child0) (.child b true) block.child1 s
    rw [Function.update_apply, Function.update_apply]
    cases s with
    | child c right =>
      cases right with
      | false =>
        rw [if_neg (by simp)]
        change Block.child0 ((h.setBlock b block).mem c) = _
        rw [mem_setBlock Block.child0, Function.update_apply]
        simp only [Slot.child.injEq, and_true]
        rfl
      | true =>
        change Block.child1 ((h.setBlock b block).mem c) = _
        rw [mem_setBlock Block.child1, Function.update_apply]
        simp only [Slot.child.injEq, and_true, Bool.true_eq_false, and_false, if_false]
        rfl
    | _ => rfl
  · funext p
    change (h.setBlock b block).nextFreeBlock p =
      Function.update h.nextFreeBlock (.block b) block.nextFreeBlock p
    rw [Function.update_apply]
    cases p with
    | block c =>
      change Block.nextFreeBlock ((h.setBlock b block).mem c) = _
      rw [mem_setBlock Block.nextFreeBlock, Function.update_apply]
      simp only [Ptr.block.injEq]
      rfl
    | _ => rfl
  · funext p
    change (h.setBlock b block).prevFreeBlock p =
      Function.update h.prevFreeBlock (.block b) block.prevFreeBlock p
    rw [Function.update_apply]
    cases p with
    | block c =>
      change Block.prevFreeBlock ((h.setBlock b block).mem c) = _
      rw [mem_setBlock Block.prevFreeBlock, Function.update_apply]
      simp only [Ptr.block.injEq]
      rfl
    | _ => rfl
  · rfl
  · rfl
  · rfl

theorem update_same {β γ : Type} [DecidableEq β] (f : β → γ) (b : β) :
    Function.update f b (f b) = f := Function.update_eq_self b f

theorem setParent_view (h : FreeLists) (b : ℕ) (s : Slot) :
    (h.setParent b s).view = h.view.setParent b s := by
  rw [setParent, setBlock_view]
  apply View.ext
  · exact update_same h.view.size b
  · rfl
  · exact (congrArg (fun f => Function.update f _ _) (update_same h.read (.child b false))).trans
      (update_same h.read (.child b true))
  · exact update_same h.nextFreeBlock (.block b)
  · exact update_same h.prevFreeBlock (.block b)
  · rfl
  · rfl
  · rfl

theorem write_view (hs : IsLink s) (p : Ptr) :
    ∃ h', h.write s p = some h' ∧ h'.view = h.view.write s p := by
  cases s with
  | null => exact hs.elim
  | restBlock => exact hs.elim
  | bucket k =>
    refine ⟨_, rfl, ?_⟩
    apply View.ext
    · rfl
    · rfl
    · funext t
      change FreeLists.read _ t = Function.update h.read (.bucket k) p t
      rw [Function.update_apply]
      cases t with
      | bucket x =>
        simp only [Slot.bucket.injEq]
        rfl
      | child c right => cases right <;> rfl
      | _ => rfl
    · rfl
    · rfl
    · rfl
    · rfl
    · rfl
  | child b right =>
    cases right with
    | false =>
      refine ⟨_, rfl, ?_⟩
      rw [setBlock_view]
      apply View.ext
      · exact update_same h.view.size b
      · exact update_same h.view.parent b
      · have hne : Slot.child b false ≠ .child b true := by simp
        refine (Function.update_comm hne _ _ h.read).trans ?_
        exact congrArg (fun f => Function.update f _ p) (update_same h.read (.child b true))
      · exact update_same h.nextFreeBlock (.block b)
      · exact update_same h.prevFreeBlock (.block b)
      · rfl
      · rfl
      · rfl
    | true =>
      refine ⟨_, rfl, ?_⟩
      rw [setBlock_view]
      apply View.ext
      · exact update_same h.view.size b
      · exact update_same h.view.parent b
      · exact congrArg (fun f => Function.update f _ p) (update_same h.read (.child b false))
      · exact update_same h.nextFreeBlock (.block b)
      · exact update_same h.prevFreeBlock (.block b)
      · rfl
      · rfl
      · rfl

theorem setNextFreeBlock_view (hp : p ≠ .null) (q : Ptr) :
    ∃ h', h.setNextFreeBlock p q = some h' ∧ h'.view = h.view.setNext p q := by
  cases p with
  | null => exact absurd rfl hp
  | block b =>
    refine ⟨_, rfl, ?_⟩
    rw [setBlock_view]
    apply View.ext
    · exact update_same h.view.size b
    · exact update_same h.view.parent b
    · exact (congrArg (fun f => Function.update f _ _) (update_same h.read (.child b false))).trans
        (update_same h.read (.child b true))
    · rfl
    · exact update_same h.prevFreeBlock (.block b)
    · rfl
    · rfl
    · rfl
  | smallBucket i =>
    refine ⟨_, rfl, ?_⟩
    apply View.ext
    · rfl
    · rfl
    · funext t
      cases t with
      | child c right => cases right <;> rfl
      | _ => rfl
    · funext t
      change FreeLists.nextFreeBlock _ t = Function.update h.nextFreeBlock (.smallBucket i) q t
      rw [Function.update_apply]
      cases t with
      | smallBucket x =>
        change (if x * 2 + 1 = i * 2 + 1 then q else h.freeBuckets (x * 2 + 1)) = _
        have hiff : x * 2 + 1 = i * 2 + 1 ↔ Ptr.smallBucket x = .smallBucket i := by
          rw [Ptr.smallBucket.injEq]
          omega
        simp only [hiff]
        rfl
      | _ => rfl
    · funext t
      change FreeLists.prevFreeBlock _ t = h.prevFreeBlock t
      cases t with
      | smallBucket x => exact if_neg (by omega)
      | _ => rfl
    · rfl
    · rfl
    · rfl
  | restBucket =>
    refine ⟨_, rfl, ?_⟩
    apply View.ext
    · rfl
    · rfl
    · funext t
      cases t with
      | child c right => cases right <;> rfl
      | _ => rfl
    · funext t
      change FreeLists.nextFreeBlock _ t = Function.update h.nextFreeBlock .restBucket q t
      rw [Function.update_apply]
      cases t with
      | restBucket => rfl
      | _ => rfl
    · funext t
      change FreeLists.prevFreeBlock _ t = h.prevFreeBlock t
      cases t with
      | restBucket => rfl
      | _ => rfl
    · rfl
    · rfl
    · rfl

theorem setPrevFreeBlock_view (hp : p ≠ .null) (q : Ptr) :
    ∃ h', h.setPrevFreeBlock p q = some h' ∧ h'.view = h.view.setPrev p q := by
  cases p with
  | null => exact absurd rfl hp
  | block b =>
    refine ⟨_, rfl, ?_⟩
    rw [setBlock_view]
    apply View.ext
    · exact update_same h.view.size b
    · exact update_same h.view.parent b
    · exact (congrArg (fun f => Function.update f _ _) (update_same h.read (.child b false))).trans
        (update_same h.read (.child b true))
    · exact update_same h.nextFreeBlock (.block b)
    · rfl
    · rfl
    · rfl
    · rfl
  | smallBucket i =>
    refine ⟨_, rfl, ?_⟩
    apply View.ext
    · rfl
    · rfl
    · funext t
      cases t with
      | child c right => cases right <;> rfl
      | _ => rfl
    · funext t
      change FreeLists.nextFreeBlock _ t = h.nextFreeBlock t
      cases t with
      | smallBucket x => exact if_neg (by omega)
      | _ => rfl
    · funext t
      change FreeLists.prevFreeBlock _ t = Function.update h.prevFreeBlock (.smallBucket i) q t
      rw [Function.update_apply]
      cases t with
      | smallBucket x =>
        change (if x * 2 = i * 2 then q else h.freeBuckets (x * 2)) = _
        have hiff : x * 2 = i * 2 ↔ Ptr.smallBucket x = .smallBucket i := by
          rw [Ptr.smallBucket.injEq]
          omega
        simp only [hiff]
        rfl
      | _ => rfl
    · rfl
    · rfl
    · rfl
  | restBucket =>
    refine ⟨_, rfl, ?_⟩
    apply View.ext
    · rfl
    · rfl
    · funext t
      cases t with
      | child c right => cases right <;> rfl
      | _ => rfl
    · funext t
      change FreeLists.nextFreeBlock _ t = h.nextFreeBlock t
      cases t with
      | restBucket => rfl
      | _ => rfl
    · funext t
      change FreeLists.prevFreeBlock _ t = Function.update h.prevFreeBlock .restBucket q t
      rw [Function.update_apply]
      cases t with
      | restBucket => rfl
      | _ => rfl
    · rfl
    · rfl
    · rfl

/-! ### Groups of stores -/

theorem linkNode_view (hs : IsLink s) (b : ℕ) :
    ∃ h', h.linkNode b s = some h' ∧ h'.view = h.view.linkNode b s := by
  obtain ⟨h₁, hw, hv₁⟩ := write_view (h := h) hs (.block b)
  obtain ⟨h₂, hn, hv₂⟩ :=
    setNextFreeBlock_view (h := h₁.setParent b s) (p := .block b) nofun (.block b)
  obtain ⟨h₃, hp, hv₃⟩ := setPrevFreeBlock_view (h := h₂) (p := .block b) nofun (.block b)
  refine ⟨h₃, ?_, ?_⟩
  · rw [linkNode, hw, Option.bind_eq_bind, Option.bind_some]
    dsimp only
    rw [hn]
    exact hp
  · rw [hv₃, hv₂, setParent_view, hv₁]
    rfl

theorem adopt_view (hp : IsChild p) (x : ℕ) (right : Bool) :
    ∃ h', h.adopt x right p = some h' ∧ h'.view = h.view.adopt x right p := by
  obtain ⟨h₁, hw, hv₁⟩ := write_view (h := h) (s := .child x right) trivial p
  rcases hp with rfl | ⟨c, rfl⟩
  · refine ⟨h₁, ?_, ?_⟩
    · rw [FreeLists.adopt, hw]
      rfl
    · rw [hv₁]
      rfl
  · refine ⟨h₁.setParent c (.child x right), ?_, ?_⟩
    · rw [FreeLists.adopt, hw]
      rfl
    · rw [setParent_view, hv₁]
      apply View.ext
      · rfl
      · funext d
        change Function.update h.view.parent c (.child x right) d = _
        rw [Function.update_apply]
        change _ = if Ptr.block c = .block d then Slot.child x right else h.view.parent d
        simp only [Ptr.block.injEq, eq_comm]
      · rfl
      · rfl
      · rfl
      · rfl
      · rfl
      · rfl

theorem isChild_update {f : Slot → Ptr} {t : Slot} (hf : IsChild (f s)) (hp : IsChild p) :
    IsChild (Function.update f t p s) := by
  rw [Function.update_apply]
  split_ifs with hs
  · exact hp
  · exact hf

theorem substBlock_view (hs : IsLink (h.view.parent b))
    (hchild : ∀ i, IsChild (h.view.read (.child b i))) (x : ℕ) :
    ∃ h', h.substBlock b x = some h' ∧ h'.view = h.view.subst b x := by
  obtain ⟨h₁, hw, hv₁⟩ := write_view (h := h) hs (.block x)
  have hparent : (h₁.mem b).parent = (h.mem b).parent := congrArg (fun v => View.parent v b) hv₁
  have hv₁' : (h₁.setParent x (h₁.mem b).parent).view =
      (h.view.write (h.view.parent b) (.block x)).setParent x (h.view.parent b) := by
    rw [setParent_view, hv₁, hparent]
    rfl
  have hblock (c : ℕ) : IsChild (.block c) := Or.inr ⟨c, rfl⟩
  have hread (i : Bool) : IsChild ((h₁.setParent x (h₁.mem b).parent).read (.child b i)) := by
    rw [← view_read, hv₁']
    exact isChild_update (hchild i) (hblock x)
  obtain ⟨h₂, ha₂, hv₂⟩ := adopt_view (hread false) x false
  have hread₂ : IsChild (h₂.read (.child b true)) := by
    rw [← view_read, hv₂]
    exact isChild_update (hread true) (hread false)
  obtain ⟨h₃, ha₃, hv₃⟩ := adopt_view hread₂ x true
  refine ⟨h₃, ?_, ?_⟩
  · rw [substBlock, show h.write (h.mem b).parent (.block x) = some h₁ from hw]
    change (h₁.setParent x (h₁.mem b).parent).adopt x false _ >>= _ = _
    rw [ha₂]
    exact ha₃
  · rw [hv₃, ← view_read, hv₂, ← view_read, hv₁']
    rfl

end FreeLists

end PhpRuntime.Alloc
