import Mathlib.Algebra.Group.Basic
import Mathlib.Algebra.Group.Int.Defs
import Mathlib.Data.Finset.Insert
import Mathlib.Data.Finset.Erase
import Mathlib.Logic.Function.Basic

/-!
# Reference counted zvals

The zvals that a container holds by pointer: `Z_ADDREF_P`, `zval_ptr_dtor` and
`SEPARATE_ARG_IF_REF`. `Counted` says that every refcount is the number of references;
each operation changes it by the references it makes or drops. The counters are taken to
be large enough.
-/

set_option autoImplicit false

namespace PhpRuntime.Spl

abbrev ZvalAddr := ℕ

/-- A zval. -/
structure Zval (ν : Type) where
  value : ν
  refcount : ℤ
  is_ref : Bool

/-- The zvals in memory, and which of them are allocated. -/
structure Zvals (ν : Type) where
  zval : ZvalAddr → Zval ν
  live : Finset ZvalAddr

/-- `emalloc`: a block that is not in use. -/
structure Emalloc where
  addr : Finset ℕ → ℕ
  fresh : ∀ s, addr s ∉ s

variable {ν : Type}

namespace Zvals

def store (zs : Zvals ν) (z : ZvalAddr) (zv : Zval ν) : Zvals ν :=
  { zs with zval := Function.update zs.zval z zv }

/-- `Z_ADDREF_P`. -/
def addref (zs : Zvals ν) (z : ZvalAddr) : Zvals ν :=
  zs.store z { zs.zval z with refcount := (zs.zval z).refcount + 1 }

/-- `zval_ptr_dtor`. What the destructor of a freed zval does is a step of its own. -/
def zvalPtrDtor (zs : Zvals ν) (z : ZvalAddr) : Zvals ν :=
  let refcount := (zs.zval z).refcount - 1
  if refcount = 0 then
    { zs.store z { zs.zval z with refcount := refcount } with live := zs.live.erase z }
  else if refcount = 1 then zs.store z { zs.zval z with refcount := refcount, is_ref := false }
  else zs.store z { zs.zval z with refcount := refcount }

/-- `SEPARATE_ARG_IF_REF`: the zval that is stored instead of the argument. -/
def separateArgIfRef (emalloc : Emalloc) (zs : Zvals ν) (z : ZvalAddr) : ZvalAddr × Zvals ν :=
  if (zs.zval z).is_ref then
    let w := emalloc.addr zs.live
    (w, { zs.store w { value := (zs.zval z).value, refcount := 1, is_ref := false } with
      live := insert w zs.live })
  else (z, zs.addref z)

/-- The refcount of every allocated zval is the number of references to it. -/
structure Counted (zs : Zvals ν) (refs : ZvalAddr → ℤ) : Prop where
  live : ∀ z ∈ zs.live, (zs.zval z).refcount = refs z ∧ 0 < refs z
  dead : ∀ z ∉ zs.live, refs z = 0

/-- One reference to `z`. -/
def one (z : ZvalAddr) : ZvalAddr → ℤ := fun x => if x = z then 1 else 0

@[simp] theorem one_self (z : ZvalAddr) : one z z = 1 := if_pos rfl

theorem one_of_ne {x z : ZvalAddr} (h : x ≠ z) : one z x = 0 := if_neg h

variable {zs : Zvals ν} {refs : ZvalAddr → ℤ} {z : ZvalAddr}

theorem Counted.mem_live (h : zs.Counted refs) (hz : refs z ≠ 0) : z ∈ zs.live := by
  by_contra hdead
  exact hz (h.dead z hdead)

theorem Counted.congr {refs' : ZvalAddr → ℤ} (h : zs.Counted refs) (heq : ∀ x, refs x = refs' x) :
    zs.Counted refs' := by
  rwa [← funext heq]

@[simp] theorem addref_live (zs : Zvals ν) (z : ZvalAddr) : (zs.addref z).live = zs.live := rfl

@[simp] theorem addref_value (zs : Zvals ν) (z x : ZvalAddr) :
    ((zs.addref z).zval x).value = (zs.zval x).value := by
  unfold addref store
  by_cases hx : x = z
  · subst hx
    simp
  · simp [Function.update_of_ne hx]

@[simp] theorem zvalPtrDtor_value (zs : Zvals ν) (z x : ZvalAddr) :
    ((zs.zvalPtrDtor z).zval x).value = (zs.zval x).value := by
  unfold zvalPtrDtor store
  by_cases hx : x = z
  · subst hx
    dsimp only
    split_ifs <;> simp
  · dsimp only
    split_ifs <;> simp [Function.update_of_ne hx]

/-- The zval is no reference, and has the value `v`: nothing writes to it while it is shared. -/
def Plain (zs : Zvals ν) (z : ZvalAddr) (v : ν) : Prop :=
  (zs.zval z).value = v ∧ (zs.zval z).is_ref = false

theorem Plain.addref {x : ZvalAddr} {v : ν} (h : zs.Plain x v) (z : ZvalAddr) :
    (zs.addref z).Plain x v := by
  refine ⟨(addref_value zs z x).trans h.1, ?_⟩
  unfold Zvals.addref store
  by_cases hx : x = z
  · subst hx
    simpa using h.2
  · simpa [Function.update_of_ne hx] using h.2

theorem Plain.zvalPtrDtor {x : ZvalAddr} {v : ν} (h : zs.Plain x v) (z : ZvalAddr) :
    (zs.zvalPtrDtor z).Plain x v := by
  refine ⟨(zvalPtrDtor_value zs z x).trans h.1, ?_⟩
  unfold Zvals.zvalPtrDtor store
  by_cases hx : x = z
  · subst hx
    dsimp only
    split_ifs <;> simp [h.2]
  · dsimp only
    split_ifs <;> simp [Function.update_of_ne hx, h.2]

/-- What `SEPARATE_ARG_IF_REF` stores is no reference. -/
theorem separateArgIfRef_plain (emalloc : Emalloc) (zs : Zvals ν) (z : ZvalAddr) :
    (zs.separateArgIfRef emalloc z).2.Plain (zs.separateArgIfRef emalloc z).1
      (zs.zval z).value := by
  unfold separateArgIfRef
  split
  · unfold Plain store
    simp
  · rename_i hplain
    exact Plain.addref ⟨rfl, by simpa using hplain⟩ z

theorem Plain.separateArgIfRef {x : ZvalAddr} {v : ν} (h : zs.Plain x v) (emalloc : Emalloc)
    (z : ZvalAddr) (hx : x ∈ zs.live) : (zs.separateArgIfRef emalloc z).2.Plain x v := by
  have hne : x ≠ emalloc.addr zs.live := fun heq => emalloc.fresh zs.live (heq ▸ hx)
  unfold Zvals.separateArgIfRef
  split
  · unfold Plain store
    simp only [Function.update_of_ne hne]
    exact h
  · exact h.addref z

theorem separateArgIfRef_live (emalloc : Emalloc) (zs : Zvals ν) (hz : z ∈ zs.live) :
    (zs.separateArgIfRef emalloc z).1 ∈ (zs.separateArgIfRef emalloc z).2.live ∧
      zs.live ⊆ (zs.separateArgIfRef emalloc z).2.live := by
  unfold separateArgIfRef
  split
  · exact ⟨Finset.mem_insert_self _ _, Finset.subset_insert _ _⟩
  · exact ⟨hz, fun x hx => hx⟩

/-- `Z_ADDREF_P` makes one reference. -/
theorem Counted.addref (h : zs.Counted refs) (hz : z ∈ zs.live) :
    (zs.addref z).Counted fun x => refs x + one z x := by
  constructor
  · intro x hx
    obtain ⟨hcount, hpos⟩ := h.live x hx
    unfold Zvals.addref store
    by_cases hxz : x = z
    · subst hxz
      simp only [Function.update_self, one_self]
      omega
    · simp only [Function.update_of_ne hxz, one_of_ne hxz]
      omega
  · intro x hx
    have hxz : x ≠ z := fun heq => hx (heq ▸ hz)
    rw [one_of_ne hxz, h.dead x hx, add_zero]

/-- `zval_ptr_dtor` drops one reference. -/
theorem Counted.zvalPtrDtor (h : zs.Counted refs) (hz : z ∈ zs.live) :
    (zs.zvalPtrDtor z).Counted fun x => refs x - one z x := by
  obtain ⟨hcount, hpos⟩ := h.live z hz
  have hother : ∀ x, x ≠ z → (zs.zvalPtrDtor z).zval x = zs.zval x := by
    intro x hx
    unfold Zvals.zvalPtrDtor store
    dsimp only
    split_ifs <;> simp [Function.update_of_ne hx]
  have hself : ((zs.zvalPtrDtor z).zval z).refcount = refs z - 1 := by
    unfold Zvals.zvalPtrDtor store
    dsimp only
    split_ifs <;> simp [hcount]
  have hlive : (zs.zvalPtrDtor z).live = if refs z - 1 = 0 then zs.live.erase z else zs.live := by
    unfold Zvals.zvalPtrDtor store
    dsimp only
    rw [hcount]
    split_ifs <;> rfl
  constructor
  · intro x hx
    rw [hlive] at hx
    by_cases hxz : x = z
    · subst hxz
      rw [hself, one_self]
      refine ⟨rfl, ?_⟩
      split at hx
      · exact absurd rfl (Finset.ne_of_mem_erase hx)
      · omega
    · rw [hother x hxz, one_of_ne hxz, sub_zero]
      apply h.live
      split at hx
      · exact Finset.mem_of_mem_erase hx
      · exact hx
  · intro x hx
    rw [hlive] at hx
    by_cases hxz : x = z
    · subst hxz
      rw [one_self]
      split at hx
      · omega
      · exact absurd hz hx
    · rw [one_of_ne hxz, sub_zero]
      apply h.dead
      split at hx
      · exact fun hmem => hx (Finset.mem_erase.mpr ⟨hxz, hmem⟩)
      · exact hx

/-- `SEPARATE_ARG_IF_REF` makes one reference to what is stored. -/
theorem Counted.separateArgIfRef (emalloc : Emalloc) (h : zs.Counted refs) (hz : z ∈ zs.live) :
    (zs.separateArgIfRef emalloc z).2.Counted
      fun x => refs x + one (zs.separateArgIfRef emalloc z).1 x := by
  unfold Zvals.separateArgIfRef
  split
  · have hfresh := emalloc.fresh zs.live
    have hzero := h.dead _ hfresh
    unfold store
    constructor
    · intro x hx
      by_cases hxw : x = emalloc.addr zs.live
      · subst hxw
        simp only [Function.update_self, one_self, hzero]
        omega
      · have hold : x ∈ zs.live := by simpa [hxw] using hx
        simp only [Function.update_of_ne hxw, one_of_ne hxw, add_zero]
        exact h.live x hold
    · intro x hx
      have hxw : x ≠ emalloc.addr zs.live := fun heq => hx (by simp [heq])
      rw [one_of_ne hxw, add_zero]
      exact h.dead x fun hmem => hx (by simp [hmem])
  · exact h.addref hz

end Zvals

end PhpRuntime.Spl
