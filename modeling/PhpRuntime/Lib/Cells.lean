import Mathlib.Data.List.Nodup
import Mathlib.Logic.Function.Basic

/-!
# The contents of cells in a row

Cells hold lists, a row is a list of addresses. What is stored in a row is what its cells hold, from
the first address to the last.
-/

set_option autoImplicit false

namespace PhpRuntime.Lib

variable {ι α : Type*}

/-- The contents of the cells of a row, one after the other. -/
def gather (cell : ι → List α) (row : List ι) : List α :=
  (row.map cell).flatten

@[simp] theorem gather_append (cell : ι → List α) (row row' : List ι) :
    gather cell (row ++ row') = gather cell row ++ gather cell row' := by
  simp [gather]

theorem gather_congr {cell cell' : ι → List α} {row : List ι} (h : ∀ i ∈ row, cell' i = cell i) :
    gather cell' row = gather cell row := by
  unfold gather
  rw [List.map_congr_left h]

end PhpRuntime.Lib
