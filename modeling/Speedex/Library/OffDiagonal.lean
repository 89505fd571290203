import Mathlib.Data.Nat.Basic
import Mathlib.Tactic.Common

set_option autoImplicit false

/- A square table without its diagonal, stored row by row: row `row` has one cell for every other column.
`width` is the length of a row, one less than the number of columns. -/
namespace OffDiagonal

/-- The place of a column in a row that has no cell for column `row`. -/
def skip (row column : Nat) : Nat := column - (if column > row then 1 else 0)

/-- The column at a place of the row. -/
def unskip (row place : Nat) : Nat := if row ≤ place then place + 1 else place

def index (width row column : Nat) : Nat := row * width + skip row column

variable {width row column i : Nat}

theorem skip_lt (other : row ≠ column) (inside : row ≤ width) (inside' : column ≤ width) : skip row column < width := by
  unfold skip
  split <;> omega

theorem unskip_skip (other : row ≠ column) : unskip row (skip row column) = column := by
  unfold unskip skip
  split <;> split <;> omega

theorem skip_unskip (row place : Nat) : skip row (unskip row place) = place := by
  unfold unskip skip
  split <;> split <;> omega

theorem unskip_ne (row place : Nat) : row ≠ unskip row place := by
  unfold unskip
  split <;> omega

theorem index_lt (other : row ≠ column) (inside : row ≤ width) (inside' : column ≤ width) :
    index width row column < (width + 1) * width := by
  have place := skip_lt other inside inside'
  calc index width row column < row * width + width := Nat.add_lt_add_left place _
    _ = (row + 1) * width := (Nat.succ_mul row width).symm
    _ ≤ (width + 1) * width := Nat.mul_le_mul_right width (Nat.succ_le_succ inside)

theorem index_div (other : row ≠ column) (inside : row ≤ width) (inside' : column ≤ width) :
    index width row column / width = row := by
  have place := skip_lt other inside inside'
  unfold index
  rw [Nat.mul_comm, Nat.mul_add_div (Nat.zero_lt_of_lt place), Nat.div_eq_of_lt place, Nat.add_zero]

theorem index_mod (other : row ≠ column) (inside : row ≤ width) (inside' : column ≤ width) :
    index width row column % width = skip row column := by
  have place := skip_lt other inside inside'
  unfold index
  rw [Nat.mul_comm, Nat.mul_add_mod, Nat.mod_eq_of_lt place]

/-- Every index below the number of cells is the index of a cell. -/
theorem index_unskip (width i : Nat) : index width (i / width) (unskip (i / width) (i % width)) = i := by
  unfold index
  rw [skip_unskip, Nat.mul_comm]
  exact Nat.div_add_mod i width

theorem div_le (inside : i < (width + 1) * width) : i / width ≤ width := by
  have width_pos : 0 < width := Nat.pos_of_mul_pos_left (Nat.zero_lt_of_lt inside)
  exact Nat.le_of_lt_succ ((Nat.div_lt_iff_lt_mul width_pos).mpr inside)

theorem unskip_le (inside : i < (width + 1) * width) : unskip (i / width) (i % width) ≤ width := by
  have width_pos : 0 < width := Nat.pos_of_mul_pos_left (Nat.zero_lt_of_lt inside)
  have place := Nat.mod_lt i width_pos
  unfold unskip
  split <;> omega

end OffDiagonal
