import MatrixPlan.Proofs.Matrix.Cells
/-!
# Grid — operations carried out cell by cell

A grid is a matrix as its cells, of any extents.  Operations on grids say what becomes of each cell; what they do to the
number of non-zero cells follows from sums over rows and columns.  The grid of a dense matrix has as many of them as the
matrix counts.
-/
namespace MatrixPlan

/-- A matrix of doubles, cell by cell.  What `cell` says out of range does not matter. -/
structure Grid where
  rows : Nat
  cols : Nat
  cell : Nat → Nat → Float

/-- One where a condition holds, zero elsewhere. -/
def flag (b : Bool) : Float := if b then 1.0 else 0.0

namespace Grid

/-- Grids that agree have the same extents and the same cells in range. -/
structure Agrees (x y : Grid) : Prop where
  rows : x.rows = y.rows
  cols : x.cols = y.cols
  cell : ∀ i < x.rows, ∀ j < x.cols, x.cell i j = y.cell i j

/-- **The number of non-zero cells.** -/
def nonzeros (x : Grid) : Nat :=
  ((Finset.range x.rows ×ˢ Finset.range x.cols).filter fun p => Dense.isNonzero (x.cell p.1 p.2)).card

def eqZero (x : Grid) : Grid := ⟨x.rows, x.cols, fun i j => flag (x.cell i j == 0.0)⟩

def neqZero (x : Grid) : Grid := ⟨x.rows, x.cols, fun i j => flag (x.cell i j != 0.0)⟩

def transpose (x : Grid) : Grid := ⟨x.cols, x.rows, fun i j => x.cell j i⟩

/-- A column on the diagonal of a square of zeros, or the diagonal of any other grid as a column. -/
def diag (x : Grid) : Grid :=
  if x.cols = 1 then ⟨x.rows, x.rows, fun i j => if i = j then x.cell i 0 else 0.0⟩
  else ⟨x.rows, 1, fun i _ => x.cell i i⟩

/-- The columns of `x`, then those of `y`. -/
def cbind (x y : Grid) : Grid :=
  ⟨x.rows, x.cols + y.cols, fun i j => if j < x.cols then x.cell i j else y.cell i (j - x.cols)⟩

/-- The rows of `x`, then those of `y`. -/
def rbind (x y : Grid) : Grid :=
  ⟨x.rows + y.rows, x.cols, fun i j => if i < x.rows then x.cell i j else y.cell (i - x.rows) j⟩

/-- The cells of `x` read row by row, as the rows of a grid of other extents. -/
def reshape (x : Grid) (rows cols : Nat) : Grid :=
  ⟨rows, cols, fun i j => x.cell ((i * cols + j) / x.cols) ((i * cols + j) % x.cols)⟩

end Grid

/-- The cells of a dense matrix. -/
def Dense.grid (d : Dense) : Grid := ⟨d.rows.toNat, d.cols.toNat, fun i j => (d.get? i j).getD 0.0⟩

/-- One for a cell that counts. -/
def Dense.mark (v : Float) : Nat := (isNonzero v).toNat

theorem Dense.isNonzero_flag (b : Bool) : isNonzero (flag b) = b := by
  cases b <;> rfl

theorem Dense.mark_zero : mark 0.0 = 0 := rfl

theorem Dense.mark_flag_add (v : Float) : mark (flag (v == 0.0)) + mark v = 1 := by
  have hv : isNonzero v = !(v == 0.0) := rfl
  rw [mark, mark, isNonzero_flag, hv]
  cases v == 0.0 <;> rfl

namespace Grid

open MatrixPlan.Dense (mark)

theorem nonzeros_eq_sum (x : Grid) :
    x.nonzeros = ∑ i ∈ Finset.range x.rows, ∑ j ∈ Finset.range x.cols, mark (x.cell i j) := by
  rw [nonzeros, Finset.card_filter, Finset.sum_product]
  refine Finset.sum_congr rfl fun i _ => Finset.sum_congr rfl fun j _ => ?_
  rw [mark]
  cases Dense.isNonzero (x.cell i j) <;> rfl

theorem Agrees.nonzeros {x y : Grid} (h : x.Agrees y) : x.nonzeros = y.nonzeros := by
  rw [nonzeros_eq_sum, nonzeros_eq_sum, ← h.rows, ← h.cols]
  refine Finset.sum_congr rfl fun i hi => Finset.sum_congr rfl fun j hj => ?_
  rw [h.cell i (Finset.mem_range.1 hi) j (Finset.mem_range.1 hj)]

theorem nonzeros_le (x : Grid) : x.nonzeros ≤ x.rows * x.cols := by
  have h := Finset.card_filter_le (Finset.range x.rows ×ˢ Finset.range x.cols) fun p => Dense.isNonzero (x.cell p.1 p.2)
  rwa [Finset.card_product, Finset.card_range, Finset.card_range] at h

theorem nonzeros_eqZero_add (x : Grid) : x.eqZero.nonzeros + x.nonzeros = x.rows * x.cols := by
  have hrow : ∀ i ∈ Finset.range x.rows,
      ∑ j ∈ Finset.range x.cols, (mark (flag (x.cell i j == 0.0)) + mark (x.cell i j)) = x.cols := fun i _ => by
    rw [Finset.sum_const_nat fun j _ => Dense.mark_flag_add (x.cell i j), Finset.card_range, Nat.mul_one]
  have hall := Finset.sum_const_nat hrow
  rw [Finset.card_range] at hall
  rw [nonzeros_eq_sum, nonzeros_eq_sum, ← hall]
  simp only [Finset.sum_add_distrib, eqZero]

theorem nonzeros_neqZero (x : Grid) : x.neqZero.nonzeros = x.nonzeros := by
  unfold nonzeros neqZero
  refine congrArg _ (Finset.filter_congr fun p _ => ?_)
  rw [Dense.isNonzero_flag]
  rfl

theorem nonzeros_transpose (x : Grid) : x.transpose.nonzeros = x.nonzeros := by
  rw [nonzeros_eq_sum, nonzeros_eq_sum, transpose]
  exact Finset.sum_comm

theorem nonzeros_cbind {x y : Grid} (h : x.rows = y.rows) : (x.cbind y).nonzeros = x.nonzeros + y.nonzeros := by
  rw [nonzeros_eq_sum, nonzeros_eq_sum, nonzeros_eq_sum, ← h, ← Finset.sum_add_distrib, cbind]
  refine Finset.sum_congr rfl fun i _ => ?_
  dsimp only
  rw [Finset.sum_range_add]
  congr 1
  · exact Finset.sum_congr rfl fun j hj => by rw [if_pos (Finset.mem_range.1 hj)]
  · refine Finset.sum_congr rfl fun j _ => ?_
    rw [if_neg (Nat.not_lt.2 (Nat.le_add_right x.cols j)), Nat.add_sub_cancel_left]

theorem nonzeros_rbind {x y : Grid} (h : x.cols = y.cols) : (x.rbind y).nonzeros = x.nonzeros + y.nonzeros := by
  rw [nonzeros_eq_sum, nonzeros_eq_sum, nonzeros_eq_sum, ← h, rbind]
  dsimp only
  rw [Finset.sum_range_add]
  congr 1
  · exact Finset.sum_congr rfl fun i hi => by simp only [if_pos (Finset.mem_range.1 hi)]
  · refine Finset.sum_congr rfl fun i _ => ?_
    simp only [if_neg (Nat.not_lt.2 (Nat.le_add_right x.rows i)), Nat.add_sub_cancel_left]

/-- The non-zero cells are counted along the cells in row-major order. -/
theorem nonzeros_eq_count (x : Grid) :
    x.nonzeros =
      Nat.count (fun k => Dense.isNonzero (x.cell (k / x.cols) (k % x.cols)) = true) (x.rows * x.cols) := by
  rw [count_mul, nonzeros, Finset.card_filter, Finset.sum_product]
  refine Finset.sum_congr rfl fun i _ => ?_
  rw [Nat.count_eq_card_filter_range, Finset.card_filter]
  refine Finset.sum_congr rfl fun j hj => ?_
  have hj := Finset.mem_range.1 hj
  rw [Nat.mul_comm i, Nat.mul_add_div (Nat.lt_of_le_of_lt (Nat.zero_le j) hj), Nat.div_eq_of_lt hj, Nat.add_zero,
    Nat.mul_add_mod, Nat.mod_eq_of_lt hj]

theorem nonzeros_reshape {x : Grid} {rows cols : Nat} (h : x.rows * x.cols = rows * cols) :
    (x.reshape rows cols).nonzeros = x.nonzeros := by
  rw [nonzeros_eq_count, nonzeros_eq_count, h, reshape]
  dsimp only
  simp only [Nat.mul_comm _ cols, Nat.div_add_mod]

theorem nonzeros_diag_column {x : Grid} (h : x.cols = 1) : x.diag.nonzeros = x.nonzeros := by
  rw [nonzeros_eq_sum, nonzeros_eq_sum, diag, if_pos h, h]
  refine Finset.sum_congr rfl fun i hi => ?_
  dsimp only
  rw [Finset.sum_range_one, Finset.sum_eq_single_of_mem i hi fun j _ hne => by rw [if_neg (Ne.symm hne), Dense.mark_zero],
    if_pos rfl]

/-- The diagonal of a square has at most as many non-zero cells as the square, and at most one in a row. -/
theorem nonzeros_diag_le {x : Grid} (h : x.rows = x.cols) (hcols : x.cols ≠ 1) :
    x.diag.nonzeros ≤ min x.rows x.nonzeros := by
  have hle : x.diag.nonzeros ≤ x.diag.rows * x.diag.cols := nonzeros_le x.diag
  rw [diag, if_neg hcols] at hle ⊢
  refine Nat.le_min.2 ⟨by simpa using hle, ?_⟩
  rw [nonzeros_eq_sum, nonzeros_eq_sum]
  refine Finset.sum_le_sum fun i hi => ?_
  dsimp only
  rw [Finset.sum_range_one]
  exact Finset.single_le_sum (fun j _ => Nat.zero_le (mark (x.cell i j))) (h ▸ hi)

end Grid

open BitMatrix in
/-- The set cells of the matrix of a dense one are the non-zero cells of its grid. -/
theorem Dense.get_ofDense_grid (d : Dense) (i j : Nat) : (ofDense d).get i j = isNonzero (d.grid.cell i j) := by
  rw [Bool.eq_iff_iff, (isPattern_ofDense d).get i j, grid]
  dsimp only
  cases d.get? i j with
  | none => exact iff_of_false (by rintro ⟨v, hv, -⟩; cases hv) Bool.false_ne_true
  | some v => exact ⟨by rintro ⟨w, hw, hnonzero⟩; cases hw; exact hnonzero, fun h => ⟨v, rfl, h⟩⟩

open BitMatrix in
/-- **The grid of a dense matrix has as many non-zero cells as the matrix counts.** -/
theorem Dense.nonzeros_grid (d : Dense) : d.grid.nonzeros = d.nnz.toNat := by
  have hnnz : d.nnz.toNat = (ofDense d).setCells.card := nnz_ofDense d
  rw [hnnz, Grid.nonzeros, setCells]
  exact congrArg _ (Finset.filter_congr fun p _ => by rw [get_ofDense_grid])

end MatrixPlan
