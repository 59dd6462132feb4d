import MatrixPlan.Error
import MatrixPlan.Matrix.Chunks
import MatrixPlan.Metadata.Basic
/-!
# Dense — matrices with all their cells

The cells are listed row by row.  Their number is the product of the extents, and fewer than `2^63`, as many as a list
in memory may hold; so the product is the exact one although the check multiplies with saturation.
-/
namespace MatrixPlan

structure Dense where
  rows : UInt64
  cols : UInt64
  values : Array Float
  size_eq : values.size = (satMul rows cols).toNat
  size_lt : values.size < 2 ^ 63

namespace Dense

/-- A matrix with the given cells, if there are as many as the extents ask for. -/
def ofValues (rows cols : UInt64) (values : Array Float) : Except ValidationError Dense :=
  if h : values.size = (satMul rows cols).toNat ∧ values.size < 2 ^ 63 then .ok ⟨rows, cols, values, h.1, h.2⟩
  else .error (.denseValueCount rows cols (satMul rows cols) (UInt64.ofNat values.size))

def column (values : Array Float) : Except ValidationError Dense :=
  ofValues (UInt64.ofNat values.size) 1 values

/-- The matrix that is one at the listed cells and zero elsewhere. -/
def indicator (rows cols : UInt64) (cells : List (Nat × Nat)) : Except ValidationError Dense :=
  ofValues rows cols (Array.ofFn fun i : Fin (satMul rows cols).toNat =>
    if cells.contains (i.val / cols.toNat, i.val % cols.toNat) then 1.0 else 0.0)

def get? (m : Dense) (r c : Nat) : Option Float :=
  if r < m.rows.toNat ∧ c < m.cols.toNat then m.values[r * m.cols.toNat + c]? else none

/-- The rows.  A matrix without columns has no row to list. -/
def rowSlices (m : Dense) : List (List Float) := chunks (m.cols.toNat - 1) m.values.toList

/-- Whether a cell counts as non-zero: `nan` does, minus zero does not. -/
def isNonzero (x : Float) : Bool := x != 0.0

def nnz (m : Dense) : UInt64 := UInt64.ofNat (m.values.toList.countP isNonzero)

def metadata (m : Dense) : Metadata := .exact m.rows m.cols m.nnz

/-- The number of cells is the exact product of the extents. -/
theorem size_eq_mul (m : Dense) : m.values.size = m.rows.toNat * m.cols.toNat := by
  have h := m.size_eq
  have hlt := m.size_lt
  rw [toNat_satMul, maxCount] at h
  omega

end Dense
end MatrixPlan
