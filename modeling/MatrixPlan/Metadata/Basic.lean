import MatrixPlan.Number.Rounding
/-!
# Metadata — shape and non-zero count of a matrix

Each extent and the number of non-zero cells is known or not.  A source read from a file usually knows nothing until
the engine looks at it.
-/
namespace MatrixPlan

structure Metadata where
  rows : Option UInt64
  cols : Option UInt64
  nnz : Option UInt64
  deriving DecidableEq, Repr

/-- A number kept between zero and one.  `nan` stays as it is. -/
def clampUnit (x : Float) : Float := if x < 0.0 then 0.0 else if 1.0 < x then 1.0 else x

/-- How many cells of a `rows` by `cols` matrix a fraction of them is, rounded, a half upward. -/
def nnzFor (rows cols : UInt64) (sparsity : Float) : UInt64 :=
  roundCount (clampUnit sparsity * (satMul rows cols).toFloat)

namespace Metadata

def unknown : Metadata := ⟨none, none, none⟩

def ofShape (rows cols : UInt64) : Metadata := ⟨some rows, some cols, none⟩

def exact (rows cols nnz : UInt64) : Metadata := ⟨some rows, some cols, some nnz⟩

def scalar : Metadata := ofShape 1 1

def ofSparsity (rows cols : UInt64) (sparsity : Float) : Metadata := exact rows cols (nnzFor rows cols sparsity)

def hasShape (m : Metadata) : Bool := m.rows.isSome && m.cols.isSome

def cells (m : Metadata) : Option UInt64 := do return satMul (← m.rows) (← m.cols)

/-- The fraction of non-zero cells, if shape and count are known; zero for a matrix without cells. -/
def sparsity (m : Metadata) : Option Float := do
  let cells ← m.cells
  let nnz ← m.nnz
  return if cells = 0 then 0.0 else clampUnit (nnz.toFloat / cells.toFloat)

/-- Whether there is a single column, if the number of columns is known. -/
def isColumn (m : Metadata) : Option Bool := m.cols.map (· == 1)

end Metadata
end MatrixPlan
