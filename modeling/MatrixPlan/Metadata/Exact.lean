import MatrixPlan.Metadata.Operation
/-!
# Exact — metadata that follows from the operands' metadata

For comparison with zero, transpose, diagonals, binding and reshaping the non-zero count of the result follows from
those of the operands, whatever the cells are.  Only the diagonal of a matrix has a bound in its place.
-/
namespace MatrixPlan

def addKnown (a b : Option UInt64) : Option UInt64 := do return satAdd (← a) (← b)

namespace Metadata

/-- The cells that are zero become the non-zero ones. -/
def eqZero (m : Metadata) : Metadata :=
  ⟨m.rows, m.cols, do return satSub (← m.cells) (← m.nnz)⟩

def transpose (m : Metadata) : Metadata := ⟨m.cols, m.rows, m.nnz⟩

def diag (m : Metadata) : Metadata :=
  match m.cols with
  | none => unknown
  | some cols =>
    if cols = 1 then ⟨m.rows, m.rows, m.nnz⟩
    else ⟨m.rows, some 1, do return min (← m.rows) (← m.nnz)⟩

def cbind (a b : Metadata) : Metadata := ⟨a.rows <|> b.rows, addKnown a.cols b.cols, addKnown a.nnz b.nnz⟩

def rbind (a b : Metadata) : Metadata := ⟨addKnown a.rows b.rows, a.cols <|> b.cols, addKnown a.nnz b.nnz⟩

/-- Known cells must be as many as the new shape has. -/
def reshape (m : Metadata) (rows cols : UInt64) : Except EstimateError Metadata :=
  match m.cells with
  | some cells =>
    if cells = satMul rows cols then .ok ⟨some rows, some cols, m.nnz⟩
    else .error (.incompatible (.reshape rows cols) (.reshapeTo cells rows cols))
  | none => .ok ⟨some rows, some cols, m.nnz⟩

end Metadata

/-- The metadata of a result, for the operations where it follows from the operands'. -/
def exactMetadata (op : Operation) (left : Metadata) (right : Option Metadata) : Except EstimateError Metadata := do
  op.checkOperands right
  match op with
  | .eqZero => return left.eqZero
  | .neqZero => return left
  | .transpose => return left.transpose
  | .diag => return left.diag
  | .cbind => return left.cbind (← op.rightOperand right)
  | .rbind => return left.rbind (← op.rightOperand right)
  | .reshape rows cols => left.reshape rows cols
  | .product | .times | .plus => throw (.incompatible op .noExactRule)

end MatrixPlan
