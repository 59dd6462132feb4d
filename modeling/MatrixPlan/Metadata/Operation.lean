import MatrixPlan.Error
import MatrixPlan.Metadata.Basic
/-!
# Operation — matrix operations with metadata rules

An operation takes one or two operands.  A rule that is asked with another number of them, or with shapes that do not
fit, answers with an `EstimateError`.
-/
namespace MatrixPlan

inductive Operation where
  | product
  | times
  | plus
  | eqZero
  | neqZero
  /-- A column vector to a diagonal matrix, or a matrix to its diagonal. -/
  | diag
  | cbind
  | rbind
  | transpose
  /-- The cells in row-major order in another shape. -/
  | reshape (rows cols : UInt64)
  deriving DecidableEq, Repr

namespace Operation

def isBinary : Operation → Bool
  | product | times | plus | cbind | rbind => true
  | _ => false

/-- The word for an operation in a text; a reshape's extents are written beside it. -/
def name : Operation → String
  | product => "mm"
  | times => "mult"
  | plus => "plus"
  | eqZero => "eq_zero"
  | neqZero => "neq_zero"
  | diag => "diag"
  | cbind => "cbind"
  | rbind => "rbind"
  | transpose => "trans"
  | reshape _ _ => "reshape"

/-- The operations without data. -/
def plain : List Operation := [product, times, plus, eqZero, neqZero, diag, cbind, rbind, transpose]

/-- The operation without data that a word stands for. -/
def ofName? (word : String) : Option Operation := plain.find? (·.name == word)

/-- How messages call an operation. -/
def label : Operation → String
  | product => "Mm"
  | times => "Mult"
  | plus => "Plus"
  | eqZero => "EqZero"
  | neqZero => "NeqZero"
  | diag => "Diag"
  | cbind => "Cbind"
  | rbind => "Rbind"
  | transpose => "Trans"
  | reshape rows cols => "Reshape \x7b rows: " ++ countText rows ++ ", cols: " ++ countText cols ++ " \x7d"

end Operation

inductive EstimateError where
  | missingOperand (op : Operation)
  | unexpectedOperand (op : Operation)
  | incompatible (op : Operation) (fault : ShapeFault)
  deriving DecidableEq, Repr

def EstimateError.message : EstimateError → String
  | missingOperand op => "Operation " ++ op.label ++ " requires a second operand"
  | unexpectedOperand op => "Operation " ++ op.label ++ " takes a single operand"
  | incompatible op fault => "Incompatible dimensions for " ++ op.label ++ ": " ++ fault.reason

/-- The operands of an operation, if there are as many as it takes. -/
def Operation.checkOperands (op : Operation) (right : Option Metadata) : Except EstimateError Unit :=
  match op.isBinary, right with
  | true, none => .error (.missingOperand op)
  | false, some _ => .error (.unexpectedOperand op)
  | _, _ => .ok ()

/-- The second operand of an operation that needs one. -/
def Operation.rightOperand (op : Operation) (right : Option Metadata) : Except EstimateError Metadata :=
  match right with
  | some m => .ok m
  | none => .error (.missingOperand op)

end MatrixPlan
