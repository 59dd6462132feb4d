import MatrixPlan.Graph.Builtin
import MatrixPlan.Graph.Node
import MatrixPlan.Metadata.Estimate
/-!
# Rules — what an engine is sure to reject in one node

A node must be in the registry of its context and in the context of the root, a call of a builtin must pass its
parameters, and known shapes must fit the operation.  `Graph.fault?` is the first rule, in this order, that a node
breaks.  What is unknown breaks no rule.
-/
namespace MatrixPlan

/-- The first parameter of a signature that a call does not pass, or else the first name it passes and should not. -/
def NodeSpec.signatureFault? (n : NodeSpec) (params : List String) : Option ValidationError :=
  match params.find? fun p => (n.namedInput? p).isNone with
  | some p => some (.missingInput n.operation p)
  | none => (n.named.find? fun p => !params.contains p.1).map fun p => .unexpectedInput n.operation p.1

/-- The fault of named inputs that must be column vectors of one length. -/
def columnFault? (y p : Metadata) : Option ShapeFault :=
  if y.isColumn = some false then some (.notColumn "Y" (y.cols.getD 0))
  else if p.isColumn = some false then some (.notColumn "P" (p.cols.getD 0))
  else match y.rows, p.rows with
    | some a, some b => if a = b then none else some (.lengths a b)
    | _, _ => none

/-- Whether two shapes combine cell by cell: equal ones, a matrix with a matching vector or a single value on its right,
or a column with a row. -/
def combines (leftRows leftCols rightRows rightCols : UInt64) : Bool :=
  (leftRows == rightRows && leftCols == rightCols)
    || (leftRows == rightRows && rightCols == 1)
    || (leftCols == rightCols && rightRows == 1)
    || (rightRows == 1 && rightCols == 1)
    || (leftCols == 1 && rightRows == 1)

/-- The fault of factors whose inner extents are known and differ. -/
def productFault? (a b : Metadata) : Option ShapeFault :=
  match a.cols, b.rows with
  | some ac, some br => if ac = br then none else some (.innerExtents ac br)
  | _, _ => none

/-- What breaks the rule of a product is what its estimate cannot be made of. -/
theorem productFault?_eq_innerConflict? (a b : Metadata) : productFault? a b = innerConflict? a b := by
  unfold productFault? innerConflict?
  cases a.cols <;> cases b.rows <;> rfl

def elementwiseFault? (a b : Metadata) : Option ShapeFault :=
  match a.rows, a.cols, b.rows, b.cols with
  | some ar, some ac, some br, some bc => if combines ar ac br bc then none else some (.elementwise ar ac br bc)
  | _, _, _, _ => none

def cbindFault? (a b : Metadata) : Option ShapeFault :=
  match a.rows, b.rows with
  | some ar, some br => if ar = br then none else some (.rowCounts ar br)
  | _, _ => none

def rbindFault? (a b : Metadata) : Option ShapeFault :=
  match a.cols, b.cols with
  | some ac, some bc => if ac = bc then none else some (.columnCounts ac bc)
  | _, _ => none

/-- The fault of a matrix that is to become one of other metadata. -/
def reshapeFault? (given wanted : Metadata) : Option ShapeFault :=
  match given.cells, wanted.cells with
  | some a, some b => if a = b then none else some (.cellCounts a b)
  | _, _ => none

namespace Graph

def inputMetadata? (g : Graph) : Input → Option Metadata
  | .node r => (g.node? r).map fun n => n.metadata
  | .literal _ => none

def positional? (g : Graph) (n : NodeSpec) (k : Nat) : Option Metadata := n.unnamed[k]?.bind g.inputMetadata?

def named? (g : Graph) (n : NodeSpec) (name : String) : Option Metadata :=
  (n.namedInput? name).bind g.inputMetadata?

/-- A rule of the first two positional inputs, kept while one of them is not a node. -/
def pairFault? (g : Graph) (n : NodeSpec) (rule : Metadata → Metadata → Option ShapeFault) : Option ShapeFault :=
  match g.positional? n 0, g.positional? n 1 with
  | some a, some b => rule a b
  | _, _ => none

/-- How the known shapes around a node do not fit its operation.  The operation is known by its name alone. -/
def shapeFault? (g : Graph) (n : NodeSpec) : Option ShapeFault :=
  match n.operation with
  | "auc" => match g.named? n "Y", g.named? n "P" with
    | some y, some p => columnFault? y p
    | _, _ => none
  | "%*%" => g.pairFault? n productFault?
  | "+" | "*" => g.pairFault? n elementwiseFault?
  | "cbind" => g.pairFault? n cbindFault?
  | "rbind" => g.pairFault? n rbindFault?
  | "matrix" => (g.positional? n 0).bind fun given => reshapeFault? given n.metadata
  | _ => none

/-- The signature a node must keep: that of the builtin it calls. -/
def signature? (n : NodeSpec) : Option Builtin :=
  match n.kind with
  | .call => Builtin.lookup? n.operation
  | _ => none

/-- The first rule that a node of a graph breaks, when the root is in the context `expected`. -/
def fault? (g : Graph) (expected : Nat) (n : Node) : Option PlanError :=
  match n.registration with
  | some cause => some (.graph cause)
  | none =>
    if n.context ≠ expected then some (.validation (.contextMismatch n.id expected n.context))
    else match (signature? n.toNodeSpec).bind fun b => n.signatureFault? b.params with
      | some cause => some (.validation cause)
      | none => (g.shapeFault? n.toNodeSpec).map fun fault => .validation (.shapeMismatch n.operation fault)

end Graph
end MatrixPlan
