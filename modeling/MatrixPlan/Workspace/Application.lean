import MatrixPlan.Graph.Builtin
import MatrixPlan.Graph.Node
import MatrixPlan.Matrix.Storage
import MatrixPlan.Metadata.Estimate
/-!
# Application — operations on nodes

An application of an operation to nodes becomes a node in the context of its first operand.  Nothing is checked: where
an estimate fails the metadata is unknown, and validation finds out why.  A reshaped matrix has its new shape in any
case.  The product of two matrices that are written out has its exact count.
-/
namespace MatrixPlan

/-- An operation with its operands, named or placed by `α`. -/
inductive Application (α : Type) where
  | matmul (a b : α)
  | mul (a b : α)
  | add (a b : α)
  | cbind (a b : α)
  | rbind (a b : α)
  | transpose (a : α)
  | diag (a : α)
  | eqZero (a : α)
  | neqZero (a : α)
  | reshape (a : α) (rows cols : UInt64)
  | sum (a : α)
  /-- The area under the curve of labels `y` and scores `p`. -/
  | auc (y p : α)

namespace Application

/-- The operand whose context the node belongs to. -/
def first : Application α → α
  | matmul a _ | mul a _ | add a _ | cbind a _ | rbind a _ => a
  | transpose a | diag a | eqZero a | neqZero a | reshape a _ _ | sum a => a
  | auc y _ => y

/-- Replaces each operand, told which one it is. -/
def mapM {ε : Type} (f : String → α → Except ε β) : Application α → Except ε (Application β)
  | matmul a b => return matmul (← f "a" a) (← f "b" b)
  | mul a b => return mul (← f "a" a) (← f "b" b)
  | add a b => return add (← f "a" a) (← f "b" b)
  | cbind a b => return cbind (← f "a" a) (← f "b" b)
  | rbind a b => return rbind (← f "a" a) (← f "b" b)
  | transpose a => return transpose (← f "a" a)
  | diag a => return diag (← f "a" a)
  | eqZero a => return eqZero (← f "a" a)
  | neqZero a => return neqZero (← f "a" a)
  | reshape a rows cols => return reshape (← f "a" a) rows cols
  | sum a => return sum (← f "a" a)
  | auc y p => return auc (← f "y" y) (← f "p" p)

end Application

/-- An estimate, or unknown metadata where there is none. -/
def Estimator.metadata (case : Estimator) (op : Operation) (left : Metadata) (right : Option Metadata) : Metadata :=
  match case.estimate op left right with
  | .ok m => m
  | .error _ => .unknown

def Estimator.productOf (case : Estimator) (a b : NodeSpec) : Metadata :=
  match a.dense?, b.dense? with
  | some x, some y => match productMetadata x y with
    | .ok m => m
    | .error _ => case.metadata .product a.metadata (some b.metadata)
  | _, _ => case.metadata .product a.metadata (some b.metadata)

/-- The product of a node with itself. -/
def Estimator.squareOf (case : Estimator) (a : NodeSpec) : Metadata :=
  match a.dense? with
  | some x => match squareMetadata x with
    | .ok m => m
    | .error _ => case.metadata .product a.metadata (some a.metadata)
  | none => case.metadata .product a.metadata (some a.metadata)

theorem Estimator.squareOf_eq (case : Estimator) (a : NodeSpec) : case.squareOf a = case.productOf a a := by
  unfold squareOf productOf
  cases a.dense? <;> rfl

def Estimator.reshapeTo (case : Estimator) (m : Metadata) (rows cols : UInt64) : Metadata :=
  let estimated := case.metadata (.reshape rows cols) m none
  if estimated.hasShape then estimated else .ofShape rows cols

namespace Application

def operatorSpec (operation : String) (left right : Input) (metadata : Metadata) : NodeSpec :=
  { operation, kind := .operator, output := .matrix, unnamed := [left, right], metadata }

def callSpec (operation : String) (inputs : List Input) (metadata : Metadata) : NodeSpec :=
  { operation, kind := .call, output := .matrix, unnamed := inputs, metadata }

/-- The node of an application.  A place without a node has unknown metadata. -/
def spec (g : Graph) (case : Estimator) (application : Application Nat) : NodeSpec :=
  let at' (r : Nat) : Metadata := (g.node? r).elim .unknown fun n => n.metadata
  match application with
  | matmul a b =>
    operatorSpec "%*%" (.node a) (.node b) <| match g.node? a, g.node? b with
      | some x, some y => if a = b then case.squareOf x.toNodeSpec else case.productOf x.toNodeSpec y.toNodeSpec
      | _, _ => .unknown
  | mul a b => operatorSpec "*" (.node a) (.node b) (case.metadata .times (at' a) (some (at' b)))
  | add a b => operatorSpec "+" (.node a) (.node b) (case.metadata .plus (at' a) (some (at' b)))
  | cbind a b => callSpec "cbind" [.node a, .node b] (case.metadata .cbind (at' a) (some (at' b)))
  | rbind a b => callSpec "rbind" [.node a, .node b] (case.metadata .rbind (at' a) (some (at' b)))
  | transpose a => callSpec "t" [.node a] (case.metadata .transpose (at' a) none)
  | diag a => callSpec "diag" [.node a] (case.metadata .diag (at' a) none)
  | eqZero a => operatorSpec "==" (.node a) (.literal (.float 0.0)) (case.metadata .eqZero (at' a) none)
  | neqZero a => operatorSpec "!=" (.node a) (.literal (.float 0.0)) (case.metadata .neqZero (at' a) none)
  | reshape a rows cols =>
    { callSpec "matrix" [.node a] (case.reshapeTo (at' a) rows cols) with
      named := [("rows", .literal (.ofCount rows)), ("cols", .literal (.ofCount cols))] }
  | sum a => { callSpec "sum" [.node a] .scalar with output := .scalar }
  | auc y p =>
    { operation := Builtin.auc.name, kind := .call, output := Builtin.auc.output,
      named := Builtin.auc.params.zip [.node y, .node p], metadata := .scalar }

/-- Why the program is stopped when the node of an application is made, if it is.  Only a product of matrices that are
written out asks for words. -/
def overflow? (g : Graph) : Application Nat → Option Overflow
  | matmul a b => do
    let x ← (← g.node? a).dense?
    let y ← (← g.node? b).dense?
    x.productOverflow? y
  | _ => none

/-- A product is that of its operands, also of a node with itself. -/
theorem spec_matmul (g : Graph) (case : Estimator) (a b : Nat) :
    (matmul a b).spec g case = operatorSpec "%*%" (.node a) (.node b) (match g.node? a, g.node? b with
      | some x, some y => case.productOf x.toNodeSpec y.toNodeSpec
      | _, _ => .unknown) := by
  unfold spec
  dsimp only
  by_cases hab : a = b
  · subst hab
    cases g.node? a with
    | none => rfl
    | some x => simp only [↓reduceIte, case.squareOf_eq]
  · simp only [if_neg hab]

end Application
end MatrixPlan
