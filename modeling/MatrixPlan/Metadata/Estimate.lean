import MatrixPlan.Metadata.Exact
/-!
# Estimate — metadata from sparsities

Products and sums of matrices have a number of non-zero cells that their operands' counts do not determine.  The
average case takes the non-zero cells as spread evenly, the worst case bounds their number.  All other operations
follow `exactMetadata`.
-/
namespace MatrixPlan

/-- Which closed formula estimates the sparsity of a result. -/
inductive Estimator where
  | average
  | worst
  deriving DecidableEq, Repr

/-- What an estimator is called where results are reported. -/
def Estimator.name : Estimator → String
  | average => "basic_average"
  | worst => "basic_worst"

def Estimator.choice : Estimator → String
  | average => "average"
  | worst => "worst"

/-- The estimator that a word in a configuration stands for. -/
def Estimator.ofChoice? (word : String) : Option Estimator := [average, worst].find? (·.choice == word)

def lesser (x y : Float) : Float := if y < x then y else x

/-- `acc · x^n` by squaring: the factor of the last binary digit first, each square after it. -/
def powerFrom (acc x : Float) (n : Nat) : Float :=
  let acc := if n % 2 = 1 then acc * x else acc
  if _h : n / 2 = 0 then acc else powerFrom acc (x * x) (n / 2)
termination_by n
decreasing_by omega

def power (x : Float) (n : Nat) : Float := powerFrom 1.0 x n

/-- The largest exponent that `power` is asked for. -/
def maxPower : UInt64 := 2147483647

namespace Estimator

/-- The sparsity of a matrix product with `k` terms a cell. -/
def productSparsity (case : Estimator) (s₁ s₂ : Float) (k : UInt64) : Float :=
  match case with
  | .average => 1.0 - power (1.0 - s₁ * s₂) (min k maxPower).toNat
  | .worst => lesser (s₁ * k.toFloat) 1.0 * lesser (s₂ * k.toFloat) 1.0

def timesSparsity : Estimator → Float → Float → Float
  | .average, s₁, s₂ => s₁ * s₂
  | .worst, s₁, s₂ => lesser s₁ s₂

def plusSparsity : Estimator → Float → Float → Float
  | .average, s₁, s₂ => s₁ + s₂ - s₁ * s₂
  | .worst, s₁, s₂ => lesser (s₁ + s₂) 1.0

/-- The metadata of a matrix product whose inner extents do not contradict each other. -/
def product (case : Estimator) (left right : Metadata) : Metadata :=
  match left.rows, right.cols with
  | some rows, some cols => match left.sparsity, right.sparsity, left.cols with
    | some s₁, some s₂, some k => .ofSparsity rows cols (case.productSparsity s₁ s₂ k)
    | _, _, _ => .ofShape rows cols
  | rows, cols => ⟨rows, cols, none⟩

end Estimator

/-- The extent of an elementwise result in one dimension.  A right extent of one takes the left one, so an unknown
right extent leaves a left extent other than one as it is. -/
def broadcastExtent : Option UInt64 → Option UInt64 → Option UInt64
  | some a, some b => some (max a b)
  | some a, none => if a = 1 then none else some a
  | none, _ => none

/-- The metadata of an elementwise result of known or unknown sparsity. -/
def elementwise (left right : Metadata) (sparsity : Option Float) : Metadata :=
  match broadcastExtent left.rows right.rows, broadcastExtent left.cols right.cols, sparsity with
  | some rows, some cols, some s => .ofSparsity rows cols s
  | rows, cols, _ => ⟨rows, cols, none⟩

/-- The sparsities of both operands put together, if both are known. -/
def combineSparsity (f : Float → Float → Float) (left right : Metadata) : Option Float := do
  return f (← left.sparsity) (← right.sparsity)

/-- The inner extents of a matrix product, if both are known and differ. -/
def innerConflict? (left right : Metadata) : Option ShapeFault :=
  match left.cols, right.rows with
  | some k₁, some k₂ => if k₁ = k₂ then none else some (.innerExtents k₁ k₂)
  | _, _ => none

def Estimator.estimate (case : Estimator) (op : Operation) (left : Metadata) (right : Option Metadata) :
    Except EstimateError Metadata := do
  op.checkOperands right
  match op with
  | .product =>
    let right ← op.rightOperand right
    match innerConflict? left right with
    | some fault => throw (.incompatible op fault)
    | none => return case.product left right
  | .times =>
    let right ← op.rightOperand right
    return elementwise left right (combineSparsity case.timesSparsity left right)
  | .plus =>
    let right ← op.rightOperand right
    return elementwise left right (combineSparsity case.plusSparsity left right)
  | _ => exactMetadata op left right

end MatrixPlan
