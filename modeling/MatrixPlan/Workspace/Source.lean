import MatrixPlan.Graph.Node
/-!
# Source — matrices and values that a graph starts from

A source is read by the engine, made by it, or written out in the script.  What is known of it without the engine
becomes its metadata.
-/
namespace MatrixPlan

structure RandSpec where
  rows : UInt64
  cols : UInt64
  min : Float := 0.0
  max : Float := 1.0
  /-- The fraction of non-zero cells. -/
  sparsity : Float := 1.0
  seed : Option UInt64 := none

inductive Source where
  /-- A matrix in a file, with what is known of it. -/
  | read (path : String) (metadata : Metadata)
  | full (rows cols : UInt64) (value : Float)
  | dense (matrix : Dense)
  | rand (spec : RandSpec)
  /-- The column `start, start + step, …` up to `stop`. -/
  | seq (start stop step : Float)
  | scalar (value : Float)

def wordBound : Float := 18446744073709551616.0

/-- The metadata of a sequence.  Its length is known when the steps lead from one end to the other and their number is
a word. -/
def seqMetadata (start stop step : Float) : Metadata :=
  let span := (stop - start) / step
  if step == 0.0 || !span.isFinite || span < 0.0 || wordBound ≤ span then .unknown
  else if (floorCount span).toNat + 1 ≤ maxCount then .ofShape (floorCount span + 1) 1
  else .unknown

namespace Source

def count (n : UInt64) : Input := .literal (.ofCount n)

def float (x : Float) : Input := .literal (.float x)

def spec : Source → NodeSpec
  | read path metadata =>
    { operation := "read", kind := .call, output := .matrix, unnamed := [.literal (.str path)], metadata }
  | full rows cols value =>
    { operation := "matrix", kind := .call, output := .matrix, unnamed := [float value],
      named := [("rows", count rows), ("cols", count cols)],
      metadata := .exact rows cols (if value == 0.0 then 0 else satMul rows cols) }
  | dense matrix =>
    { operation := "matrix", kind := .dense matrix, output := .matrix, metadata := matrix.metadata }
  | rand r =>
    { operation := "rand", kind := .call, output := .matrix,
      named := [("rows", count r.rows), ("cols", count r.cols), ("min", float r.min), ("max", float r.max),
        ("sparsity", float r.sparsity)] ++ r.seed.toList.map fun s => ("seed", count s),
      metadata := .ofSparsity r.rows r.cols r.sparsity }
  | seq start stop step =>
    { operation := "seq", kind := .call, output := .matrix, unnamed := [float start, float stop, float step],
      metadata := seqMetadata start stop step }
  | scalar value =>
    { operation := "literal", kind := .constant, output := .scalar, unnamed := [float value], metadata := .scalar }

end Source
end MatrixPlan
