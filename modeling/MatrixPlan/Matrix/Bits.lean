import MatrixPlan.Matrix.Dense
import MatrixPlan.Metadata.Operation
/-!
# Bits — which cells of a matrix are non-zero

One bit a cell, in rows of whole 64-bit words; the bits past the last column are zero.  The number of set cells is kept
beside the words.  The product of two such matrices is found by or-ing rows of the right one: it has exactly the cells
that some pair of set cells reaches.
-/
namespace MatrixPlan

structure BitMatrix where
  rows : UInt64
  cols : UInt64
  rowWords : UInt64
  /-- The words, row by row; the lowest bit of a word is its first column. -/
  words : Array UInt64
  nnz : UInt64
  deriving DecidableEq, Repr

namespace BitMatrix

def wordBits : Nat := 64

def wordsPerRow (cols : UInt64) : Nat := (cols.toNat + (wordBits - 1)) / wordBits

def wordCount (rows cols : UInt64) : Nat := rows.toNat * wordsPerRow cols

def empty (rows cols : UInt64) : BitMatrix where
  rows := rows
  cols := cols
  rowWords := UInt64.ofNat (wordsPerRow cols)
  words := Array.replicate (wordCount rows cols) 0
  nnz := 0

/-- The number whose binary digits, the lowest first, are the given ones. -/
def ofBits : List Bool → Nat
  | [] => 0
  | b :: bs => b.toNat + 2 * ofBits bs

/-- A row of cells in words. -/
def packRow (cells : List Float) : List UInt64 :=
  (chunks (wordBits - 1) cells).map fun part => UInt64.ofNat (ofBits (part.map Dense.isNonzero))

def ofDense (m : Dense) : BitMatrix where
  rows := m.rows
  cols := m.cols
  rowWords := UInt64.ofNat (wordsPerRow m.cols)
  words := (m.rowSlices.flatMap packRow).toArray
  nnz := m.nnz

/-- Whether a cell is set; none is out of range. -/
def get (m : BitMatrix) (r c : Nat) : Bool :=
  if r < m.rows.toNat ∧ c < m.cols.toNat then
    match m.words[r * m.rowWords.toNat + c / wordBits]? with
    | some w => w.toNat.testBit (c % wordBits)
    | none => false
  else false

def row (m : BitMatrix) (r : Nat) : List UInt64 :=
  (m.words.extract (r * m.rowWords.toNat) ((r + 1) * m.rowWords.toNat)).toList

def metadata (m : BitMatrix) : Metadata := .exact m.rows m.cols m.nnz

def orRow (a b : List UInt64) : List UInt64 := List.zipWith (· ||| ·) a b

/-- A row of the product: the rows of `b` at the set cells of the row of `a`, put together. -/
def productRow (a b : BitMatrix) (r : Nat) : List UInt64 :=
  (List.range a.cols.toNat).foldl (fun acc k => if a.get r k then orRow acc (b.row k) else acc)
    (List.replicate (wordsPerRow b.cols) 0)

def popCount (w : UInt64) : Nat := (List.range wordBits).countP fun i => w.toNat.testBit i

/-- The cells that a set cell of `a` and a set cell of `b` reach together. -/
def product (a b : BitMatrix) : Except EstimateError BitMatrix :=
  if a.cols ≠ b.rows then .error (.incompatible .product (.innerExtents a.cols b.rows))
  else if a.nnz = 0 ∨ b.nnz = 0 then .ok (empty a.rows b.cols)
  else
    let words := (List.range a.rows.toNat).flatMap (productRow a b)
    .ok {
      rows := a.rows
      cols := b.cols
      rowWords := UInt64.ofNat (wordsPerRow b.cols)
      words := words.toArray
      nnz := UInt64.ofNat (words.map popCount).sum }

end BitMatrix

/-- The exact metadata of the product of two given matrices, as far as which cells are zero goes. -/
def productMetadata (a b : Dense) : Except EstimateError Metadata :=
  ((BitMatrix.ofDense a).product (BitMatrix.ofDense b)).map BitMatrix.metadata

/-- The same for one matrix on both sides, whose cells are looked at once. -/
def squareMetadata (a : Dense) : Except EstimateError Metadata :=
  let bits := BitMatrix.ofDense a
  (bits.product bits).map BitMatrix.metadata

theorem squareMetadata_eq (a : Dense) : squareMetadata a = productMetadata a a := rfl

end MatrixPlan
