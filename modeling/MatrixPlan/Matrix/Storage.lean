import MatrixPlan.Matrix.Bits
/-!
# Storage — matrices with more words than can be had

The number of words of a matrix must be a machine word, and they must take less than `2 ^ 63` bytes.  A program that asks
for more is stopped there.  A dense matrix never asks for too much: its cells take as much room as the words, and there
are no fewer of them.  A product has the rows of one matrix and the columns of another.
-/
namespace MatrixPlan

/-- Why words cannot be had. -/
inductive Overflow where
  /-- So many rows of so many words each are no machine word. -/
  | size (rows rowWords : UInt64)
  /-- So many words take too many bytes. -/
  | capacity (words : UInt64)
  deriving DecidableEq, Repr

/-- A value that is found unless the program is stopped before. -/
def unlessStopped (stop : Option Overflow) (value : Unit → α) : Except Overflow α :=
  match stop with
  | some e => .error e
  | none => .ok (value ())

namespace BitMatrix

/-- So many words take `2 ^ 63` bytes. -/
def wordLimit : Nat := 2 ^ 60

/-- Why the words of a matrix cannot be had, if they cannot.  Their number comes before their bytes.  Sizes are checked
here, as where every overflow stops a program; where none does, this number wraps.  The count of a product is not checked,
and wraps in `BitMatrix.product`. -/
def overflow? (rows cols : UInt64) : Option Overflow :=
  if 2 ^ 64 ≤ wordCount rows cols then some (.size rows (UInt64.ofNat (wordsPerRow cols)))
  else if wordLimit ≤ wordCount rows cols then some (.capacity (UInt64.ofNat (wordCount rows cols)))
  else none

/-- The same for the product of matrices of these extents.  Its words are asked for when the inner extents fit, also
where a factor has no set cell. -/
def productOverflow? (leftRows leftCols rightRows rightCols : UInt64) : Option Overflow :=
  if leftCols = rightRows then overflow? leftRows rightCols else none

def tryEmpty (rows cols : UInt64) : Except Overflow BitMatrix :=
  unlessStopped (overflow? rows cols) fun _ => empty rows cols

def tryProduct (a b : BitMatrix) : Except Overflow (Except EstimateError BitMatrix) :=
  unlessStopped (productOverflow? a.rows a.cols b.rows b.cols) fun _ => a.product b

end BitMatrix

def Dense.productOverflow? (a b : Dense) : Option Overflow := BitMatrix.productOverflow? a.rows a.cols b.rows b.cols

/-- The metadata of a product, whose words are asked for to count its cells. -/
def tryProductMetadata (a b : Dense) : Except Overflow (Except EstimateError Metadata) :=
  unlessStopped (a.productOverflow? b) fun _ => productMetadata a b

def trySquareMetadata (a : Dense) : Except Overflow (Except EstimateError Metadata) :=
  unlessStopped (a.productOverflow? a) fun _ => squareMetadata a

end MatrixPlan
