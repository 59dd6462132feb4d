import MatrixPlan.Matrix.Dense
import MatrixPlan.Number.Layout
/-!
# Literal — constants and their script text

A script writes a double without a power of ten and with a point, so that the engine does not take it for an integer; a
string stands in single quotes, a backslash in front of each quote and backslash in it.
-/
namespace MatrixPlan

inductive OutputType where
  | matrix
  | scalar
  | frame
  | none
  deriving DecidableEq, Repr

def OutputType.name : OutputType → String
  | matrix => "matrix"
  | scalar => "scalar"
  | frame => "frame"
  | none => "none"

def OutputType.ofName? (name : String) : Option OutputType :=
  [matrix, scalar, frame, none].find? (·.name == name)

/-- Two shortest decimals that are equally near: the greater one is written. -/
def scriptLayout : FloatLayout where
  tie := .up
  positional := Option.none
  nan := "NaN".toList
  infinite negative := if negative then "-Inf".toList else "Inf".toList

def scriptFloat (x : Float) : String := scriptLayout.text x

/-- A constant argument.  Two constants are the same when their values compare equal: no `nan` is, both zeros are. -/
inductive Literal where
  | float (value : Float)
  | int (value : Int64)
  | bool (value : Bool)
  | str (value : String)
  deriving BEq

namespace Literal

/-- A count as a constant; counts beyond the signed integers are the largest of these. -/
def ofCount (n : UInt64) : Literal := int (Int64.ofNat (min n.toNat (2 ^ 63 - 1)))

/-- A character as it stands inside a quoted string. -/
def escaped (c : Char) : List Char := if c = '\\' ∨ c = '\x27' then ['\\', c] else [c]

def quoted (cs : List Char) : List Char := '\x27' :: cs.flatMap escaped ++ ['\x27']

def text : Literal → String
  | float x => scriptFloat x
  | int n => toString n.toInt
  | bool true => "TRUE"
  | bool false => "FALSE"
  | str s => String.ofList (quoted s.toList)

end Literal

def Dense.text (m : Dense) : String :=
  "matrix(\"" ++ " ".intercalate (m.values.toList.map scriptFloat) ++ "\", rows=" ++ countText m.rows
    ++ ", cols=" ++ countText m.cols ++ ")"

end MatrixPlan
