import MatrixPlan.Json.Basic
import MatrixPlan.Number.Layout
import MatrixPlan.Number.Numeral
import MatrixPlan.Number.Scaling
/-!
# Number — what a JSON number may stand for

Counts and integers are written and read without fraction and power of ten, and `-0` is neither.  A double is written
with its shortest digits, positionally when its first digit stands for a power of ten from `10^-5` to `10^15`, and as
`null` when it is not finite.  A number is read as a double in two steps, its leading digits and their scaling: a short
number gives the nearest double, a long one that or another close by.
-/
namespace MatrixPlan

/-- Two shortest decimals that are equally near: the even one is written. -/
def jsonLayout : FloatLayout where
  tie := .even
  positional := some (-5, 16)
  nan := "null".toList
  infinite _ := "null".toList

namespace Json

def ofCount (n : UInt64) : Json := .number (FloatLayout.numeral n.toNat)

def ofInt (n : Int64) : Json :=
  if n.toInt < 0 then .number ('-' :: FloatLayout.numeral n.toInt.natAbs)
  else .number (FloatLayout.numeral n.toInt.natAbs)

def ofFloat (x : Float) : Json :=
  match Binary64.ofFloat x with
  | .finite s m e => .number (jsonLayout.chars (.finite s m e))
  | _ => .null

/-- The natural number that a number without sign, fraction and power of ten writes. -/
def natural? (text : List Char) : Option Nat :=
  if text ≠ [] ∧ text.all Char.isDigit then some (Decimal.ofDigits text) else none

def toCount? : Json → Option UInt64
  | .number text => (natural? text).bind fun n => if n ≤ maxCount then some (UInt64.ofNat n) else none
  | _ => none

def toInt? : Json → Option Int64
  | .number ('-' :: text) =>
    (natural? text).bind fun n => if n ≠ 0 ∧ n ≤ 2 ^ 63 then some (Int64.ofInt (-n)) else none
  | .number text => (natural? text).bind fun n => if n < 2 ^ 63 then some (Int64.ofInt n) else none
  | _ => none

/-- The double of a number: its digits that fit a word, scaled.  There is none when that is infinite. -/
def toFloat? : Json → Option Float
  | .number text => (Numeral.ofChars? text).bind fun t => match t.leading.scaled with
    | .finite s m e => some (Binary64.finite s m e).toFloat
    | _ => none
  | _ => none

def toBool? : Json → Option Bool
  | .bool b => some b
  | _ => none

def toString? : Json → Option String
  | .string text => text
  | _ => none

end Json
end MatrixPlan
