import MatrixPlan.Number.Binary64
import MatrixPlan.Number.Shortest
/-!
# Layout — doubles as text

`Shortest` chooses the digits of a double; a `FloatLayout` says how they are set.  Digits are set positionally, with at
least one of them on each side of the point, or as `d.ddde+NN`, without a point for a single digit.
-/
namespace MatrixPlan

/-- The decisions of a text format about doubles. -/
structure FloatLayout where
  /-- Which of two equally near shortest decimals is written. -/
  tie : Shortest.Tie
  /-- The powers of ten of the first digit, from the first to below the second, that are written positionally;
  all of them when there are none given. -/
  positional : Option (Int × Int)
  nan : List Char
  infinite : Bool → List Char

namespace FloatLayout

def numeral (n : Nat) : List Char := Nat.toDigits 10 n

/-- `ds · 10^k` with a point and no power of ten. -/
def positionalText (ds : List Char) (k : Int) : List Char :=
  if 0 ≤ k then ds ++ List.replicate k.toNat '0' ++ ['.', '0']
  else
    let places := (-k).toNat
    if places < ds.length then ds.take (ds.length - places) ++ '.' :: ds.drop (ds.length - places)
    else '0' :: '.' :: List.replicate (places - ds.length) '0' ++ ds

/-- `ds · 10^k` with a power of ten. -/
def scientificText (ds : List Char) (k : Int) : List Char :=
  let power := k + ds.length - 1
  let mark := if power < 0 then ['e', '-'] else ['e', '+']
  let mantissa := match ds with
    | d :: rest@(_ :: _) => d :: '.' :: rest
    | ds => ds
  mantissa ++ mark ++ numeral power.natAbs

def isPositional (layout : FloatLayout) (power : Int) : Bool :=
  match layout.positional with
  | none => true
  | some (least, bound) => decide (least ≤ power ∧ power < bound)

/-- The text of a positive or zero `m · 2^e`. -/
def magnitude (layout : FloatLayout) (m : Nat) (e : Int) : List Char :=
  if m = 0 then ['0', '.', '0']
  else
    let s := Shortest.digits layout.tie m e
    let ds := numeral s.digits
    if layout.isPositional (s.exponent + ds.length - 1) then positionalText ds s.exponent
    else scientificText ds s.exponent

def chars (layout : FloatLayout) : Binary64 → List Char
  | .nan => layout.nan
  | .infinite negative => layout.infinite negative
  | .finite true m e => '-' :: layout.magnitude m e
  | .finite false m e => layout.magnitude m e

def text (layout : FloatLayout) (x : Float) : String := String.ofList (layout.chars (Binary64.ofFloat x))

end FloatLayout
end MatrixPlan
