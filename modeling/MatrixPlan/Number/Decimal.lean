import MatrixPlan.Number.Binary64
/-!
# Decimal — decimals as doubles

A decimal is a signed natural number times a power of ten.  Its double is the nearest one, a tie going to the even
mantissa; beyond the largest double it is infinite.  `nearest` is the rounding itself, exact on a quotient of natural
numbers.
-/
namespace MatrixPlan

/-- The number `(-1)^s · digits · 10^exponent`. -/
structure Decimal where
  negative : Bool
  digits : Nat
  exponent : Int
  deriving DecidableEq, Repr

namespace Binary64

/-- The quotient `a / b` rounded to a natural number, a half to the even neighbour. -/
def roundEven (a b : Nat) : Nat :=
  let q := a / b
  let r := a % b
  if 2 * r < b then q
  else if b < 2 * r then q + 1
  else if q % 2 = 0 then q else q + 1

/-- The exponent at which the positive quotient `a / b` has a 53-bit mantissa, or the least exponent. -/
def exponentFor (a b : Nat) : Int :=
  let guess : Int := (a.log2 : Int) - b.log2
  let exact := if b * 2 ^ guess.toNat ≤ a * 2 ^ (-guess).toNat then guess else guess - 1
  max minExponent (exact - 52)

/-- A mantissa of at most `2^53` at an exponent, as a double. -/
def ofMantissa (negative : Bool) (m : Nat) (e : Int) : Binary64 :=
  let (m, e) := if m = 2 ^ 53 then (hiddenBit, e + 1) else (m, e)
  if maxExponent < e then infinite negative else finite negative m e

/-- The double nearest to `a / b`, for a positive `b`. -/
def nearest (negative : Bool) (a b : Nat) : Binary64 :=
  if a = 0 then zero negative
  else
    let e := exponentFor a b
    ofMantissa negative (roundEven (a * 2 ^ (-e).toNat) (b * 2 ^ e.toNat)) e

end Binary64

namespace Decimal

/-- The double nearest to a decimal.  A power of ten above `10^400` is beyond every double; `digits` is below
`10^(log2 digits + 1)`, so a number below `10^-400` rounds to zero.  Both are answered without computing the power. -/
def toBinary64 (d : Decimal) : Binary64 :=
  if d.digits = 0 then Binary64.zero d.negative
  else if 400 < d.exponent then .infinite d.negative
  else if d.exponent + (d.digits.log2 + 1) < -400 then Binary64.zero d.negative
  else Binary64.nearest d.negative (d.digits * 10 ^ d.exponent.toNat) (10 ^ (-d.exponent).toNat)

def toFloat (d : Decimal) : Float := d.toBinary64.toFloat

def ofDigits (cs : List Char) : Nat := Nat.ofDigitChars 10 cs 0

end Decimal
end MatrixPlan
