import MatrixPlan.Number.Decimal
/-!
# Scaling — a word of digits times a power of ten, in doubles

The digits of a decimal, as one natural number, become the nearest double, and this is multiplied or divided by the
double nearest to a power of ten.  A natural number up to `2^53` and a power up to `10^22` are doubles themselves, so
only the last step rounds and the answer is the double nearest to the decimal.  Beyond, it may be another one close by.
-/
namespace MatrixPlan
namespace Binary64

/-- The mantissa and the exponent of the double nearest to `10^k`. -/
def powerOfTen (k : Nat) : Nat × Int :=
  let e := exponentFor (10 ^ k) 1
  (roundEven (10 ^ k * 2 ^ (-e).toNat) (2 ^ e.toNat), e)

/-- The product of a double and the double nearest to `10^k`, rounded. -/
def timesPowerOfTen (k : Nat) : Binary64 → Binary64
  | finite negative m e =>
    let (n, f) := powerOfTen k
    nearest negative (m * n * 2 ^ (e + f).toNat) (2 ^ (-(e + f)).toNat)
  | x => x

/-- The quotient of a double and the double nearest to `10^k`, rounded. -/
def overPowerOfTen (k : Nat) : Binary64 → Binary64
  | finite negative m e =>
    let (n, f) := powerOfTen k
    nearest negative (m * 2 ^ (e - f).toNat) (n * 2 ^ (f - e).toNat)
  | x => x

end Binary64

namespace Decimal

def maxPower : Nat := 308

/-- The digits scaled by the power of ten, for digits that fit a word.  A power above `10^308` makes all but zero
infinite.  Below `10^-308` the digits are first divided by `10^308`, which takes every word under `10^-288`; what is
left of the power is then divided out, and since another `10^308` already makes zero of it, no more is divided than
that. -/
def scaled (d : Decimal) : Binary64 :=
  let x := Binary64.nearest d.negative d.digits 1
  if d.digits = 0 then Binary64.zero d.negative
  else if maxPower < d.exponent then .infinite d.negative
  else if 0 ≤ d.exponent then x.timesPowerOfTen d.exponent.toNat
  else if (-d.exponent).toNat ≤ maxPower then x.overPowerOfTen (-d.exponent).toNat
  else (x.overPowerOfTen maxPower).overPowerOfTen (min maxPower ((-d.exponent).toNat - maxPower))

end Decimal
end MatrixPlan
