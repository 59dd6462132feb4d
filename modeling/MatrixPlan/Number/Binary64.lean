import MatrixPlan.Number.Natural
/-!
# Binary64 — what the bits of a double say

A finite double is `(-1)^s · m · 2^e` with a natural mantissa below `2^53`.  All exact arithmetic on doubles (their
shortest text, their reading, their rounding to a count) goes through this view, where it is arithmetic on `Nat` and
`Int`.
-/
namespace MatrixPlan

/-- A double as a sign, a mantissa and a power of two. -/
inductive Binary64 where
  | nan
  | infinite (negative : Bool)
  | finite (negative : Bool) (mantissa : Nat) (exponent : Int)
  deriving DecidableEq, Repr

namespace Binary64

/-- The mantissa of the least normal double, one more than the largest subnormal one. -/
def hiddenBit : Nat := 2 ^ 52

/-- The exponent of the subnormal doubles, the least there is. -/
def minExponent : Int := -1074

def maxExponent : Int := 971

/-- The double written by a 64-bit pattern. -/
def ofBits (w : UInt64) : Binary64 :=
  let negative := decide (2 ^ 63 ≤ w.toNat)
  let biased := w.toNat / hiddenBit % 2048
  let fraction := w.toNat % hiddenBit
  if biased = 2047 then
    if fraction = 0 then infinite negative else nan
  else if biased = 0 then finite negative fraction minExponent
  else finite negative (hiddenBit + fraction) (biased - 1075)

/-- The pattern of a sign and the 63 bits after it. -/
def signed (negative : Bool) (rest : Nat) : UInt64 :=
  UInt64.ofNat (if negative then 2 ^ 63 + rest else rest)

def toBits : Binary64 → UInt64
  | nan => 0x7ff8000000000000
  | infinite negative => signed negative (2047 * hiddenBit)
  | finite negative mantissa exponent =>
    if mantissa < hiddenBit then signed negative mantissa
    else signed negative ((exponent + 1075).toNat * hiddenBit + (mantissa - hiddenBit))

def ofFloat (x : Float) : Binary64 := ofBits x.toBits

def toFloat (b : Binary64) : Float := Float.ofBits b.toBits

def zero (negative : Bool) : Binary64 := finite negative 0 minExponent

end Binary64
end MatrixPlan
