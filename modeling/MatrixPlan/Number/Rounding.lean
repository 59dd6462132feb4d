import MatrixPlan.Number.Binary64
import MatrixPlan.Number.Saturation
/-!
# Rounding — doubles as counts

A count is read off a double exactly, on its mantissa and exponent: `roundCount` goes to the nearest whole number, a
half away from zero, and `floorCount` to the one below.  A negative number and `nan` count as zero, and what exceeds a
word counts as the largest word.
-/
namespace MatrixPlan
namespace Binary64

/-- The whole number nearest to `m · 2^e`, a half upward. -/
def roundHalfUp (m : Nat) (e : Int) : Nat :=
  if 0 ≤ e then m * 2 ^ e.toNat
  else (2 * m + 2 ^ (-e).toNat) / 2 ^ ((-e).toNat + 1)

/-- The whole number at or below `m · 2^e`. -/
def floorNat (m : Nat) (e : Int) : Nat :=
  if 0 ≤ e then m * 2 ^ e.toNat else m / 2 ^ (-e).toNat

/-- A double as a count, its magnitude taken to a whole number by `whole`. -/
def toCount (whole : Nat → Int → Nat) : Binary64 → UInt64
  | nan => 0
  | infinite true => 0
  | infinite false => clampCount maxCount
  | finite true _ _ => 0
  | finite false m e => clampCount (whole m e)

end Binary64

/-- The count nearest to a double, a half away from zero. -/
def roundCount (x : Float) : UInt64 := (Binary64.ofFloat x).toCount Binary64.roundHalfUp

/-- The count at or below a double. -/
def floorCount (x : Float) : UInt64 := (Binary64.ofFloat x).toCount Binary64.floorNat

end MatrixPlan
