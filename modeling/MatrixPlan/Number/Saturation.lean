import MatrixPlan.Number.Natural
/-!
# Saturation — counts that stop at the largest machine word

Extents, cell counts and non-zero counts are 64-bit words.  A sum or product that does not fit is the largest word, and
a difference below zero is zero.  Each operation is pinned by its value in the natural numbers.
-/
namespace MatrixPlan

def maxCount : Nat := 2 ^ 64 - 1

/-- The word nearest to `n` from below. -/
def clampCount (n : Nat) : UInt64 := UInt64.ofNat (min n maxCount)

theorem toNat_clampCount (n : Nat) : (clampCount n).toNat = min n maxCount := by
  unfold clampCount maxCount
  rw [UInt64.toNat_ofNat']
  exact Nat.mod_eq_of_lt (by omega)

def satAdd (a b : UInt64) : UInt64 := clampCount (a.toNat + b.toNat)

def satMul (a b : UInt64) : UInt64 := clampCount (a.toNat * b.toNat)

def satSub (a b : UInt64) : UInt64 := clampCount (a.toNat - b.toNat)

theorem toNat_satAdd (a b : UInt64) : (satAdd a b).toNat = min (a.toNat + b.toNat) maxCount :=
  toNat_clampCount _

theorem toNat_satMul (a b : UInt64) : (satMul a b).toNat = min (a.toNat * b.toNat) maxCount :=
  toNat_clampCount _

/-- What fits is the exact sum. -/
theorem toNat_satAdd_of_lt {a b : UInt64} (h : a.toNat + b.toNat < 2 ^ 64) :
    (satAdd a b).toNat = a.toNat + b.toNat := by
  rw [toNat_satAdd, maxCount]
  exact Nat.min_eq_left (by omega)

theorem toNat_satMul_of_lt {a b : UInt64} (h : a.toNat * b.toNat < 2 ^ 64) :
    (satMul a b).toNat = a.toNat * b.toNat := by
  rw [toNat_satMul, maxCount]
  exact Nat.min_eq_left (by omega)

theorem toNat_satSub (a b : UInt64) : (satSub a b).toNat = a.toNat - b.toNat := by
  have := a.toNat_lt
  rw [satSub, toNat_clampCount, maxCount]
  omega

end MatrixPlan
