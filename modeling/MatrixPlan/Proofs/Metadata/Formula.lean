import Mathlib.Algebra.Order.Field.Basic
import Mathlib.Data.Rat.Cast.Order
import Mathlib.Tactic.FieldSimp
import Mathlib.Tactic.Positivity
import Mathlib.Tactic.Ring
import MatrixPlan.Metadata.Estimate
import MatrixPlan.Proofs.Matrix.Grid
/-!
# Formula — closed formulas in exact arithmetic

The formulas for the sparsity of a product are read here in any arithmetic (`Arithmetic`).  In that of doubles they are
those of the estimators.  In that of the rational numbers a power by squaring is the power, and the formulas have the
values that they are written for.
-/
namespace MatrixPlan

/-- What a formula is read in. -/
structure Arithmetic (α : Type) where
  zero : α
  one : α
  sub : α → α → α
  mul : α → α → α
  div : α → α → α
  less : α → α → Bool
  ofCount : UInt64 → α

namespace Dense

/-- The fraction of the cells that are not zero. -/
def density (d : Dense) : ℚ := d.nnz.toNat / (d.rows.toNat * d.cols.toNat)

theorem nnz_le (d : Dense) : d.nnz.toNat ≤ d.rows.toNat * d.cols.toNat := d.nonzeros_grid ▸ d.grid.nonzeros_le

theorem density_nonneg (d : Dense) : 0 ≤ d.density := by
  unfold density
  positivity

theorem density_le_one (d : Dense) : d.density ≤ 1 := by
  refine div_le_one_of_le₀ ?_ (by positivity)
  exact_mod_cast d.nnz_le

end Dense

namespace Arithmetic

/-- The arithmetic of the estimators. -/
def double : Arithmetic Float := ⟨0.0, 1.0, (· - ·), (· * ·), (· / ·), fun x y => x < y, UInt64.toFloat⟩

/-- The arithmetic without rounding. -/
def exact : Arithmetic ℚ := ⟨0, 1, (· - ·), (· * ·), (· / ·), fun x y => x < y, fun n => n.toNat⟩

section formulas

variable {α : Type} (A : Arithmetic α)

def lesser (x y : α) : α := if A.less y x then y else x

def clampUnit (x : α) : α := if A.less x A.zero then A.zero else if A.less A.one x then A.one else x

def powerFrom (acc x : α) (n : Nat) : α :=
  let acc := if n % 2 = 1 then A.mul acc x else acc
  if _h : n / 2 = 0 then acc else powerFrom acc (A.mul x x) (n / 2)
termination_by n
decreasing_by omega

def sparsity (m : Metadata) : Option α := do
  let cells ← m.cells
  let nnz ← m.nnz
  return if cells = 0 then A.zero else A.clampUnit (A.div (A.ofCount nnz) (A.ofCount cells))

def productSparsity (case : Estimator) (s₁ s₂ : α) (k : UInt64) : α :=
  match case with
  | .average => A.sub A.one (A.powerFrom A.one (A.sub A.one (A.mul s₁ s₂)) (min k maxPower).toNat)
  | .worst => A.mul (A.lesser (A.mul s₁ (A.ofCount k)) A.one) (A.lesser (A.mul s₂ (A.ofCount k)) A.one)

/-- How many of its cells an estimator takes for non-zero in the product of two dense matrices, before it rounds. -/
def productCount (case : Estimator) (a b : Dense) : Option α := do
  let s₁ ← A.sparsity a.metadata
  let s₂ ← A.sparsity b.metadata
  return A.mul (A.mul (A.ofCount a.rows) (A.ofCount b.cols)) (A.productSparsity case s₁ s₂ a.cols)

end formulas

section double

theorem powerFrom_double (acc x : Float) (n : Nat) : double.powerFrom acc x n = MatrixPlan.powerFrom acc x n := by
  induction acc, x, n using MatrixPlan.powerFrom.induct with
  | case1 acc x n h =>
    rw [powerFrom, MatrixPlan.powerFrom, dif_pos h, dif_pos h]
    rfl
  | case2 acc x n acc' h ih =>
    rw [powerFrom, MatrixPlan.powerFrom, dif_neg h, dif_neg h]
    exact ih

theorem sparsity_double (m : Metadata) : double.sparsity m = m.sparsity := by
  unfold sparsity Metadata.sparsity clampUnit MatrixPlan.clampUnit double
  simp only [decide_eq_true_eq]

/-- **In doubles the formulas are those of the estimators.** -/
theorem productSparsity_double (case : Estimator) (s₁ s₂ : Float) (k : UInt64) :
    double.productSparsity case s₁ s₂ k = case.productSparsity s₁ s₂ k := by
  cases case with
  | average =>
    rw [productSparsity, powerFrom_double]
    rfl
  | worst =>
    have hlesser : ∀ x y, double.lesser x y = MatrixPlan.lesser x y := fun x y => by
      simp only [lesser, MatrixPlan.lesser, double, decide_eq_true_eq]
    rw [productSparsity, hlesser, hlesser]
    rfl

end double

section exact

variable {a b d : Dense}

/-- Squaring halves the exponent, and keeps `acc * x ^ n`. -/
theorem powerFrom_exact (acc x : ℚ) (n : Nat) : exact.powerFrom acc x n = acc * x ^ n := by
  induction acc, x, n using powerFrom.induct exact with
  | case1 acc x n h =>
    rw [powerFrom, dif_pos h]
    obtain rfl | rfl : n = 0 ∨ n = 1 := by omega
    · simp
    · simp [exact]
  | case2 acc x n acc' h ih =>
    rw [powerFrom, dif_neg h]
    refine ih.trans ?_
    have hhalf : exact.mul x x ^ (n / 2) = x ^ (2 * (n / 2)) := by
      rw [pow_mul, sq]
      rfl
    rw [hhalf]
    rcases Nat.mod_two_eq_zero_or_one n with hn | hn
    · have heven : 2 * (n / 2) = n := by omega
      simp [acc', hn, heven]
    · have hodd : n = 2 * (n / 2) + 1 := by omega
      have hacc : acc' = acc * x := if_pos hn
      rw [hacc, mul_assoc, ← pow_succ', ← hodd]

theorem lesser_exact (x y : ℚ) : exact.lesser x y = min x y := by
  simp only [lesser, exact, decide_eq_true_eq]
  rcases lt_or_ge y x with h | h
  · rw [if_pos h, min_eq_right h.le]
  · rw [if_neg h.not_gt, min_eq_left h]

/-- The worst case: no more cells than in rows and columns that have any. -/
theorem productSparsity_worst (s₁ s₂ : ℚ) (k : UInt64) :
    exact.productSparsity .worst s₁ s₂ k = min (s₁ * k.toNat) 1 * min (s₂ * k.toNat) 1 := by
  rw [← lesser_exact, ← lesser_exact]
  rfl

/-- The average case: a cell is zero when all its terms are. -/
theorem productSparsity_average (s₁ s₂ : ℚ) (k : UInt64) :
    exact.productSparsity .average s₁ s₂ k = 1 - (1 - s₁ * s₂) ^ (min k maxPower).toNat := by
  change 1 - exact.powerFrom 1 (1 - s₁ * s₂) _ = _
  rw [powerFrom_exact, one_mul]

/-- **The sparsity of a dense matrix is its density**, also without cells. -/
theorem sparsity_exact (d : Dense) : exact.sparsity d.metadata = some d.density := by
  have hlt : d.rows.toNat * d.cols.toNat < 2 ^ 64 := by
    have := d.size_lt
    rw [d.size_eq_mul] at this
    omega
  have hcells : (satMul d.rows d.cols).toNat = d.rows.toNat * d.cols.toNat := toNat_satMul_of_lt hlt
  have hclamp : exact.clampUnit d.density = d.density := by
    unfold clampUnit exact
    simp only [decide_eq_true_eq]
    rw [if_neg d.density_nonneg.not_gt, if_neg d.density_le_one.not_gt]
  have hdensity : d.density = exact.div (exact.ofCount d.nnz) (exact.ofCount (satMul d.rows d.cols)) := by
    change _ = (d.nnz.toNat : ℚ) / ((satMul d.rows d.cols).toNat : ℚ)
    rw [hcells, Nat.cast_mul]
    rfl
  change some (if satMul d.rows d.cols = 0 then _ else _) = _
  rw [← hdensity, hclamp]
  split
  · rename_i hzero
    have hmul : (d.rows.toNat * d.cols.toNat : ℚ) = 0 := by
      rw [← Nat.cast_mul, ← hcells, hzero]
      rfl
    rw [Dense.density, hmul, div_zero]
    rfl
  · rfl

theorem productCount_exact (case : Estimator) (a b : Dense) : exact.productCount case a b =
    some (a.rows.toNat * b.cols.toNat * exact.productSparsity case a.density b.density a.cols) := by
  rw [productCount, sparsity_exact, sparsity_exact]
  rfl

/-- Set cells that are no more than the rows of a single cell. -/
theorem mul_density {m nnz : Nat} (h : nnz ≤ m) : (m : ℚ) * (nnz / m) = nnz := by
  rcases Nat.eq_zero_or_pos m with rfl | hm
  · obtain rfl : nnz = 0 := by omega
    simp
  · field_simp

/-- The worst case for `m` rows of `k` cells: each row has a set cell, or each set cell a row of its own. -/
theorem mul_min_density {m k nnz : Nat} (h : nnz ≤ m * k) :
    (m : ℚ) * min (nnz / (m * k) * k : ℚ) 1 = (min m nnz : Nat) := by
  rcases Nat.eq_zero_or_pos m with rfl | hm
  · simp
  rcases Nat.eq_zero_or_pos k with rfl | hk
  · obtain rfl : nnz = 0 := by omega
    simp
  have hvalue : (m : ℚ) * (nnz / (m * k) * k) = nnz := by field_simp
  rw [mul_min_of_nonneg _ _ (Nat.cast_nonneg m), hvalue, mul_one, min_comm, Nat.cast_min]

/-- **The count of the worst case**: as many rows and as many columns as the cells of the factors can fill. -/
theorem productCount_worst (h : a.cols = b.rows) : exact.productCount .worst a b =
    some ((min a.rows.toNat a.nnz.toNat * min b.cols.toNat b.nnz.toNat : Nat) : ℚ) := by
  have hleft := mul_min_density a.nnz_le
  have hright := mul_min_density (Nat.mul_comm b.rows.toNat b.cols.toNat ▸ b.nnz_le)
  rw [productCount_exact, productSparsity_worst, Nat.cast_mul, ← hleft, ← hright, Dense.density, Dense.density, h,
    mul_comm (b.rows.toNat : ℚ)]
  congr 1
  ring

/-- **A single inner index**: both cases count the pairs of set cells. -/
theorem productCount_outer (h : a.cols = b.rows) (hone : a.cols = 1) (case : Estimator) :
    exact.productCount case a b = some (a.nnz.toNat * b.nnz.toNat : ℚ) := by
  have hleft : a.nnz.toNat ≤ a.rows.toNat := by simpa [hone] using a.nnz_le
  have hright : b.nnz.toNat ≤ b.cols.toNat := by simpa [← h, hone] using b.nnz_le
  cases case with
  | worst => rw [productCount_worst h, Nat.min_eq_right hleft, Nat.min_eq_right hright, Nat.cast_mul]
  | average =>
    have ha : a.rows.toNat * a.density = a.nnz.toNat := by simpa [Dense.density, hone] using mul_density hleft
    have hb : b.cols.toNat * b.density = b.nnz.toNat := by simpa [Dense.density, ← h, hone] using mul_density hright
    have hpower : (min 1 maxPower).toNat = 1 := rfl
    rw [productCount_exact, productSparsity_average, ← ha, ← hb, hone, hpower, pow_one]
    congr 1
    ring

end exact

end Arithmetic
end MatrixPlan
