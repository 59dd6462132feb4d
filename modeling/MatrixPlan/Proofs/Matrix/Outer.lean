import Mathlib.Tactic.NormNum
import MatrixPlan.Proofs.Matrix.Product
import MatrixPlan.Proofs.Metadata.Formula
/-!
# Outer — the worst case bounds the set cells

A set cell of a product lies in a row of the left factor and in a column of the right one that have a set cell.  There
are no more such rows than rows, and no more than set cells, so the formula of the worst case bounds the count.  With a
single inner index each set cell on the left meets each on the right, and the bound is reached.
-/
namespace MatrixPlan
namespace BitMatrix

/-- The rows with a set cell. -/
def filledRows (m : BitMatrix) : Finset Nat := m.setCells.image Prod.fst

/-- The columns with a set cell. -/
def filledCols (m : BitMatrix) : Finset Nat := m.setCells.image Prod.snd

variable {a b c m : BitMatrix} {i j : Nat}

theorem mem_filledRows : i ∈ m.filledRows ↔ ∃ j, m.get i j = true := by
  rw [filledRows, Finset.mem_image]
  constructor
  · rintro ⟨p, hp, rfl⟩
    exact ⟨p.2, mem_setCells.1 hp⟩
  · rintro ⟨j, hj⟩
    exact ⟨(i, j), mem_setCells.2 hj, rfl⟩

theorem mem_filledCols : j ∈ m.filledCols ↔ ∃ i, m.get i j = true := by
  rw [filledCols, Finset.mem_image]
  constructor
  · rintro ⟨p, hp, rfl⟩
    exact ⟨p.1, mem_setCells.1 hp⟩
  · rintro ⟨i, hi⟩
    exact ⟨(i, j), mem_setCells.2 hi, rfl⟩

theorem inRange_of_mem_setCells {p : Nat × Nat} (hp : p ∈ m.setCells) : p.1 < m.rows.toNat ∧ p.2 < m.cols.toNat :=
  inRange_of_get (mem_setCells.1 hp)

/-- Set cells have no more rows, or columns, than there are, and no more than there are set cells. -/
theorem card_image_setCells_le {f : Nat × Nat → Nat} {bound : Nat} (h : ∀ p ∈ m.setCells, f p < bound) :
    (m.setCells.image f).card ≤ min bound m.setCells.card := by
  have hrange : m.setCells.image f ⊆ Finset.range bound :=
    Finset.image_subset_iff.2 fun p hp => Finset.mem_range.2 (h p hp)
  refine Nat.le_min.2 ⟨?_, Finset.card_image_le⟩
  exact (Finset.card_le_card hrange).trans_eq (Finset.card_range bound)

theorem card_filledRows_le (m : BitMatrix) : m.filledRows.card ≤ min m.rows.toNat m.setCells.card :=
  card_image_setCells_le fun _ hp => (inRange_of_mem_setCells hp).1

theorem card_filledCols_le (m : BitMatrix) : m.filledCols.card ≤ min m.cols.toNat m.setCells.card :=
  card_image_setCells_le fun _ hp => (inRange_of_mem_setCells hp).2

theorem eq_zero_of_extent_one {extent : UInt64} (hone : extent = 1) (hi : i < extent.toNat) : i = 0 := by
  rw [hone] at hi
  exact Nat.lt_one_iff.1 hi

/-- In a single column, each set cell has a row of its own. -/
theorem card_filledRows_of_column (h : m.cols = 1) : m.filledRows.card = m.setCells.card := by
  have hzero : ∀ p ∈ m.setCells, p.2 = 0 := fun p hp => eq_zero_of_extent_one h (inRange_of_mem_setCells hp).2
  exact Finset.card_image_of_injOn fun p hp q hq hpq => Prod.ext hpq ((hzero p hp).trans (hzero q hq).symm)

/-- In a single row, each set cell has a column of its own. -/
theorem card_filledCols_of_row (h : m.rows = 1) : m.filledCols.card = m.setCells.card := by
  have hzero : ∀ p ∈ m.setCells, p.1 = 0 := fun p hp => eq_zero_of_extent_one h (inRange_of_mem_setCells hp).1
  exact Finset.card_image_of_injOn fun p hp q hq hpq => Prod.ext ((hzero p hp).trans (hzero q hq).symm) hpq

namespace IsProduct

/-- **The set cells of a product lie where a filled row crosses a filled column.** -/
theorem setCells_subset (h : IsProduct a b c) : c.setCells ⊆ a.filledRows ×ˢ b.filledCols := fun p hp => by
  obtain ⟨k, ha, hb⟩ := (h.get p.1 p.2).1 (mem_setCells.1 hp)
  exact Finset.mem_product.2 ⟨mem_filledRows.2 ⟨k, ha⟩, mem_filledCols.2 ⟨k, hb⟩⟩

/-- **With a single inner index, every crossing is set.** -/
theorem setCells_eq (h : IsProduct a b c) (ha : a.cols = 1) (hb : b.rows = 1) :
    c.setCells = a.filledRows ×ˢ b.filledCols := by
  refine h.setCells_subset.antisymm fun p hp => ?_
  obtain ⟨hrow, hcol⟩ := Finset.mem_product.1 hp
  obtain ⟨k, hk⟩ := mem_filledRows.1 hrow
  obtain ⟨l, hl⟩ := mem_filledCols.1 hcol
  -- both inner indices are the only one
  obtain rfl : k = 0 := eq_zero_of_extent_one ha (inRange_of_get hk).2
  obtain rfl : l = 0 := eq_zero_of_extent_one hb (inRange_of_get hl).1
  exact mem_setCells.2 ((h.get p.1 p.2).2 ⟨0, hk, hl⟩)

theorem card_setCells_le (h : IsProduct a b c) :
    c.setCells.card ≤ min a.rows.toNat a.setCells.card * min b.cols.toNat b.setCells.card :=
  calc c.setCells.card ≤ (a.filledRows ×ˢ b.filledCols).card := Finset.card_le_card h.setCells_subset
    _ = a.filledRows.card * b.filledCols.card := Finset.card_product _ _
    _ ≤ _ := Nat.mul_le_mul a.card_filledRows_le b.card_filledCols_le

theorem card_setCells_outer (h : IsProduct a b c) (ha : a.cols = 1) (hb : b.rows = 1) :
    c.setCells.card = a.setCells.card * b.setCells.card := by
  rw [h.setCells_eq ha hb, Finset.card_product, card_filledRows_of_column ha, card_filledCols_of_row hb]

/-- The count of a product is that of its set cells, or less. -/
theorem nnz_le_card (h : IsProduct a b c) : c.nnz.toNat ≤ c.setCells.card := by
  rw [h.nnz, UInt64.toNat_ofNat']
  exact Nat.mod_le _ _

end IsProduct

/-- **What the worst case says of a product of dense matrices.** -/
structure WithinWorst (a b : Dense) (c : BitMatrix) : Prop where
  card_le : c.setCells.card ≤ min a.rows.toNat a.nnz.toNat * min b.cols.toNat b.nnz.toNat
  nnz_le : c.nnz.toNat ≤ min a.rows.toNat a.nnz.toNat * min b.cols.toNat b.nnz.toNat
  /-- The formula of the worst case has this value. -/
  worst : Arithmetic.exact.productCount .worst a b =
    some ((min a.rows.toNat a.nnz.toNat * min b.cols.toNat b.nnz.toNat : Nat) : ℚ)

/-- **What a product with a single inner index is**: all pairs of set cells, as both cases count them. -/
structure IsOuter (a b : Dense) (c : BitMatrix) : Prop where
  card : c.setCells.card = a.nnz.toNat * b.nnz.toNat
  /-- The count, as a word. -/
  nnz : c.nnz = a.nnz * b.nnz
  /-- The count, as a number.  A word does not hold it only for results of `2 ^ 58` words and more. -/
  nnz_of_lt : a.nnz.toNat * b.nnz.toNat < 2 ^ 64 → c.nnz.toNat = a.nnz.toNat * b.nnz.toNat
  cases : ∀ case, Arithmetic.exact.productCount case a b = some (a.nnz.toNat * b.nnz.toNat : ℚ)

variable {a b : Dense} {c : BitMatrix}

theorem IsProduct.withinWorst (h : IsProduct (ofDense a) (ofDense b) c) (hfit : a.cols = b.rows) :
    WithinWorst a b c where
  card_le := by
    have hcard := h.card_setCells_le
    rwa [← nnz_ofDense, ← nnz_ofDense] at hcard
  nnz_le := by
    have hcard := h.nnz_le_card.trans h.card_setCells_le
    rwa [← nnz_ofDense, ← nnz_ofDense] at hcard
  worst := Arithmetic.productCount_worst hfit

theorem IsProduct.isOuter (h : IsProduct (ofDense a) (ofDense b) c) (hfit : a.cols = b.rows) (hone : a.cols = 1) :
    IsOuter a b c := by
  have hcard : c.setCells.card = a.nnz.toNat * b.nnz.toNat := by
    have houter := h.card_setCells_outer hone (hfit.symm.trans hone)
    rwa [← nnz_ofDense, ← nnz_ofDense] at houter
  refine ⟨hcard, ?_, fun hlt => ?_, Arithmetic.productCount_outer hfit hone⟩
  · rw [h.nnz, hcard, UInt64.ofNat_mul, UInt64.ofNat_toNat, UInt64.ofNat_toNat]
  · rw [h.nnz, hcard]
    exact UInt64.toNat_ofNat_of_lt' hlt

/-- **The worst case bounds the exact count of a product**, for all dense matrices that fit together, whatever their
extents; with a single inner index it is the exact count, and so is the average case.  The formulas are those of the
estimators, read without rounding. -/
theorem product_withinWorst (hfit : a.cols = b.rows) :
    ∃ c, productMetadata a b = .ok c.metadata ∧ (a = b → squareMetadata a = .ok c.metadata) ∧
      IsProduct (ofDense a) (ofDense b) c ∧ WithinWorst a b c ∧ (a.cols = 1 → IsOuter a b c) ∧
      (∀ m, Arithmetic.double.sparsity m = m.sparsity) ∧
      ∀ case s₁ s₂ k, Arithmetic.double.productSparsity case s₁ s₂ k = case.productSparsity s₁ s₂ k := by
  obtain ⟨c, hmetadata, hprod⟩ := productMetadata_of_eq hfit
  refine ⟨c, hmetadata, ?_, hprod, hprod.withinWorst hfit, hprod.isOuter hfit, Arithmetic.sparsity_double,
    Arithmetic.productSparsity_double⟩
  rintro rfl
  rwa [squareMetadata_eq]

/-- Two set cells in a column. -/
def upright : Dense := ⟨3, 1, #[1.0, 0.0, 1.0], rfl, by decide⟩

/-- Two set cells in a row. -/
def level : Dense := ⟨1, 4, #[0.0, 1.0, 1.0, 0.0], rfl, by decide⟩

/-- Two rows cross two columns, and both cases say so. -/
theorem product_withinWorst_upright : upright.cols = level.rows ∧
    (∃ c : BitMatrix, productMetadata upright level = .ok c.metadata ∧ c.setCells.card = 4 ∧ c.nnz = 4) ∧
    ∀ case, Arithmetic.exact.productCount case upright level = some 4 := by
  have hupright : upright.nnz = 2 := by decide +kernel
  have hlevel : level.nnz = 2 := by decide +kernel
  obtain ⟨c, hc, -, -, -, houter, -⟩ := product_withinWorst (a := upright) (b := level) rfl
  obtain ⟨hcard, hnnz, -, hcases⟩ := houter rfl
  rw [hupright, hlevel] at hcard hnnz hcases
  refine ⟨rfl, ⟨c, hc, hcard, hnnz⟩, fun case => ?_⟩
  have htwo : UInt64.toNat 2 = 2 := rfl
  rw [hcases case, htwo]
  norm_num

end BitMatrix
end MatrixPlan
