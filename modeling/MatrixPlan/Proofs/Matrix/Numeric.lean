import MatrixPlan.Proofs.Matrix.Grid
import MatrixPlan.Proofs.Matrix.Product
import MatrixPlan.Proofs.Number.Operations
import MatrixPlan.Workspace.Application
/-!
# Numeric — products over the rational numbers

A finite double is a rational number, so matrices of finite doubles have a product over the rational numbers.  A cell of
it that is non-zero has a non-zero term, so the boolean product has that cell; terms that are not negative do not cancel,
so then it has no other one.
-/
namespace MatrixPlan

/-- The rational number that a finite double is, and zero for the others. -/
def Binary64.toRat : Binary64 → ℚ
  | finite negative m e => if negative then -(m * 2 ^ e) else m * 2 ^ e
  | _ => 0

theorem Binary64.toRat_zero : (ofFloat 0.0).toRat = 0 := by
  have hzero : ofFloat 0.0 = finite false 0 minExponent := rfl
  simp [hzero, toRat]

theorem Binary64.toRat_nonneg {x : Float} {m : Nat} {e : Int} (h : ofFloat x = finite false m e) :
    0 ≤ (ofFloat x).toRat := by
  rw [h]
  exact mul_nonneg (Nat.cast_nonneg m) (zpow_nonneg two_pos.le e)

/-- **A finite double is a number other than zero** when it is none of the two zeros. -/
theorem Binary64.toRat_ne_zero_iff {x : Float} (hx : x.isFinite = true) :
    (ofFloat x).toRat ≠ 0 ↔ Dense.isNonzero x = true := by
  obtain ⟨negative, m, e, hfinite⟩ := (isFinite_iff x).1 hx
  have hpower : (2 : ℚ) ^ e ≠ 0 := zpow_ne_zero e two_ne_zero
  have hvalue : (ofFloat x).toRat ≠ 0 ↔ m ≠ 0 := by
    rw [hfinite, toRat]
    cases negative <;> simp [hpower]
  have hview : view x.toModel.unpack = finite negative m e := (ofFloat_eq_view x).symm.trans hfinite
  rw [hvalue, ← Bool.not_eq_false, Dense.isNonzero_eq_false_iff]
  obtain ⟨s, -, ⟨hzero, hm⟩ | ⟨hm, hnonzero⟩⟩ := eq_of_view_finite hview
  · exact iff_of_false (fun h => h hm) (fun h => h ⟨s, hzero⟩)
  · refine iff_of_true (Nat.ne_of_gt hm) ?_
    rintro ⟨s', hs'⟩
    cases hnonzero.symm.trans hs'

namespace Dense

def Finite (d : Dense) : Prop := ∀ v ∈ d.values, v.isFinite = true

def Nonnegative (d : Dense) : Prop := ∀ v ∈ d.values, 0 ≤ (Binary64.ofFloat v).toRat

/-- The number in a cell. -/
def entry (d : Dense) (i j : Nat) : ℚ := (Binary64.ofFloat (d.grid.cell i j)).toRat

/-- **The number in a cell of the product.** -/
def productEntry (a b : Dense) (i j : Nat) : ℚ := ∑ k ∈ Finset.range a.cols.toNat, a.entry i k * b.entry k j

/-- The cells of the product that are not zero. -/
def productSupport (a b : Dense) : Finset (Nat × Nat) :=
  (Finset.range a.rows.toNat ×ˢ Finset.range b.cols.toNat).filter fun p => productEntry a b p.1 p.2 ≠ 0

/-- What holds of the listed cells, and of zero, holds of all cells. -/
theorem cell_of_values {d : Dense} {P : Float → Prop} (hzero : P 0.0) (h : ∀ v ∈ d.values, P v) (i j : Nat) :
    P (d.grid.cell i j) := by
  change P ((d.get? i j).getD 0.0)
  unfold get?
  split
  · cases hv : d.values[i * d.cols.toNat + j]? with
    | none => exact hzero
    | some v => exact h v (Array.mem_of_getElem? hv)
  · exact hzero

variable {a b d : Dense} {i j : Nat}

theorem entry_ne_zero_iff (hd : d.Finite) : d.entry i j ≠ 0 ↔ (BitMatrix.ofDense d).get i j = true := by
  rw [entry, get_ofDense_grid]
  exact Binary64.toRat_ne_zero_iff (cell_of_values (P := fun v => v.isFinite = true) rfl hd i j)

theorem entry_nonneg (hd : d.Nonnegative) : 0 ≤ d.entry i j :=
  cell_of_values (P := fun v => 0 ≤ (Binary64.ofFloat v).toRat) Binary64.toRat_zero.ge hd i j

/-- **A sum that is not zero has a term that is not**: some inner index has both its factors set. -/
theorem exists_of_productEntry_ne_zero (ha : a.Finite) (hb : b.Finite) (h : productEntry a b i j ≠ 0) :
    ∃ k, (BitMatrix.ofDense a).get i k = true ∧ (BitMatrix.ofDense b).get k j = true := by
  obtain ⟨k, -, hk⟩ := Finset.exists_ne_zero_of_sum_ne_zero h
  obtain ⟨hleft, hright⟩ := mul_ne_zero_iff.1 hk
  exact ⟨k, (entry_ne_zero_iff ha).1 hleft, (entry_ne_zero_iff hb).1 hright⟩

/-- **Terms that are not negative do not cancel.** -/
theorem productEntry_pos (ha : a.Finite) (hb : b.Finite) (ha' : a.Nonnegative) (hb' : b.Nonnegative) {k : Nat}
    (hleft : (BitMatrix.ofDense a).get i k = true) (hright : (BitMatrix.ofDense b).get k j = true) :
    0 < productEntry a b i j := by
  have hk : k < a.cols.toNat := (BitMatrix.inRange_of_get hleft).2
  have hterm : 0 < a.entry i k * b.entry k j :=
    mul_pos (lt_of_le_of_ne (entry_nonneg ha') ((entry_ne_zero_iff ha).2 hleft).symm)
      (lt_of_le_of_ne (entry_nonneg hb') ((entry_ne_zero_iff hb).2 hright).symm)
  exact Finset.sum_pos' (fun k _ => mul_nonneg (entry_nonneg ha') (entry_nonneg hb')) ⟨k, Finset.mem_range.2 hk, hterm⟩

theorem mem_productSupport (ha : a.Finite) (hb : b.Finite) :
    (i, j) ∈ productSupport a b ↔ productEntry a b i j ≠ 0 := by
  rw [productSupport, Finset.mem_filter, Finset.mem_product, Finset.mem_range, Finset.mem_range]
  refine ⟨fun h => h.2, fun h => ⟨?_, h⟩⟩
  obtain ⟨k, hleft, hright⟩ := exists_of_productEntry_ne_zero ha hb h
  exact ⟨(BitMatrix.inRange_of_get hleft).1, (BitMatrix.inRange_of_get hright).2⟩

end Dense

namespace BitMatrix

open MatrixPlan.Dense (productEntry productSupport)

/-- **A matrix of bits bounds the product over the rational numbers**: it has all cells of it that are not zero, and
counts at least as many, if a word holds its count; it has these alone if the factors are not negative.  A word holds the
count of all results of less than `2 ^ 58` words (`card_setCells_lt`). -/
structure BoundsProduct (a b : Dense) (c : BitMatrix) : Prop where
  rows : c.rows = a.rows
  cols : c.cols = b.cols
  get_of_ne_zero : ∀ i j, productEntry a b i j ≠ 0 → c.get i j = true
  get_iff : a.Nonnegative → b.Nonnegative → ∀ i j, c.get i j = true ↔ productEntry a b i j ≠ 0
  card_le : c.setCells.card < 2 ^ 64 → (productSupport a b).card ≤ c.nnz.toNat
  card_eq : c.setCells.card < 2 ^ 64 → a.Nonnegative → b.Nonnegative → c.nnz.toNat = (productSupport a b).card

variable {a b : Dense} {c : BitMatrix}

theorem IsProduct.boundsProduct (h : IsProduct (ofDense a) (ofDense b) c) (ha : a.Finite) (hb : b.Finite) :
    BoundsProduct a b c := by
  have hset : ∀ i j, productEntry a b i j ≠ 0 → c.get i j = true := fun i j hne =>
    (h.get i j).2 (Dense.exists_of_productEntry_ne_zero ha hb hne)
  have hexact : a.Nonnegative → b.Nonnegative → ∀ i j, c.get i j = true ↔ productEntry a b i j ≠ 0 := by
    refine fun ha' hb' i j => ⟨fun hget => ?_, hset i j⟩
    obtain ⟨k, hleft, hright⟩ := (h.get i j).1 hget
    exact (Dense.productEntry_pos ha hb ha' hb' hleft hright).ne'
  have hnnz : c.setCells.card < 2 ^ 64 → c.nnz.toNat = c.setCells.card := fun hcount => by
    rw [h.nnz]
    exact UInt64.toNat_ofNat_of_lt' hcount
  refine ⟨h.rows, h.cols, hset, hexact, fun hcount => ?_, fun hcount ha' hb' => ?_⟩
  · rw [hnnz hcount]
    exact Finset.card_le_card fun p hp => mem_setCells.2 (hset p.1 p.2 ((Dense.mem_productSupport ha hb).1 hp))
  · rw [hnnz hcount]
    refine congrArg _ (Finset.ext fun p => ?_)
    rw [mem_setCells, hexact ha' hb' p.1 p.2]
    exact (Dense.mem_productSupport ha hb).symm

/-- **The boolean product of matrices of finite numbers bounds their product over the rational numbers.**  Its metadata
is what an estimate answers, from two matrices or from one on both sides, and what a product of nodes gets that are
written out, of two nodes or of one with itself. -/
theorem product_boundsProduct (ha : a.Finite) (hb : b.Finite) (hfit : a.cols = b.rows) :
    ∃ c, (ofDense a).product (ofDense b) = .ok c ∧ BoundsProduct a b c ∧ productMetadata a b = .ok c.metadata ∧
      (a = b → squareMetadata a = .ok c.metadata) ∧
      ∀ (g : Graph) (case : Estimator) (l r : Nat) (x y : Node), g.node? l = some x → g.node? r = some y →
        x.dense? = some a → y.dense? = some b → ((Application.matmul l r).spec g case).metadata = c.metadata := by
  obtain ⟨c, hc, hprod⟩ :=
    product_of_eq (isPattern_ofDense a).toWellFormed (isPattern_ofDense b).toWellFormed hfit
  have hmetadata : productMetadata a b = .ok c.metadata := by rw [productMetadata, hc, Except.map]
  refine ⟨c, hc, hprod.boundsProduct ha hb, hmetadata, ?_, ?_⟩
  · rintro rfl
    rwa [squareMetadata_eq]
  · intro g case l r x y hl hr hx hy
    rw [Application.spec_matmul, hl, hr]
    simp only [Application.operatorSpec, Estimator.productOf, hx, hy, hmetadata]

/-- Ones on the diagonal and above it. -/
def triangle : Dense where
  rows := 2
  cols := 2
  values := #[1.0, 1.0, 0.0, 1.0]
  size_eq := rfl
  size_lt := by decide

theorem mem_triangle {v : Float} (hv : v ∈ triangle.values) : v = 1.0 ∨ v = 0.0 := by
  have hcases : v = 1.0 ∨ v = 0.0 ∨ v = 1.0 := by simpa [triangle] using hv
  exact hcases.elim .inl fun h => h.symm

/-- The product of a triangle with itself is a triangle. -/
theorem product_boundsProduct_triangle :
    triangle.Finite ∧ triangle.Nonnegative ∧ (productSupport triangle triangle).card = 3 := by
  have hfinite : triangle.Finite := fun v hv => by
    rcases mem_triangle hv with rfl | rfl <;> rfl
  have hnonneg : triangle.Nonnegative := fun v hv => by
    rcases mem_triangle hv with rfl | rfl
    · exact Binary64.toRat_nonneg (m := 2 ^ 52) (e := -52) rfl
    · exact Binary64.toRat_zero.ge
  obtain ⟨c, -, hbounds, -, hsquare, -⟩ := product_boundsProduct hfinite hfinite rfl
  have hcount : c.setCells.card < 2 ^ 64 := card_setCells_lt (by rw [hbounds.rows, hbounds.cols]; decide)
  have hthree : squareMetadata triangle = .ok (.exact 2 2 3) := by decide +kernel
  cases c
  cases hthree.symm.trans (hsquare rfl)
  exact ⟨hfinite, hnonneg, (hbounds.card_eq hcount hnonneg hnonneg).symm⟩

end BitMatrix
end MatrixPlan
