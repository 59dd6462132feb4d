import MatrixPlan.Matrix.Bits
import MatrixPlan.Metadata.Estimate
/-!
# Extents — actual shapes and the metadata that describes them

Metadata describes a shape when each extent it knows is the actual one (`Metadata.Describes`).  Every rule for metadata
is sound in this sense: from metadata that describes the operands it makes metadata that describes the result, as long
as counts fit in a word.
-/
namespace MatrixPlan

structure Extents where
  rows : Nat
  cols : Nat
  deriving DecidableEq, Repr

namespace Extents

def cells (e : Extents) : Nat := e.rows * e.cols

/-- **No extent is zero, and the cells can be counted in a word.** -/
structure Fits (e : Extents) : Prop where
  rows_pos : 1 ≤ e.rows
  cols_pos : 1 ≤ e.cols
  cells_lt : e.cells < 2 ^ 64

/-- **Two shapes combine cell by cell**: equal ones, any with a matching vector or a single value on its right, or a
column with a row. -/
def Combines (x y : Extents) : Prop :=
  x = y ∨ (y.rows = x.rows ∧ y.cols = 1) ∨ (y.cols = x.cols ∧ y.rows = 1) ∨ (y.rows = 1 ∧ y.cols = 1) ∨
    (x.cols = 1 ∧ y.rows = 1)

instance (x y : Extents) : Decidable (x.Combines y) := by
  unfold Combines
  infer_instance

/-- The rows of shapes that combine are as many, or there is one row on a side. -/
theorem Combines.rows {x y : Extents} (h : x.Combines y) : x.rows = y.rows ∨ x.rows = 1 ∨ y.rows = 1 := by
  rcases h with rfl | h | h | h | h
  · exact .inl rfl
  · exact .inl h.1.symm
  · exact .inr (.inr h.2)
  · exact .inr (.inr h.1)
  · exact .inr (.inr h.2)

theorem Combines.cols {x y : Extents} (h : x.Combines y) : x.cols = y.cols ∨ x.cols = 1 ∨ y.cols = 1 := by
  rcases h with rfl | h | h | h | h
  · exact .inl rfl
  · exact .inr (.inr h.2)
  · exact .inl h.1.symm
  · exact .inr (.inr h.2)
  · exact .inr (.inl h.1)

/-- The shape of a cell-by-cell result: an extent of one on the right takes the left one. -/
def combined (x y : Extents) : Extents :=
  ⟨if y.rows = 1 then x.rows else y.rows, if y.cols = 1 then x.cols else y.cols⟩

theorem Fits.rows_lt {e : Extents} (h : e.Fits) : e.rows < 2 ^ 64 :=
  Nat.lt_of_le_of_lt (Nat.le_mul_of_pos_right e.rows h.cols_pos) h.cells_lt

theorem Fits.cols_lt {e : Extents} (h : e.Fits) : e.cols < 2 ^ 64 :=
  Nat.lt_of_le_of_lt (Nat.le_mul_of_pos_left e.cols h.rows_pos) h.cells_lt

end Extents

/-- A known count is the actual one. -/
def Knows (known : Option UInt64) (actual : Nat) : Prop := ∀ k, known = some k → k.toNat = actual

/-- **Metadata describes a shape** when the extents it knows are those of the shape. -/
structure Metadata.Describes (m : Metadata) (e : Extents) : Prop where
  rows : Knows m.rows e.rows
  cols : Knows m.cols e.cols

theorem knows_none (n : Nat) : Knows none n := by
  intro k hk
  cases hk

theorem knows_some {k : UInt64} {n : Nat} (h : k.toNat = n) : Knows (some k) n := by
  intro k' hk'
  cases hk'
  exact h

theorem Knows.eq {a b : UInt64} {x : Nat} (ha : Knows (some a) x) (hb : Knows (some b) x) : a = b :=
  UInt64.toNat_inj.1 ((ha a rfl).trans (hb b rfl).symm)

theorem Knows.orElse {a b : Option UInt64} {x : Nat} (ha : Knows a x) (hb : Knows b x) : Knows (a <|> b) x := by
  cases a with
  | none => exact hb
  | some k => exact ha

theorem Knows.addKnown {a b : Option UInt64} {x y : Nat} (ha : Knows a x) (hb : Knows b y) (hlt : x + y < 2 ^ 64) :
    Knows (addKnown a b) (x + y) := by
  intro k hk
  cases a with
  | none => cases hk
  | some i =>
    cases b with
    | none => cases hk
    | some j =>
      cases hk
      rw [← ha i rfl, ← hb j rfl] at hlt ⊢
      exact toNat_satAdd_of_lt hlt

/-- **Broadcasting is sound**: extents that combine are equal, or one of them is one. -/
theorem Knows.broadcastExtent {a b : Option UInt64} {x y : Nat} (ha : Knows a x) (hb : Knows b y) (hx : 1 ≤ x)
    (hy : 1 ≤ y) (hxy : x = y ∨ x = 1 ∨ y = 1) : Knows (broadcastExtent a b) (if y = 1 then x else y) := by
  intro k hk
  cases a with
  | none => cases hk
  | some i =>
    have hi := ha i rfl
    cases b with
    | some j =>
      have hj := hb j rfl
      have hmax : (if i ≤ j then j else i) = k := Option.some.inj hk
      rw [← hmax]
      simp only [UInt64.le_iff_toNat_le]
      split <;> split <;> omega
    | none =>
      by_cases h1 : i = 1
      · simp [MatrixPlan.broadcastExtent, h1] at hk
      · have hk : i = k := by simpa [MatrixPlan.broadcastExtent, h1] using hk
        have hne : i.toNat ≠ 1 := fun h => h1 (UInt64.toNat_inj.1 h)
        subst hk
        split <;> omega

namespace Metadata

variable {m a b : Metadata} {e x y : Extents}

theorem describes_unknown (e : Extents) : unknown.Describes e := ⟨knows_none _, knows_none _⟩

theorem describes_ofShape {rows cols : UInt64} : (ofShape rows cols).Describes ⟨rows.toNat, cols.toNat⟩ :=
  ⟨knows_some rfl, knows_some rfl⟩

theorem Describes.cells (h : m.Describes e) (hfits : e.Fits) : Knows m.cells e.cells := by
  intro k hk
  unfold Metadata.cells at hk
  cases hr : m.rows with
  | none => rw [hr] at hk; cases hk
  | some i =>
    cases hc : m.cols with
    | none => rw [hr, hc] at hk; cases hk
    | some j =>
      rw [hr, hc] at hk
      cases hk
      have hlt := hfits.cells_lt
      rw [Extents.cells, ← h.rows i hr, ← h.cols j hc] at hlt ⊢
      exact toNat_satMul_of_lt hlt

theorem Describes.transpose (h : m.Describes e) : m.transpose.Describes ⟨e.cols, e.rows⟩ := ⟨h.cols, h.rows⟩

theorem Describes.eqZero (h : m.Describes e) : m.eqZero.Describes e := ⟨h.rows, h.cols⟩

/-- A column becomes a diagonal matrix, any other matrix its diagonal. -/
theorem Describes.diag (h : m.Describes e) : m.diag.Describes (if e.cols = 1 then ⟨e.rows, e.rows⟩ else ⟨e.rows, 1⟩) := by
  unfold Metadata.diag
  cases hc : m.cols with
  | none => exact describes_unknown _
  | some k =>
    have hk := h.cols k hc
    dsimp only
    by_cases h1 : k = 1
    · subst h1
      rw [if_pos rfl, if_pos (show e.cols = 1 from hk.symm)]
      exact ⟨h.rows, h.rows⟩
    · have hne : k.toNat ≠ 1 := fun heq => h1 (UInt64.toNat_inj.1 heq)
      rw [if_neg h1, if_neg (by omega)]
      exact ⟨h.rows, knows_some rfl⟩

theorem Describes.cbind (ha : a.Describes x) (hb : b.Describes y) (heq : x.rows = y.rows)
    (hlt : x.cols + y.cols < 2 ^ 64) : (a.cbind b).Describes ⟨x.rows, x.cols + y.cols⟩ :=
  ⟨ha.rows.orElse (heq ▸ hb.rows), ha.cols.addKnown hb.cols hlt⟩

theorem Describes.rbind (ha : a.Describes x) (hb : b.Describes y) (heq : x.cols = y.cols)
    (hlt : x.rows + y.rows < 2 ^ 64) : (a.rbind b).Describes ⟨x.rows + y.rows, x.cols⟩ :=
  ⟨ha.rows.addKnown hb.rows hlt, ha.cols.orElse (heq ▸ hb.cols)⟩

end Metadata

theorem elementwise_rows (a b : Metadata) (sparsity : Option Float) :
    (elementwise a b sparsity).rows = broadcastExtent a.rows b.rows := by
  unfold elementwise
  split <;> simp_all [Metadata.ofSparsity, Metadata.exact]

theorem elementwise_cols (a b : Metadata) (sparsity : Option Float) :
    (elementwise a b sparsity).cols = broadcastExtent a.cols b.cols := by
  unfold elementwise
  split <;> simp_all [Metadata.ofSparsity, Metadata.exact]

namespace Estimator

variable (case : Estimator) (a b : Metadata)

theorem product_rows : (case.product a b).rows = a.rows := by
  unfold product
  split
  · split <;> simp_all [Metadata.ofSparsity, Metadata.exact, Metadata.ofShape]
  · rfl

theorem product_cols : (case.product a b).cols = b.cols := by
  unfold product
  split
  · split <;> simp_all [Metadata.ofSparsity, Metadata.exact, Metadata.ofShape]
  · rfl

end Estimator

namespace Metadata.Describes

variable {m a b : Metadata} {e x y : Extents}

theorem elementwise (ha : a.Describes x) (hb : b.Describes y) (hx : x.Fits) (hy : y.Fits) (hxy : x.Combines y)
    (sparsity : Option Float) : (elementwise a b sparsity).Describes (x.combined y) := by
  constructor
  · rw [elementwise_rows]
    exact ha.rows.broadcastExtent hb.rows hx.rows_pos hy.rows_pos hxy.rows
  · rw [elementwise_cols]
    exact ha.cols.broadcastExtent hb.cols hx.cols_pos hy.cols_pos hxy.cols

theorem product (ha : a.Describes x) (hb : b.Describes y) (case : Estimator) :
    (case.product a b).Describes ⟨x.rows, y.cols⟩ :=
  ⟨by rw [Estimator.product_rows]; exact ha.rows, by rw [Estimator.product_cols]; exact hb.cols⟩

theorem innerConflict? (ha : a.Describes x) (hb : b.Describes y) (heq : x.cols = y.rows) :
    MatrixPlan.innerConflict? a b = none := by
  unfold MatrixPlan.innerConflict?
  split
  · rename_i k₁ k₂ h₁ h₂
    rw [if_pos (Knows.eq (h₁ ▸ ha.cols) (heq ▸ h₂ ▸ hb.rows))]
  · rfl

end Metadata.Describes
end MatrixPlan
