import MatrixPlan.Workspace.Application
import MatrixPlan.Proofs.Metadata.Extents
/-!
# Uncounted — extents do not depend on non-zero counts

Metadata without its non-zero count (`Metadata.uncounted`) determines the extents of every result, whichever estimator
is used: no rule for metadata reads a count, or a sparsity, to say how many rows or columns there are.
-/
namespace MatrixPlan

/-- Metadata without its non-zero count. -/
def Metadata.uncounted (m : Metadata) : Metadata := ⟨m.rows, m.cols, none⟩

theorem Metadata.uncounted_eq_iff {a b : Metadata} : a.uncounted = b.uncounted ↔ a.rows = b.rows ∧ a.cols = b.cols := by
  simp [uncounted]

theorem uncounted_elementwise {a a' b b' : Metadata} (ha : a.uncounted = a'.uncounted) (hb : b.uncounted = b'.uncounted)
    (sparsity sparsity' : Option Float) :
    (elementwise a b sparsity).uncounted = (elementwise a' b' sparsity').uncounted := by
  obtain ⟨har, hac⟩ := Metadata.uncounted_eq_iff.1 ha
  obtain ⟨hbr, hbc⟩ := Metadata.uncounted_eq_iff.1 hb
  rw [Metadata.uncounted_eq_iff, elementwise_rows, elementwise_rows, elementwise_cols, elementwise_cols, har, hac, hbr,
    hbc]
  exact ⟨rfl, rfl⟩

namespace Estimator

variable (case case' : Estimator) {a a' b b' : Metadata}

theorem uncounted_product (ha : a.uncounted = a'.uncounted) (hb : b.uncounted = b'.uncounted) :
    (case.product a b).uncounted = (case'.product a' b').uncounted := by
  rw [Metadata.uncounted_eq_iff, product_rows, product_rows, product_cols, product_cols]
  exact ⟨(Metadata.uncounted_eq_iff.1 ha).1, (Metadata.uncounted_eq_iff.1 hb).2⟩

/-- **Estimates of operands that differ in their counts alone do so themselves.** -/
theorem uncounted_metadata_pair (op : Operation) (ha : a.uncounted = a'.uncounted) (hb : b.uncounted = b'.uncounted) :
    (case.metadata op a (some b)).uncounted = (case'.metadata op a' (some b')).uncounted := by
  obtain ⟨har, hac⟩ := Metadata.uncounted_eq_iff.1 ha
  obtain ⟨hbr, hbc⟩ := Metadata.uncounted_eq_iff.1 hb
  cases op with
  | product =>
    have hconflict : innerConflict? a' b' = innerConflict? a b := by
      rw [innerConflict?, innerConflict?, hac, hbr]
    unfold metadata estimate
    dsimp only [Operation.checkOperands, Operation.isBinary, Operation.rightOperand, bind, Except.bind]
    rw [hconflict]
    cases innerConflict? a b with
    | none => exact uncounted_product case case' ha hb
    | some fault => rfl
  | times => exact uncounted_elementwise ha hb _ _
  | plus => exact uncounted_elementwise ha hb _ _
  | cbind =>
    change (a.cbind b).uncounted = (a'.cbind b').uncounted
    simp [Metadata.cbind, Metadata.uncounted, har, hac, hbr, hbc]
  | rbind =>
    change (a.rbind b).uncounted = (a'.rbind b').uncounted
    simp [Metadata.rbind, Metadata.uncounted, har, hac, hbr, hbc]
  | eqZero | neqZero | diag | transpose | reshape rows cols => rfl

theorem uncounted_metadata (op : Operation) (ha : a.uncounted = a'.uncounted) :
    (case.metadata op a none).uncounted = (case'.metadata op a' none).uncounted := by
  obtain ⟨har, hac⟩ := Metadata.uncounted_eq_iff.1 ha
  cases op with
  | product | times | plus | cbind | rbind => rfl
  | eqZero => exact ha
  | neqZero => exact ha
  | transpose => exact Metadata.uncounted_eq_iff.2 ⟨hac, har⟩
  | diag =>
    change a.diag.uncounted = a'.diag.uncounted
    unfold Metadata.diag
    rw [har, hac]
    cases a'.cols with
    | none => rfl
    | some cols =>
      dsimp only
      split <;> rfl
  | reshape rows cols =>
    have hcells : a.cells = a'.cells := by rw [Metadata.cells, Metadata.cells, har, hac]
    have hestimate : ∀ (c : Estimator) (m : Metadata), c.estimate (.reshape rows cols) m none = m.reshape rows cols :=
      fun _ _ => rfl
    unfold metadata
    rw [hestimate, hestimate, Metadata.reshape, Metadata.reshape, hcells]
    cases a'.cells with
    | none => rfl
    | some cells =>
      dsimp only
      by_cases h : cells = satMul rows cols
      · rw [if_pos h, if_pos h]
        rfl
      · rw [if_neg h, if_neg h]

theorem uncounted_reshapeTo (ha : a.uncounted = a'.uncounted) (rows cols : UInt64) :
    (case.reshapeTo a rows cols).uncounted = (case'.reshapeTo a' rows cols).uncounted := by
  have hest := uncounted_metadata case case' (.reshape rows cols) ha
  have hshape : (case.metadata (.reshape rows cols) a none).hasShape =
      (case'.metadata (.reshape rows cols) a' none).hasShape := by
    obtain ⟨hrows, hcols⟩ := Metadata.uncounted_eq_iff.1 hest
    rw [Metadata.hasShape, Metadata.hasShape, hrows, hcols]
  unfold reshapeTo
  dsimp only
  rw [hshape]
  split
  · exact hest
  · rfl

/-- The product of two matrices that are written out does not ask for their metadata. -/
theorem uncounted_productOf {p p' q q' : NodeSpec} (hp : p.metadata.uncounted = p'.metadata.uncounted)
    (hq : q.metadata.uncounted = q'.metadata.uncounted) (hdp : p.dense? = p'.dense?) (hdq : q.dense? = q'.dense?) :
    (case.productOf p q).uncounted = (case'.productOf p' q').uncounted := by
  have hest := uncounted_metadata_pair case case' .product hp hq
  unfold productOf
  rw [hdp, hdq]
  cases p'.dense? with
  | none => exact hest
  | some x =>
    cases q'.dense? with
    | none => exact hest
    | some y =>
      dsimp only
      cases productMetadata x y with
      | ok m => rfl
      | error _ => exact hest

end Estimator
end MatrixPlan
