import MatrixPlan.Graph.Rules
import MatrixPlan.Proofs.Matrix.Product
import MatrixPlan.Proofs.Number.Values
import MatrixPlan.Workspace.Application
/-!
# Plausible — known counts of non-zero cells and the number of cells

A known count is plausible when it is that of a known shape and no more than its cells, but for what rounding to doubles
makes of them.  Every rule for metadata makes a plausible count from plausible ones, as long as matrices that are bound
together fit.
-/
namespace MatrixPlan

open Float.Model (UnpackedFloat)
open Binary64

/-! ## Fractions of cells -/

/-- **What is kept between zero and one is no number or a fraction.** -/
theorem clampUnit_le_one (x : Float) :
    ofFloat (clampUnit x) = nan ∨ ∃ s m e, ofFloat (clampUnit x) = finite s m e ∧ (m * 2 ^ e : ℚ) ≤ 1 := by
  have hzero : (0.0 : Float).toModel.unpack = .zero .positive := rfl
  unfold clampUnit
  split
  · exact .inr ⟨false, 0, minExponent, rfl, by simp⟩
  rename_i hneg
  split
  · exact .inr ⟨false, 2 ^ 52, -52, rfl, by norm_num⟩
  rename_i hbig
  rw [float_lt_iff, hzero] at hneg
  have hx := ofFloat_eq_view x
  cases hu : x.toModel.unpack with
  | notANumber =>
    rw [hu] at hx
    exact .inl hx
  | infinity s =>
    cases s with
    | positive => exact absurd ((float_lt_iff 1.0 x).2 (hu ▸ rfl)) hbig
    | negative => exact absurd (hu ▸ rfl) hneg
  | zero s =>
    rw [hu] at hx
    exact .inr ⟨_, 0, _, hx, by simp⟩
  | finite s m e hm =>
    rw [hu] at hx
    cases s with
    | negative => exact absurd (hu ▸ rfl) hneg
    | positive =>
      have hvalue : HasValue x (m * 2 ^ e) := ⟨m, e, hx, rfl⟩
      rw [hasValue_one.lt_iff hvalue] at hbig
      exact .inr ⟨_, m, e, hx, not_lt.1 hbig⟩

/-- **A fraction of the cells is at most what doubles make of the cells.** -/
theorem nnzFor_le (rows cols : UInt64) (sparsity : Float) :
    nnzFor rows cols sparsity ≤ roundCount (satMul rows cols).toFloat :=
  roundCount_mul_le (clampUnit_le_one sparsity) (satMul rows cols)

theorem toNat_nnzFor_le (rows cols : UInt64) (sparsity : Float) :
    (nnzFor rows cols sparsity).toNat ≤ withRounding (satMul rows cols).toNat :=
  (UInt64.le_iff_toNat_le.1 (nnzFor_le rows cols sparsity)).trans (toNat_roundCount_toFloat_le _)

/-! ## Saturating counts -/

theorem toNat_le_maxCount (n : UInt64) : n.toNat ≤ maxCount := Nat.le_pred_of_lt n.toNat_lt

theorem satMul_comm (a b : UInt64) : satMul a b = satMul b a := by rw [satMul, satMul, Nat.mul_comm]

/-- Cells that are put side by side are cells of the result, unless no more can be counted. -/
theorem satAdd_satMul_le (r a b : UInt64) :
    (satAdd (satMul r a) (satMul r b)).toNat ≤ (satMul r (satAdd a b)).toNat := by
  rw [toNat_satAdd, toNat_satMul, toNat_satMul, toNat_satMul, toNat_satAdd]
  rcases Nat.eq_zero_or_pos r.toNat with hr | hr
  · rw [hr]
    simp
  · have hmul : r.toNat * min (a.toNat + b.toNat) maxCount =
        min (r.toNat * a.toNat + r.toNat * b.toNat) (r.toNat * maxCount) := by
      rw [← Nat.mul_min_mul_left, Nat.mul_add]
    have hmax : maxCount ≤ r.toNat * maxCount := Nat.le_mul_of_pos_left _ hr
    rw [hmul]
    omega

/-- Counts that are rounded apart are added with no more rounding. -/
theorem toNat_satAdd_le_withRounding {x y m n : UInt64} (hx : x.toNat ≤ withRounding m.toNat)
    (hy : y.toNat ≤ withRounding n.toNat) : (satAdd x y).toNat ≤ withRounding (satAdd m n).toNat := by
  have hadd := withRounding_add m.toNat n.toNat
  rw [toNat_satAdd, toNat_satAdd]
  rcases Nat.le_total (m.toNat + n.toNat) maxCount with h | h
  · rw [Nat.min_eq_left h]
    omega
  · rw [Nat.min_eq_right h]
    exact (Nat.min_le_right _ _).trans (le_withRounding _)

namespace Metadata

/-- **A plausible count**: unknown, or that of a known shape and no more than its cells make when they are rounded. -/
def Plausible (m : Metadata) : Prop :=
  m.nnz = none ∨ ∃ rows cols nnz, m = exact rows cols nnz ∧ nnz.toNat ≤ withRounding (satMul rows cols).toNat

variable {m a b : Metadata} {rows cols nnz : UInt64}

theorem plausible_exact (h : nnz.toNat ≤ withRounding (satMul rows cols).toNat) : (exact rows cols nnz).Plausible :=
  .inr ⟨_, _, _, rfl, h⟩

theorem plausible_ofSparsity (rows cols : UInt64) (sparsity : Float) : (ofSparsity rows cols sparsity).Plausible :=
  plausible_exact (toNat_nnzFor_le rows cols sparsity)

theorem Plausible.eqZero (h : m.Plausible) : m.eqZero.Plausible := by
  rcases h with h | ⟨rows, cols, nnz, rfl, -⟩
  · refine .inl ?_
    rw [Metadata.eqZero, h]
    cases m.cells <;> rfl
  · refine plausible_exact ?_
    rw [toNat_satSub]
    exact (Nat.sub_le _ _).trans (le_withRounding _)

theorem Plausible.transpose (h : m.Plausible) : m.transpose.Plausible := by
  rcases h with h | ⟨rows, cols, nnz, rfl, hle⟩
  · exact .inl h
  · exact plausible_exact (satMul_comm rows cols ▸ hle)

theorem toNat_satMul_one (n : UInt64) : (satMul n 1).toNat = n.toNat := by
  rw [toNat_satMul, UInt64.toNat_one, Nat.mul_one, Nat.min_eq_left (toNat_le_maxCount n)]

/-- A column has no more cells than its diagonal matrix, and a diagonal as many as there are rows. -/
theorem Plausible.diag (h : m.Plausible) : m.diag.Plausible := by
  rcases h with h | ⟨rows, cols, nnz, rfl, hle⟩
  · refine .inl ?_
    unfold Metadata.diag
    cases m.cols with
    | none => rfl
    | some cols =>
      dsimp only
      split
      · exact h
      · rw [h]
        cases m.rows <;> rfl
  · change Plausible (if cols = 1 then exact rows rows nnz else exact rows 1 (min rows nnz))
    split
    · rename_i hcols
      subst hcols
      refine plausible_exact (hle.trans (withRounding_mono ?_))
      rw [toNat_satMul_one, toNat_satMul]
      exact Nat.le_min.2 ⟨Nat.le_mul_self _, toNat_le_maxCount rows⟩
    · refine plausible_exact ?_
      rw [toNat_satMul_one]
      have hmin : min rows nnz ≤ rows := by
        change (if rows ≤ nnz then rows else nnz) ≤ rows
        split
        · exact UInt64.le_refl rows
        · exact (UInt64.le_total rows nnz).resolve_left ‹_›
      exact (UInt64.le_iff_toNat_le.1 hmin).trans (le_withRounding _)

theorem addKnown_none_right (x : Option UInt64) : addKnown x none = none := by cases x <;> rfl

theorem Plausible.cbind (ha : a.Plausible) (hb : b.Plausible) (hfault : cbindFault? a b = none) : (a.cbind b).Plausible := by
  rcases ha with ha | ⟨rows, cols, nnz, rfl, ha⟩
  · refine .inl ?_
    rw [Metadata.cbind, ha]
    rfl
  rcases hb with hb | ⟨rows', cols', nnz', rfl, hb⟩
  · refine .inl ?_
    rw [Metadata.cbind, hb]
    exact addKnown_none_right _
  have hrule : cbindFault? (exact rows cols nnz) (exact rows' cols' nnz') =
      if rows = rows' then none else some (.rowCounts rows rows') := rfl
  obtain rfl : rows = rows' := by
    by_contra hne
    rw [hrule, if_neg hne] at hfault
    cases hfault
  exact plausible_exact ((toNat_satAdd_le_withRounding ha hb).trans (withRounding_mono (satAdd_satMul_le rows cols cols')))

theorem Plausible.rbind (ha : a.Plausible) (hb : b.Plausible) (hfault : rbindFault? a b = none) : (a.rbind b).Plausible := by
  rcases ha with ha | ⟨rows, cols, nnz, rfl, ha⟩
  · refine .inl ?_
    rw [Metadata.rbind, ha]
    rfl
  rcases hb with hb | ⟨rows', cols', nnz', rfl, hb⟩
  · refine .inl ?_
    rw [Metadata.rbind, hb]
    exact addKnown_none_right _
  have hrule : rbindFault? (exact rows cols nnz) (exact rows' cols' nnz') =
      if cols = cols' then none else some (.columnCounts cols cols') := rfl
  obtain rfl : cols = cols' := by
    by_contra hne
    rw [hrule, if_neg hne] at hfault
    cases hfault
  rw [satMul_comm] at ha hb
  refine plausible_exact ((toNat_satAdd_le_withRounding ha hb).trans (withRounding_mono ?_))
  rw [satMul_comm _ cols]
  exact satAdd_satMul_le cols rows rows'

/-- Reshaping only sets the shape, and refuses a known number of cells that would change. -/
theorem reshape_ok {m' : Metadata} (h : m.reshape rows cols = .ok m') :
    m' = ⟨some rows, some cols, m.nnz⟩ ∧ ∀ cells, m.cells = some cells → cells = satMul rows cols := by
  unfold Metadata.reshape at h
  cases hcells : m.cells with
  | none =>
    rw [hcells] at h
    cases h
    exact ⟨rfl, fun _ hnone => nomatch hnone⟩
  | some cells =>
    rw [hcells] at h
    dsimp only at h
    by_cases heq : cells = satMul rows cols
    · rw [if_pos heq] at h
      cases h
      exact ⟨rfl, fun _ hsome => Option.some.inj hsome ▸ heq⟩
    · rw [if_neg heq] at h
      cases h

theorem Plausible.reshape {m' : Metadata} (h : m.Plausible) (hreshape : m.reshape rows cols = .ok m') : m'.Plausible := by
  obtain ⟨rfl, hcells⟩ := reshape_ok hreshape
  rcases h with h | ⟨rows', cols', nnz, rfl, hle⟩
  · exact .inl h
  · exact plausible_exact (hcells _ rfl ▸ hle)

end Metadata

/-! ## Estimates -/

open Metadata

theorem plausible_elementwise (a b : Metadata) (sparsity : Option Float) : (elementwise a b sparsity).Plausible := by
  unfold elementwise
  split
  · exact plausible_ofSparsity _ _ _
  · exact .inl rfl

namespace Estimator

variable (case : Estimator) (a b : Metadata)

theorem plausible_product : (case.product a b).Plausible := by
  unfold product
  split
  · split
    · exact plausible_ofSparsity _ _ _
    · exact .inl rfl
  · exact .inl rfl

theorem plausible_metadata_product : (case.metadata .product a (some b)).Plausible := by
  unfold metadata estimate
  dsimp only [Operation.checkOperands, Operation.isBinary, Operation.rightOperand, bind, Except.bind]
  cases innerConflict? a b with
  | some fault => exact .inl rfl
  | none => exact case.plausible_product a b

/-- **A reshaped matrix keeps its count** when it keeps its cells, and its count is unknown otherwise. -/
theorem plausible_reshapeTo {m : Metadata} (h : m.Plausible) (rows cols : UInt64) :
    (case.reshapeTo m rows cols).Plausible := by
  have hmetadata : (case.metadata (.reshape rows cols) m none).Plausible := by
    have hestimate : case.estimate (.reshape rows cols) m none = m.reshape rows cols := rfl
    rw [metadata, hestimate]
    cases hreshape : m.reshape rows cols with
    | error fault => exact .inl rfl
    | ok m' => exact h.reshape hreshape
  unfold reshapeTo
  dsimp only
  split
  · exact hmetadata
  · exact .inl rfl

end Estimator

/-! ## Matrices that are written out -/

theorem Dense.plausible_metadata (m : Dense) : m.metadata.Plausible := by
  refine plausible_exact ((Nat.mod_le _ _).trans (Nat.le_trans ?_ (le_withRounding _)))
  rw [← m.size_eq, ← Array.length_toList]
  exact List.countP_le_length

/-- **A product has no more set cells than cells.** -/
theorem BitMatrix.IsProduct.nnz_le {a b c : BitMatrix} (h : IsProduct a b c) :
    c.nnz.toNat ≤ (satMul c.rows c.cols).toNat := by
  have hle : c.nnz.toNat ≤ c.setCells.card := by
    rw [h.nnz]
    exact Nat.mod_le _ _
  rw [toNat_satMul]
  exact Nat.le_min.2 ⟨hle.trans c.card_setCells_le, toNat_le_maxCount _⟩

theorem plausible_productMetadata {a b : Dense} {m : Metadata} (h : productMetadata a b = .ok m) : m.Plausible := by
  unfold productMetadata at h
  by_cases heq : (BitMatrix.ofDense a).cols = (BitMatrix.ofDense b).rows
  · obtain ⟨c, hc, hproduct⟩ := BitMatrix.product_of_eq (BitMatrix.isPattern_ofDense a).toWellFormed
      (BitMatrix.isPattern_ofDense b).toWellFormed heq
    rw [hc] at h
    cases h
    exact plausible_exact (hproduct.nnz_le.trans (le_withRounding _))
  · rw [BitMatrix.product_of_ne heq] at h
    cases h

theorem Estimator.plausible_productOf (case : Estimator) (a b : NodeSpec) : (case.productOf a b).Plausible := by
  unfold productOf
  split
  · split
    · exact plausible_productMetadata ‹_›
    · exact case.plausible_metadata_product _ _
  · exact case.plausible_metadata_product _ _

end MatrixPlan
