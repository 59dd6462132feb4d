import MatrixPlan.Proofs.Graph.Verdict
import MatrixPlan.Proofs.Metadata.Extents
import MatrixPlan.Proofs.Workspace.Moves
/-!
# Shapes — the metadata of a graph describes the shapes it computes

Sources have actual shapes, and each operation has a rule for the shape of its result (`Application.resultOf?`).  When
the rules hold for all a root uses, no metadata below it claims a wrong extent and validation rejects nothing.
-/
namespace MatrixPlan
namespace Application

/-- The operands, in order. -/
def operands : Application α → List α
  | matmul a b | mul a b | add a b | cbind a b | rbind a b => [a, b]
  | transpose a | diag a | eqZero a | neqZero a | reshape a _ _ | sum a => [a]
  | auc y p => [y, p]

/-- **The shape of a result**, when the shapes of the operands keep the rule of the operation. -/
def resultOf? (shape : α → Option Extents) : Application α → Option Extents
  | matmul a b => do
    let x ← shape a
    let y ← shape b
    if x.cols = y.rows then some ⟨x.rows, y.cols⟩ else none
  | mul a b | add a b => do
    let x ← shape a
    let y ← shape b
    if x.Combines y then some (x.combined y) else none
  | cbind a b => do
    let x ← shape a
    let y ← shape b
    if x.rows = y.rows then some ⟨x.rows, x.cols + y.cols⟩ else none
  | rbind a b => do
    let x ← shape a
    let y ← shape b
    if x.cols = y.cols then some ⟨x.rows + y.rows, x.cols⟩ else none
  | transpose a => do
    let x ← shape a
    some ⟨x.cols, x.rows⟩
  | diag a => do
    let x ← shape a
    some (if x.cols = 1 then ⟨x.rows, x.rows⟩ else ⟨x.rows, 1⟩)
  | eqZero a | neqZero a => shape a
  | reshape a rows cols => do
    let x ← shape a
    if x.cells = rows.toNat * cols.toNat then some ⟨rows.toNat, cols.toNat⟩ else none
  | sum a => do
    let _ ← shape a
    some ⟨1, 1⟩
  | auc y p => do
    let a ← shape y
    let b ← shape p
    if a.cols = 1 ∧ b.cols = 1 ∧ a.rows = b.rows then some ⟨1, 1⟩ else none

variable {g g' : Graph} {case : Estimator} {a : Application Nat}

theorem inputNodes_spec (g : Graph) (case : Estimator) (a : Application Nat) :
    (a.spec g case).inputNodes = a.operands := by
  cases a <;> rfl

theorem spec_congr (h : ∀ i ∈ a.operands, g'.node? i = g.node? i) : a.spec g' case = a.spec g case := by
  cases a <;> simp_all [operands, spec]

theorem resultOf?_congr {shape shape' : Nat → Option Extents} (h : ∀ i ∈ a.operands, shape i = shape' i) :
    a.resultOf? shape = a.resultOf? shape' := by
  cases a <;> simp_all [operands, resultOf?]

end Application

theorem productMetadata_ok {a b : Dense} {m : Metadata} (h : productMetadata a b = .ok m) :
    m.rows = some a.rows ∧ m.cols = some b.cols := by
  unfold productMetadata BitMatrix.product at h
  split at h
  · cases h
  · split at h <;> (cases h; exact ⟨rfl, rfl⟩)

namespace Metadata.Describes

variable {a b : Metadata} {x y : Extents}

theorem elementwiseFault? (ha : a.Describes x) (hb : b.Describes y) (hxy : x.Combines y) :
    MatrixPlan.elementwiseFault? a b = none := by
  unfold MatrixPlan.elementwiseFault?
  split
  · rename_i ar ac br bc har hac hbr hbc
    have hone : (1 : UInt64).toNat = 1 := rfl
    have hcomb : combines ar ac br bc = true := by
      simp only [combines, Bool.or_eq_true, Bool.and_eq_true, beq_iff_eq, ← UInt64.toNat_inj, hone, ha.rows ar har,
        ha.cols ac hac, hb.rows br hbr, hb.cols bc hbc]
      rcases hxy with rfl | h | h | h | h
      all_goals simp [*]
    rw [if_pos hcomb]
  · rfl

theorem cbindFault? (ha : a.Describes x) (hb : b.Describes y) (heq : x.rows = y.rows) :
    MatrixPlan.cbindFault? a b = none := by
  unfold MatrixPlan.cbindFault?
  split
  · rename_i k₁ k₂ h₁ h₂
    rw [if_pos (Knows.eq (h₁ ▸ ha.rows) (heq ▸ h₂ ▸ hb.rows))]
  · rfl

theorem rbindFault? (ha : a.Describes x) (hb : b.Describes y) (heq : x.cols = y.cols) :
    MatrixPlan.rbindFault? a b = none := by
  unfold MatrixPlan.rbindFault?
  split
  · rename_i k₁ k₂ h₁ h₂
    rw [if_pos (Knows.eq (h₁ ▸ ha.cols) (heq ▸ h₂ ▸ hb.cols))]
  · rfl

theorem reshapeFault? (ha : a.Describes x) (hb : b.Describes y) (hx : x.Fits) (hy : y.Fits) (heq : x.cells = y.cells) :
    MatrixPlan.reshapeFault? a b = none := by
  unfold MatrixPlan.reshapeFault?
  split
  · rename_i k₁ k₂ h₁ h₂
    rw [if_pos (Knows.eq (h₁ ▸ ha.cells hx) (heq ▸ h₂ ▸ hb.cells hy))]
  · rfl

theorem isColumn (ha : a.Describes x) (hx : x.cols = 1) : a.isColumn ≠ some false := by
  unfold Metadata.isColumn
  intro h
  obtain ⟨k, hk, hne⟩ := Option.map_eq_some_iff.1 h
  have hk1 : k = 1 := UInt64.toNat_inj.1 ((ha.cols k hk).trans hx)
  simp [hk1] at hne

theorem columnFault? (ha : a.Describes x) (hb : b.Describes y) (hx : x.cols = 1) (hy : y.cols = 1)
    (heq : x.rows = y.rows) : MatrixPlan.columnFault? a b = none := by
  unfold MatrixPlan.columnFault?
  rw [if_neg (ha.isColumn hx), if_neg (hb.isColumn hy)]
  split
  · rename_i k₁ k₂ h₁ h₂
    rw [if_pos (Knows.eq (h₁ ▸ ha.rows) (heq ▸ h₂ ▸ hb.rows))]
  · rfl

end Metadata.Describes

/-- **A node with its shape**: its metadata describes the shape, and a matrix that is written out has the metadata of its
cells. -/
structure Graph.Shaped (g : Graph) (r : Nat) (n : Node) (x : Extents) : Prop where
  node : g.node? r = some n
  fits : x.Fits
  metadata : n.metadata.Describes x
  dense : ∀ m, n.dense? = some m → n.metadata = m.metadata

/-- The node at a place has the shape that is given for it. -/
def Graph.Described (g : Graph) (shape : Nat → Option Extents) (r : Nat) : Prop :=
  ∃ n x, shape r = some x ∧ g.Shaped r n x

namespace Estimator

variable {left right : Metadata} {x y e : Extents} (case : Estimator)

theorem metadata_product (h : innerConflict? left right = none) :
    case.metadata .product left (some right) = case.product left right := by
  have hestimate : case.estimate .product left (some right) = .ok (case.product left right) := by
    unfold estimate
    dsimp only [Operation.checkOperands, Operation.isBinary, Operation.rightOperand, bind, Except.bind]
    rw [h]
    rfl
  rw [metadata, hestimate]

theorem describes_product (hl : left.Describes x) (hr : right.Describes y) (heq : x.cols = y.rows) :
    (case.metadata .product left (some right)).Describes ⟨x.rows, y.cols⟩ := by
  rw [case.metadata_product (hl.innerConflict? hr heq)]
  exact hl.product hr case

theorem describes_productOf {a b : NodeSpec} (ha : a.metadata.Describes x) (hb : b.metadata.Describes y)
    (hda : ∀ m, a.dense? = some m → a.metadata = m.metadata) (hdb : ∀ m, b.dense? = some m → b.metadata = m.metadata)
    (heq : x.cols = y.rows) : (case.productOf a b).Describes ⟨x.rows, y.cols⟩ := by
  unfold productOf
  split
  · rename_i p q hp hq
    split
    · rename_i m hm
      obtain ⟨hrows, hcols⟩ := productMetadata_ok hm
      rw [hda p hp] at ha
      rw [hdb q hq] at hb
      exact ⟨by rw [hrows]; exact ha.rows, by rw [hcols]; exact hb.cols⟩
    · exact case.describes_product ha hb heq
  · exact case.describes_product ha hb heq

theorem describes_reshapeTo (m : Metadata) (rows cols : UInt64) :
    (case.reshapeTo m rows cols).Describes ⟨rows.toNat, cols.toNat⟩ := by
  have hmeta : case.metadata (.reshape rows cols) m none = ⟨some rows, some cols, m.nnz⟩ ∨
      case.metadata (.reshape rows cols) m none = .unknown := by
    have hestimate : case.estimate (.reshape rows cols) m none = m.reshape rows cols := rfl
    rw [metadata, hestimate, Metadata.reshape]
    cases m.cells with
    | none => exact .inl rfl
    | some k =>
      dsimp only
      by_cases hk : k = satMul rows cols
      · exact .inl (by rw [if_pos hk])
      · exact .inr (by rw [if_neg hk])
  unfold reshapeTo
  rcases hmeta with h | h
  · rw [h]
    exact ⟨knows_some rfl, knows_some rfl⟩
  · rw [h]
    exact Metadata.describes_ofShape

end Estimator

namespace Application

variable {g : Graph} {shape : Nat → Option Extents} {e : Extents} {i j : Nat} {n : NodeSpec}

theorem metadata_at {m : Node} (h : g.node? i = some m) :
    ((g.node? i).elim .unknown fun n => n.metadata) = m.metadata := by
  rw [h, Option.elim_some]

/-- **A rule of two operands**: a node that uses them describes its result and breaks no rule for shapes, if it does so for
all operands that fit. -/
theorem spec_sound_pair (hi : g.Described shape i) (hj : g.Described shape j)
    {rule : Metadata → Metadata → Option ShapeFault} (hin : n.unnamed = [.node i, .node j])
    (hrule : g.shapeFault? n = g.pairFault? n rule) {fits : Extents → Extents → Prop} [DecidableRel fits]
    {result : Extents → Extents → Extents}
    (hres : (do
      let x ← shape i
      let y ← shape j
      if fits x y then some (result x y) else none) = some e)
    (hsound : ∀ ni nj x y, g.Shaped i ni x → g.Shaped j nj y → fits x y → e = result x y →
      n.metadata.Describes (result x y) ∧ rule ni.metadata nj.metadata = none) :
    n.metadata.Describes e ∧ g.shapeFault? n = none := by
  obtain ⟨ni, x, hx, hni⟩ := hi
  obtain ⟨nj, y, hy, hnj⟩ := hj
  simp only [hx, hy, Option.bind_eq_bind, Option.bind_some] at hres
  split at hres
  · rename_i hfit
    cases hres
    obtain ⟨hmeta, hpair⟩ := hsound ni nj x y hni hnj hfit rfl
    have h0 : g.positional? n 0 = some ni.metadata := by simp [Graph.positional?, hin, Graph.inputMetadata?, hni.node]
    have h1 : g.positional? n 1 = some nj.metadata := by simp [Graph.positional?, hin, Graph.inputMetadata?, hnj.node]
    refine ⟨hmeta, ?_⟩
    rw [hrule, Graph.pairFault?, h0, h1]
    exact hpair
  · cases hres

theorem spec_sound_matmul (case : Estimator) (hi : g.Described shape i) (hj : g.Described shape j)
    (hres : (matmul i j).resultOf? shape = some e) :
    ((matmul i j).spec g case).metadata.Describes e ∧ g.shapeFault? ((matmul i j).spec g case) = none :=
  spec_sound_pair hi hj rfl rfl hres fun ni nj x y hni hnj heq _ => by
    refine ⟨?_, (productFault?_eq_innerConflict? _ _).trans (hni.metadata.innerConflict? hnj.metadata heq)⟩
    simp only [spec_matmul, operatorSpec, hni.node, hnj.node]
    exact case.describes_productOf hni.metadata hnj.metadata hni.dense hnj.dense heq

/-- Cell-by-cell products and sums differ in the estimate of what is not zero, and in nothing else. -/
theorem spec_sound_elementwise (hi : g.Described shape i) (hj : g.Described shape j)
    (hop : n.operation = "+" ∨ n.operation = "*") (hin : n.unnamed = [.node i, .node j]) {sparsity : Option Float}
    (hmeta : n.metadata = elementwise ((g.node? i).elim .unknown fun m => m.metadata)
      ((g.node? j).elim .unknown fun m => m.metadata) sparsity)
    (hres : (add i j).resultOf? shape = some e) : n.metadata.Describes e ∧ g.shapeFault? n = none := by
  have hrule : g.shapeFault? n = g.pairFault? n elementwiseFault? := by
    unfold Graph.shapeFault?
    rcases hop with h | h
    all_goals
      rw [h]
      rfl
  refine spec_sound_pair hi hj hin hrule hres fun ni nj x y hni hnj hxy _ => ⟨?_, ?_⟩
  · rw [hmeta, metadata_at hni.node, metadata_at hnj.node]
    exact hni.metadata.elementwise hnj.metadata hni.fits hnj.fits hxy sparsity
  · exact hni.metadata.elementwiseFault? hnj.metadata hxy

theorem spec_sound_cbind (case : Estimator) (hi : g.Described shape i) (hj : g.Described shape j)
    (hres : (cbind i j).resultOf? shape = some e) (hfits : e.Fits) :
    ((cbind i j).spec g case).metadata.Describes e ∧ g.shapeFault? ((cbind i j).spec g case) = none :=
  spec_sound_pair hi hj rfl rfl hres fun ni nj x y hni hnj heq he => by
    refine ⟨?_, hni.metadata.cbindFault? hnj.metadata heq⟩
    subst he
    simp only [spec, metadata_at hni.node, metadata_at hnj.node]
    exact hni.metadata.cbind hnj.metadata heq hfits.cols_lt

theorem spec_sound_rbind (case : Estimator) (hi : g.Described shape i) (hj : g.Described shape j)
    (hres : (rbind i j).resultOf? shape = some e) (hfits : e.Fits) :
    ((rbind i j).spec g case).metadata.Describes e ∧ g.shapeFault? ((rbind i j).spec g case) = none :=
  spec_sound_pair hi hj rfl rfl hres fun ni nj x y hni hnj heq he => by
    refine ⟨?_, hni.metadata.rbindFault? hnj.metadata heq⟩
    subst he
    simp only [spec, metadata_at hni.node, metadata_at hnj.node]
    exact hni.metadata.rbind hnj.metadata heq hfits.rows_lt

theorem spec_sound_reshape (case : Estimator) {rows cols : UInt64} (hi : g.Described shape i)
    (hres : (reshape i rows cols).resultOf? shape = some e) (hfits : e.Fits) :
    ((reshape i rows cols).spec g case).metadata.Describes e ∧
      g.shapeFault? ((reshape i rows cols).spec g case) = none := by
  obtain ⟨m, x, hx, hm⟩ := hi
  simp only [resultOf?, hx, Option.bind_eq_bind, Option.bind_some] at hres
  split at hres
  · rename_i heq
    cases hres
    have hd := case.describes_reshapeTo m.metadata rows cols
    have hmeta : ((reshape i rows cols).spec g case).metadata = case.reshapeTo m.metadata rows cols := by
      simp only [spec, callSpec, metadata_at hm.node]
    have hgiven : g.positional? ((reshape i rows cols).spec g case) 0 = some m.metadata := by
      change (g.node? i).map _ = _
      rw [hm.node, Option.map_some]
    have hop : ((reshape i rows cols).spec g case).operation = "matrix" := rfl
    refine ⟨by rw [hmeta]; exact hd, ?_⟩
    simp only [Graph.shapeFault?, hop, hgiven, Option.bind_some, hmeta]
    exact hm.metadata.reshapeFault? hd hm.fits hfits heq
  · cases hres

theorem spec_sound_auc (case : Estimator) (hi : g.Described shape i) (hj : g.Described shape j)
    (hres : (auc i j).resultOf? shape = some e) :
    ((auc i j).spec g case).metadata.Describes e ∧ g.shapeFault? ((auc i j).spec g case) = none := by
  obtain ⟨ni, x, hx, hni⟩ := hi
  obtain ⟨nj, y, hy, hnj⟩ := hj
  simp only [resultOf?, hx, hy, Option.bind_eq_bind, Option.bind_some] at hres
  split at hres
  · rename_i hcol
    cases hres
    have hY : g.named? ((auc i j).spec g case) "Y" = some ni.metadata := by
      change (g.node? i).map _ = _
      rw [hni.node, Option.map_some]
    have hP : g.named? ((auc i j).spec g case) "P" = some nj.metadata := by
      change (g.node? j).map _ = _
      rw [hnj.node, Option.map_some]
    have hop : ((auc i j).spec g case).operation = "auc" := rfl
    refine ⟨Metadata.describes_ofShape, ?_⟩
    simp only [Graph.shapeFault?, hop, hY, hP]
    exact hni.metadata.columnFault? hnj.metadata hcol.1 hcol.2.1 hcol.2.2
  · cases hres

/-- **The node of an application describes its result and breaks no rule for shapes**, when its operands are described
and keep the rule of the operation. -/
theorem spec_sound (case : Estimator) {a : Application Nat} (hops : ∀ i ∈ a.operands, g.Described shape i)
    (hres : a.resultOf? shape = some e) (hfits : e.Fits) :
    (a.spec g case).metadata.Describes e ∧ g.shapeFault? (a.spec g case) = none := by
  cases a with
  | matmul i j => exact spec_sound_matmul case (hops i (by simp [operands])) (hops j (by simp [operands])) hres
  | mul i j =>
    exact spec_sound_elementwise (hops i (by simp [operands])) (hops j (by simp [operands])) (.inr rfl) rfl rfl hres
  | add i j =>
    exact spec_sound_elementwise (hops i (by simp [operands])) (hops j (by simp [operands])) (.inl rfl) rfl rfl hres
  | cbind i j => exact spec_sound_cbind case (hops i (by simp [operands])) (hops j (by simp [operands])) hres hfits
  | rbind i j => exact spec_sound_rbind case (hops i (by simp [operands])) (hops j (by simp [operands])) hres hfits
  | reshape i rows cols => exact spec_sound_reshape case (hops i (by simp [operands])) hres hfits
  | auc y p => exact spec_sound_auc case (hops y (by simp [operands])) (hops p (by simp [operands])) hres
  | transpose i =>
    obtain ⟨m, x, hx, hm⟩ := hops i (by simp [operands])
    simp only [resultOf?, hx, Option.bind_eq_bind, Option.bind_some] at hres
    cases hres
    refine ⟨?_, rfl⟩
    simp only [spec, metadata_at hm.node]
    exact hm.metadata.transpose
  | diag i =>
    obtain ⟨m, x, hx, hm⟩ := hops i (by simp [operands])
    simp only [resultOf?, hx, Option.bind_eq_bind, Option.bind_some] at hres
    cases hres
    refine ⟨?_, rfl⟩
    simp only [spec, metadata_at hm.node]
    exact hm.metadata.diag
  | eqZero i =>
    obtain ⟨m, x, hx, hm⟩ := hops i (by simp [operands])
    obtain rfl : x = e := Option.some.inj (hx.symm.trans hres)
    refine ⟨?_, rfl⟩
    simp only [spec, metadata_at hm.node]
    exact hm.metadata.eqZero
  | neqZero i =>
    obtain ⟨m, x, hx, hm⟩ := hops i (by simp [operands])
    obtain rfl : x = e := Option.some.inj (hx.symm.trans hres)
    refine ⟨?_, rfl⟩
    simp only [spec, metadata_at hm.node]
    exact hm.metadata
  | sum i =>
    obtain ⟨m, x, hx, -⟩ := hops i (by simp [operands])
    simp only [resultOf?, hx, Option.bind_eq_bind, Option.bind_some] at hres
    cases hres
    exact ⟨Metadata.describes_ofShape, rfl⟩

end Application
end MatrixPlan
