import MatrixPlan.Proofs.Matrix.Product
import MatrixPlan.Proofs.Workspace.Conflicts
/-!
# Agreement — estimates fail where validation rejects

The rule for inner extents is kept in three places: by the estimates, by the product of matrices that are written out,
and by validation, which has a rule of its own and looks at a node after its failed estimate has been replaced.  The rule
for reshaping is kept in two.  They agree, whatever is known, since a replaced estimate leaves the metadata of the
operands, and the shape that a matrix was to have.
-/
namespace MatrixPlan

theorem Metadata.cells_of_shape {m : Metadata} {r c : UInt64} (hr : m.rows = some r) (hc : m.cols = some c) :
    m.cells = some (satMul r c) := by
  rw [cells, hr, hc]
  rfl

namespace Estimator

variable (case : Estimator) {l r m : Metadata} {e : EstimateError} {rows cols : UInt64}

/-- **The estimate of a product fails for the inner extents alone.** -/
theorem estimate_product_error_iff : case.estimate .product l (some r) = .error e ↔
    ∃ fault, innerConflict? l r = some fault ∧ e = .incompatible .product fault := by
  unfold estimate
  dsimp only [Operation.checkOperands, Operation.isBinary, Operation.rightOperand, bind, Except.bind]
  cases innerConflict? l r with
  | some fault => simp [throw, throwThe, MonadExceptOf.throw, eq_comm]
  | none => simp [pure, Except.pure]

theorem estimate_product_ok (h : case.estimate .product l (some r) = .ok m) : m.rows = l.rows ∧ m.cols = r.cols := by
  have hnone : innerConflict? l r = none := by
    by_contra hne
    obtain ⟨fault, hfault⟩ := Option.ne_none_iff_exists'.1 hne
    cases h.symm.trans (case.estimate_product_error_iff.2 ⟨fault, hfault, rfl⟩)
  have hm : case.metadata .product l (some r) = m := by rw [metadata, h]
  rw [← hm, case.metadata_product hnone]
  exact ⟨product_rows .., product_cols ..⟩

/-- **The estimate of a reshaped matrix fails for the number of its cells alone.** -/
theorem estimate_reshape_error_iff : case.estimate (.reshape rows cols) m none = .error e ↔
    ∃ cells, m.cells = some cells ∧ cells ≠ satMul rows cols ∧
      e = .incompatible (.reshape rows cols) (.reshapeTo cells rows cols) := by
  change m.reshape rows cols = .error e ↔ _
  unfold Metadata.reshape
  cases m.cells with
  | none => simp
  | some cells =>
    dsimp only
    split <;> simp [*, eq_comm]

/-- **Estimates of all other operations are made**, when there are as many operands as they take. -/
theorem estimate_total {op : Operation} {right : Option Metadata} (harity : right.isSome = op.isBinary)
    (hproduct : op ≠ .product) (hreshape : ∀ rows cols, op ≠ .reshape rows cols) :
    ∃ m, case.estimate op l right = .ok m := by
  cases op with
  | product => exact absurd rfl hproduct
  | reshape rows cols => exact absurd rfl (hreshape rows cols)
  | times | plus | cbind | rbind =>
    obtain ⟨r, rfl⟩ := Option.isSome_iff_exists.1 harity
    exact ⟨_, rfl⟩
  | eqZero | neqZero | transpose | diag =>
    obtain rfl : right = none := Option.not_isSome_iff_eq_none.1 (by simp [harity, Operation.isBinary])
    exact ⟨_, rfl⟩

/-- A reshaped matrix has the shape that it was to have, also where its estimate fails. -/
theorem shape_reshapeTo (m : Metadata) (rows cols : UInt64) :
    (case.reshapeTo m rows cols).rows = some rows ∧ (case.reshapeTo m rows cols).cols = some cols := by
  obtain ⟨hr, hc⟩ := Metadata.hasShape_iff.1 (case.hasShape_reshapeTo m rows cols)
  obtain ⟨i, hi⟩ := Option.isSome_iff_exists.1 hr
  obtain ⟨j, hj⟩ := Option.isSome_iff_exists.1 hc
  have hd := case.describes_reshapeTo m rows cols
  rw [hi, hj, UInt64.toNat_inj.1 (hd.rows i hi), UInt64.toNat_inj.1 (hd.cols j hj)]
  exact ⟨rfl, rfl⟩

end Estimator

/-- **The product of matrices that are written out fails where the estimate fails**, for the same reason. -/
theorem productMetadata_error_iff (case : Estimator) {a b : Dense} {e : EstimateError} :
    productMetadata a b = .error e ↔ case.estimate .product a.metadata (some b.metadata) = .error e := by
  have hrule : innerConflict? a.metadata b.metadata =
      if a.cols = b.rows then none else some (.innerExtents a.cols b.rows) := rfl
  rw [case.estimate_product_error_iff, hrule]
  by_cases h : a.cols = b.rows
  · obtain ⟨c, hc, -⟩ := BitMatrix.productMetadata_of_eq h
    simp [hc, h]
  · simp [BitMatrix.productMetadata_of_ne h, h, eq_comm]

namespace Application

variable {g g' : Graph} {case : Estimator} {a b : Nat} {x y n : Node}

/-- Validation looks at the inner extents of the operands, whatever became of the estimate. -/
theorem shapeFault?_matmul (hn : n.toNodeSpec = (matmul a b).spec g case) (ha : g'.node? a = some x)
    (hb : g'.node? b = some y) : g'.shapeFault? n.toNodeSpec = productFault? x.metadata y.metadata := by
  have hleft : g'.positional? n.toNodeSpec 0 = some x.metadata := by
    rw [hn]
    exact congrArg (Option.map _) ha
  have hright : g'.positional? n.toNodeSpec 1 = some y.metadata := by
    rw [hn]
    exact congrArg (Option.map _) hb
  have hop : n.operation = "%*%" := by rw [hn]; rfl
  simp only [Graph.shapeFault?, hop, Graph.pairFault?, hleft, hright]

/-- The product of matrices that are written out has the metadata of their cells. -/
theorem metadata_matmul {d e : Dense} {m : Metadata} (hn : n.toNodeSpec = (matmul a b).spec g case)
    (ha : g.node? a = some x) (hb : g.node? b = some y) (hx : x.dense? = some d) (hy : y.dense? = some e)
    (hm : productMetadata d e = .ok m) : n.metadata = m := by
  rw [hn]
  simp only [spec_matmul, operatorSpec, ha, hb, Estimator.productOf, hx, hy, hm]

theorem metadata_reshape {rows cols : UInt64} (hn : n.toNodeSpec = (reshape a rows cols).spec g case)
    (ha : g.node? a = some x) : n.metadata = case.reshapeTo x.metadata rows cols := by
  rw [hn]
  simp only [spec, callSpec, metadata_at ha]

/-- Validation compares the cells of the operand with those of the shape that the matrix was to have. -/
theorem shapeFault?_reshape {rows cols : UInt64} (hn : n.toNodeSpec = (reshape a rows cols).spec g case)
    (ha : g.node? a = some x) (ha' : g'.node? a = some x) : g'.shapeFault? n.toNodeSpec =
      x.metadata.cells.bind fun cells =>
        if cells = satMul rows cols then none else some (.cellCounts cells (satMul rows cols)) := by
  have hgiven : g'.positional? n.toNodeSpec 0 = some x.metadata := by
    rw [hn]
    exact congrArg (Option.map _) ha'
  have hop : n.operation = "matrix" := by rw [hn]; rfl
  obtain ⟨hrows, hcols⟩ := case.shape_reshapeTo x.metadata rows cols
  have hwanted : n.metadata.cells = some (satMul rows cols) := by
    rw [metadata_reshape hn ha, Metadata.cells_of_shape hrows hcols]
  simp only [Graph.shapeFault?, hop, hgiven, Option.bind_some, reshapeFault?, hwanted]
  cases x.metadata.cells <;> rfl

end Application

namespace Workspace

variable {w : Workspace} {held : Multiset Nat} {app : Application Nat}

/-- **What an application adds to a workspace**: its node, at the end of the table. -/
theorem Sound.apply_node (h : Sound w held) (hops : ∀ i ∈ app.operands, i < w.graph.size) :
    ∃ case n, (w.apply app).2.node? (w.apply app).1 = some n ∧ n.toNodeSpec = app.spec w.graph case ∧
      ∀ r < w.graph.size, (w.apply app).2.node? r = w.node? r := by
  obtain ⟨hplace, case, n, hlt, hspec, hgraph⟩ := h.apply_graph hops
  refine ⟨case, n, ?_, hspec, fun r hr => ?_⟩
  · rw [node?, hplace, hgraph, Graph.node?_add_size]
  · rw [node?, hgraph, Graph.node?_add_of_lt hlt hr]
    rfl

/-- **The rule of a product is one rule**: the node `n` of a product of `x` and `y` is rejected where the estimate fails,
and, of matrices that are written out, where their product fails, each for the same reason; else all say the same
shape. -/
structure OneProductRule (case : Estimator) (g : Graph) (x y n : Node) : Prop where
  rejected : ∀ e, case.estimate .product x.metadata (some y.metadata) = .error e ↔
    ∃ fault, g.shapeFault? n.toNodeSpec = some fault ∧ e = .incompatible .product fault
  failed : ∀ d d', x.toNodeSpec = (Source.dense d).spec → y.toNodeSpec = (Source.dense d').spec → ∀ e,
    productMetadata d d' = .error e ↔ case.estimate .product x.metadata (some y.metadata) = .error e
  shape : ∀ d d', x.toNodeSpec = (Source.dense d).spec → y.toNodeSpec = (Source.dense d').spec →
    ∀ m, case.estimate .product x.metadata (some y.metadata) = .ok m →
      productMetadata d d' = .ok n.metadata ∧ n.metadata.rows = m.rows ∧ n.metadata.cols = m.cols

/-- **The rule of a reshaped matrix is one rule**: its node `n` is rejected where the estimate fails, and has the shape
that it was to have in either case. -/
structure OneReshapeRule (case : Estimator) (g : Graph) (x n : Node) (rows cols : UInt64) : Prop where
  rejected : (∃ e, case.estimate (.reshape rows cols) x.metadata none = .error e) ↔
    ∃ fault, g.shapeFault? n.toNodeSpec = some fault
  rows : n.metadata.rows = some rows
  cols : n.metadata.cols = some cols

variable {a b : Nat} {x y : Node}

theorem Sound.oneProductRule (h : Sound w held) (ha : w.node? a = some x) (hb : w.node? b = some y) :
    ∃ n, (w.apply (.matmul a b)).2.node? (w.apply (.matmul a b)).1 = some n ∧
      ∀ case, OneProductRule case (w.apply (.matmul a b)).2.graph x y n := by
  have hlta : a < w.graph.size := Graph.lt_of_node? ha
  have hltb : b < w.graph.size := Graph.lt_of_node? hb
  have hops : ∀ i ∈ (Application.matmul a b).operands, i < w.graph.size := by
    simp [Application.operands, hlta, hltb]
  obtain ⟨own, n, hn, hspec, hold⟩ := h.apply_node hops
  have hfault : (w.apply (.matmul a b)).2.graph.shapeFault? n.toNodeSpec = productFault? x.metadata y.metadata :=
    Application.shapeFault?_matmul hspec ((hold a hlta).trans ha) ((hold b hltb).trans hb)
  refine ⟨n, hn, fun case => ⟨fun e => ?_, fun d d' hx hy e => ?_, fun d d' hx hy m hm => ?_⟩⟩
  · rw [case.estimate_product_error_iff, hfault, productFault?_eq_innerConflict?]
  · rw [hx, hy]
    exact productMetadata_error_iff case
  · obtain ⟨hrows, hcols⟩ := case.estimate_product_ok hm
    rw [hx, hy] at hm
    cases hp : productMetadata d d' with
    | error e => cases hm.symm.trans ((productMetadata_error_iff case).1 hp)
    | ok p =>
      have hmeta : n.metadata = p :=
        Application.metadata_matmul hspec ha hb (by rw [hx]; rfl) (by rw [hy]; rfl) hp
      obtain ⟨hprows, hpcols⟩ := productMetadata_ok hp
      rw [hmeta, hprows, hpcols, hrows, hcols, hx, hy]
      exact ⟨rfl, rfl, rfl⟩

theorem Sound.oneReshapeRule (h : Sound w held) (ha : w.node? a = some x) (rows cols : UInt64) :
    ∃ n, (w.apply (.reshape a rows cols)).2.node? (w.apply (.reshape a rows cols)).1 = some n ∧
      ∀ case, OneReshapeRule case (w.apply (.reshape a rows cols)).2.graph x n rows cols := by
  have hlta : a < w.graph.size := Graph.lt_of_node? ha
  have hops : ∀ i ∈ (Application.reshape a rows cols).operands, i < w.graph.size := by
    simp [Application.operands, hlta]
  obtain ⟨own, n, hn, hspec, hold⟩ := h.apply_node hops
  obtain ⟨hrows, hcols⟩ := own.shape_reshapeTo x.metadata rows cols
  have hmeta : n.metadata = own.reshapeTo x.metadata rows cols := Application.metadata_reshape hspec ha
  refine ⟨n, hn, fun case => ⟨?_, by rw [hmeta, hrows], by rw [hmeta, hcols]⟩⟩
  rw [Application.shapeFault?_reshape hspec ha ((hold a hlta).trans ha)]
  simp only [case.estimate_reshape_error_iff]
  cases x.metadata.cells with
  | none => simp
  | some cells => by_cases hcells : cells = satMul rows cols <;> simp [hcells]

/-- **Estimates fail where validation rejects, and nowhere else.**  For all matrices of a workspace, whatever is known of
them, and for both estimators, the rules of products and of reshaped matrices are one rule each; all other estimates are
made. -/
theorem Reachable.conflicts_agree {permit : Workspace → Nat → NodeSpec → Prop} (h : Reachable permit w held)
    (ha : w.node? a = some x) (hb : w.node? b = some y) :
    (∃ n, (w.apply (.matmul a b)).2.node? (w.apply (.matmul a b)).1 = some n ∧
      ∀ case, OneProductRule case (w.apply (.matmul a b)).2.graph x y n) ∧
    (∀ rows cols, ∃ n, (w.apply (.reshape a rows cols)).2.node? (w.apply (.reshape a rows cols)).1 = some n ∧
      ∀ case, OneReshapeRule case (w.apply (.reshape a rows cols)).2.graph x n rows cols) ∧
    ∀ (case : Estimator) (op : Operation) (left : Metadata) (right : Option Metadata), right.isSome = op.isBinary →
      op ≠ .product → (∀ rows cols, op ≠ .reshape rows cols) → ∃ m, case.estimate op left right = .ok m :=
  ⟨h.sound.oneProductRule ha hb, h.sound.oneReshapeRule ha, fun case _ _ _ => case.estimate_total⟩

/-- The estimate for two rows and three columns times themselves fails, so the node is rejected. -/
theorem conflicts_agree_clash : Reachable offered clash {2, 1, 0} ∧ ∃ x n, clash.node? 0 = some x ∧
    Estimator.worst.estimate .product x.metadata (some x.metadata) =
      .error (.incompatible .product (.innerExtents 3 2)) ∧
    (clash.apply (.matmul 0 0)).2.node? (clash.apply (.matmul 0 0)).1 = some n ∧
    (clash.apply (.matmul 0 0)).2.graph.shapeFault? n.toNodeSpec = some (.innerExtents 3 2) := by
  have hx : clash.node? 0 = some clash.graph.nodes[0] := rfl
  obtain ⟨⟨n, hn, hrule⟩, -⟩ := reachable_clash.conflicts_agree hx hx
  have hfails : Estimator.worst.estimate .product clash.graph.nodes[0].metadata (some clash.graph.nodes[0].metadata) =
      .error (.incompatible .product (.innerExtents 3 2)) := by decide
  obtain ⟨fault, hfault, he⟩ := ((hrule .worst).rejected _).1 hfails
  cases he
  exact ⟨reachable_clash, _, n, hx, hfails, hn, hfault⟩

end Workspace
end MatrixPlan
