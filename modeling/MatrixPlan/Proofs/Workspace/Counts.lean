import MatrixPlan.Proofs.Metadata.Plausible
import MatrixPlan.Proofs.Workspace.Origins
/-!
# Counts — the counts of a validated graph are plausible

Sources have plausible counts when those that are given do, and an application makes a plausible count from plausible
ones if it keeps its rule, so in a graph that passes validation all counts below the root are plausible.  They are not
always within the cells: a number of cells beyond `2^53` may be rounded upward.
-/
namespace MatrixPlan

/-- **Sources have plausible counts**, a matrix in a file as far as what is given of it is plausible. -/
theorem Source.plausible_spec (s : Source) (h : ∀ path m, s = .read path m → m.Plausible) : s.spec.metadata.Plausible := by
  cases s with
  | read path m => exact h path m rfl
  | full rows cols value =>
    refine Metadata.plausible_exact ?_
    split
    · exact Nat.zero_le _
    · exact le_withRounding _
  | dense m => exact m.plausible_metadata
  | rand r => exact Metadata.plausible_ofSparsity _ _ _
  | seq start stop step =>
    change (seqMetadata start stop step).Plausible
    unfold seqMetadata
    dsimp only
    split
    · exact .inl rfl
    · split <;> exact .inl rfl
  | scalar value => exact .inl rfl

namespace Application

variable {g : Graph} {i j : Nat}

/-- The rule of a node of two operands, for their metadata. -/
theorem rule_of_pairFault? {n : NodeSpec} {rule : Metadata → Metadata → Option ShapeFault} {x y : Node}
    (hin : n.unnamed = [.node i, .node j]) (hi : g.node? i = some x) (hj : g.node? j = some y)
    (h : g.pairFault? n rule = none) : rule x.metadata y.metadata = none := by
  have h0 : g.positional? n 0 = some x.metadata := by simp [Graph.positional?, hin, Graph.inputMetadata?, hi]
  have h1 : g.positional? n 1 = some y.metadata := by simp [Graph.positional?, hin, Graph.inputMetadata?, hj]
  rw [Graph.pairFault?, h0, h1] at h
  exact h

/-- **An application makes a plausible count from plausible ones**, if it keeps its rule. -/
theorem plausible_spec (case : Estimator) {a : Application Nat}
    (hops : ∀ i ∈ a.operands, ∃ n, g.node? i = some n ∧ n.metadata.Plausible)
    (hrule : g.shapeFault? (a.spec g case) = none) :
    (a.spec g case).metadata.Plausible := by
  have hat : ∀ i ∈ a.operands, ((g.node? i).elim Metadata.unknown fun n => n.metadata).Plausible := by
    intro i hi
    obtain ⟨n, hn, hplausible⟩ := hops i hi
    rw [hn]
    exact hplausible
  cases a with
  | matmul i j =>
    obtain ⟨x, hi, -⟩ := hops i (by simp [operands])
    obtain ⟨y, hj, -⟩ := hops j (by simp [operands])
    have hmeta : ((matmul i j).spec g case).metadata = case.productOf x.toNodeSpec y.toNodeSpec := by
      simp only [spec_matmul, operatorSpec, hi, hj]
    rw [hmeta]
    exact case.plausible_productOf _ _
  | mul i j | add i j => exact plausible_elementwise _ _ _
  | cbind i j =>
    obtain ⟨x, hi, hx⟩ := hops i (by simp [operands])
    obtain ⟨y, hj, hy⟩ := hops j (by simp [operands])
    have hmeta : ((cbind i j).spec g case).metadata = x.metadata.cbind y.metadata := by
      simp only [spec, callSpec, metadata_at hi, metadata_at hj]
      rfl
    rw [hmeta]
    exact hx.cbind hy (rule_of_pairFault? rfl hi hj hrule)
  | rbind i j =>
    obtain ⟨x, hi, hx⟩ := hops i (by simp [operands])
    obtain ⟨y, hj, hy⟩ := hops j (by simp [operands])
    have hmeta : ((rbind i j).spec g case).metadata = x.metadata.rbind y.metadata := by
      simp only [spec, callSpec, metadata_at hi, metadata_at hj]
      rfl
    rw [hmeta]
    exact hx.rbind hy (rule_of_pairFault? rfl hi hj hrule)
  | transpose i => exact (hat i (by simp [operands])).transpose
  | diag i => exact (hat i (by simp [operands])).diag
  | eqZero i => exact (hat i (by simp [operands])).eqZero
  | neqZero i => exact hat i (by simp [operands])
  | reshape i rows cols => exact case.plausible_reshapeTo (hat i (by simp [operands])) rows cols
  | sum i | auc y p => exact .inl rfl

end Application

namespace Graph.MadeBy

variable {g : Graph} {origin : Nat → Origin} {root expected : Nat}

/-- **All counts below a root are plausible**, by induction along the table, when the nodes keep their rules. -/
theorem plausible_below (hm : g.MadeBy origin) (hroot : root < g.size)
    (hkeeps : ∀ r n, g.Reaches root r → g.node? r = some n → g.Keeps expected n)
    (hread : ∀ r n path m, g.Reaches root r → g.node? r = some n → origin r = .source (.read path m) → m.Plausible)
    {r : Nat} (hr : g.Reaches root r) {n : Node} (hn : g.node? r = some n) : n.metadata.Plausible := by
  induction r using Nat.strongRecOn generalizing n with
  | ind r ih =>
    cases ho : origin r with
    | source s =>
      rw [hm.spec_source hn ho]
      exact s.plausible_spec fun path m hs => hread r n path m hr hn (hs ▸ ho)
    | application a =>
      obtain ⟨⟨case, hcase⟩, hops⟩ := hm.spec_application hn ho
      have hshapes := (hkeeps r n hr hn).shapes
      rw [hcase] at hshapes ⊢
      refine Application.plausible_spec case (fun i hi => ?_) hshapes
      obtain ⟨m, hmi⟩ := exists_node? ((hr.input (hops i hi)).lt_size hroot)
      exact ⟨m, hmi, ih i (lt_of_mem_inputs (hops i hi)) (hr.input (hops i hi)) hmi⟩

end Graph.MadeBy

namespace Workspace

variable {w : Workspace} {held : Multiset Nat}

/-- **Known counts stay within the cells, but for what rounding to doubles makes of them.**  A fraction of a number of
cells is no more than this number as a double.  In a graph that is built by sources and applications, let the root pass
validation, and let the counts that are given with files be unknown or within the cells.  Then below the root each count
of a known shape is within the cells, as they are counted with saturation and rounded; up to `2^53` cells nothing is
rounded. -/
theorem Reachable.counts_plausible (h : Reachable offered w held) (hfew : ∀ c, w.graph.builtIn c ≤ 2 ^ 64) :
    (∀ rows cols sparsity, nnzFor rows cols sparsity ≤ roundCount (satMul rows cols).toFloat ∧
      (nnzFor rows cols sparsity).toNat ≤ withRounding (satMul rows cols).toNat) ∧
    (∃ origin, w.graph.MadeBy origin) ∧ ∀ (origin : Nat → Origin), w.graph.MadeBy origin →
      ∀ (root : Nat) (top : Node), w.node? root = some top → w.graph.validate root = .ok () →
      (∀ r n path m, w.graph.Reaches root r → w.node? r = some n → origin r = .source (.read path m) →
        m.nnz = none ∨ ∃ rows cols nnz, m = .exact rows cols nnz ∧ nnz.toNat ≤ rows.toNat * cols.toNat) →
      ∀ r n rows cols nnz, w.graph.Reaches root r → w.node? r = some n → n.metadata = .exact rows cols nnz →
        nnz.toNat ≤ withRounding (satMul rows cols).toNat ∧
        (rows.toNat * cols.toNat ≤ 2 ^ 53 → nnz.toNat ≤ rows.toNat * cols.toNat) := by
  refine ⟨fun rows cols sparsity => ⟨nnzFor_le rows cols sparsity, toNat_nnzFor_le rows cols sparsity⟩, h.madeBy,
    fun origin hm root top hroot hv hgiven r n rows cols nnz hr hn hknown => ?_⟩
  have hread : ∀ r n path m, w.graph.Reaches root r → w.graph.node? r = some n → origin r = .source (.read path m) →
      m.Plausible := by
    intro r n path m hr hn ho
    rcases hgiven r n path m hr hn ho with hnone | ⟨rows, cols, nnz, rfl, hle⟩
    · exact .inl hnone
    · refine Metadata.plausible_exact (le_trans ?_ (le_withRounding _))
      rw [toNat_satMul]
      exact Nat.le_min.2 ⟨hle, toNat_le_maxCount nnz⟩
  have hkeeps : ∀ r n, w.graph.Reaches root r → w.graph.node? r = some n → w.graph.Keeps top.context n := fun r n =>
    Graph.keeps_of_validate_ok (h.sound.numbered.distinctNames hfew) hroot hv
  have hplausible := hm.plausible_below (Graph.lt_of_node? hroot) hkeeps hread hr hn
  rw [hknown] at hplausible
  have hle : nnz.toNat ≤ withRounding (satMul rows cols).toNat := by
    rcases hplausible with hnone | ⟨_, _, _, heq, hle⟩
    · cases hnone
    · cases heq
      exact hle
  refine ⟨hle, fun hsmall => ?_⟩
  have hcells : (satMul rows cols).toNat = rows.toNat * cols.toNat := by
    rw [toNat_satMul, maxCount]
    omega
  rwa [hcells, withRounding_eq hsmall] at hle

/-- A random column of `2^53 + 3` cells, all of them non-zero, beside one that is given with five. -/
def overfull : Workspace :=
  let w : Workspace := (({} : Workspace).addContext ⟨Uuid.ofNat 0⟩ 0 {}).2
  let w := (w.addSource 0 (.rand { rows := 9007199254740995, cols := 1 })).2
  let w := (w.addSource 0 (.read "x.csv" (.exact 9007199254740995 1 5))).2
  (w.apply (.cbind 0 1)).2

def overfullOrigin : Nat → Origin
  | 0 => .source (.rand { rows := 9007199254740995, cols := 1 })
  | 1 => .source (.read "x.csv" (.exact 9007199254740995 1 5))
  | _ => .application (.cbind 0 1)

theorem reachable_overfull : Reachable offered overfull {2, 1, 0} := by
  refine .tail (.tail (.tail (.single (.context _ _ _ _ _)) (.addSource ?_ _)) (.addSource ?_ _))
    (.build _ _ 0 _ ?_ ?_ (.inr ⟨.cbind 0 1, _, rfl⟩))
  all_goals decide

theorem madeBy_overfull : overfull.graph.MadeBy overfullOrigin := by
  intro r n hn
  have hlt : r < 3 := Graph.lt_of_node? hn
  obtain rfl | rfl | rfl : r = 0 ∨ r = 1 ∨ r = 2 := by omega
  · cases hn
    rfl
  · cases hn
    rfl
  · cases hn
    exact ⟨.average, rfl⟩

theorem builtIn_overfull (c : Nat) : overfull.graph.builtIn c ≤ 2 ^ 64 :=
  (overfull.graph.builtIn_le_size c).trans (by decide)

theorem validate_overfull : overfull.graph.validate 0 = .ok () ∧ overfull.graph.validate 2 = .ok () := by
  have hkeeps : ∀ (r : Nat) (n : Node), overfull.graph.node? r = some n → overfull.graph.Keeps 0 n := by
    intro r n hn
    have hlt : r < 3 := Graph.lt_of_node? hn
    obtain rfl | rfl | rfl : r = 0 ∨ r = 1 ∨ r = 2 := by omega
    all_goals
      cases hn
      exact Graph.fault?_eq_none_iff.1 rfl
  have hfirst : overfull.graph.node? 0 = some overfull.graph.nodes[0] := rfl
  have hlast : overfull.graph.node? 2 = some overfull.graph.nodes[2] := rfl
  exact ⟨Graph.validate_ok_of_keeps hfirst fun r n _ => hkeeps r n, Graph.validate_ok_of_keeps hlast fun r n _ => hkeeps r n⟩

/-- Both columns together count six non-zero cells more than the first has cells. -/
theorem counts_plausible_overfull : Reachable offered overfull {2, 1, 0} ∧ (∀ c, overfull.graph.builtIn c ≤ 2 ^ 64) ∧
    overfull.graph.MadeBy overfullOrigin ∧ overfull.graph.validate 2 = .ok () ∧
    ∃ n rows cols nnz, overfull.node? 2 = some n ∧ n.metadata = .exact rows cols nnz ∧
      nnz.toNat ≤ withRounding (satMul rows cols).toNat := by
  have hcount : nnzFor 9007199254740995 1 1.0 = 9007199254740996 := by decide +kernel
  have hroot : overfull.node? 2 = some overfull.graph.nodes[2] := rfl
  have hmeta : overfull.graph.nodes[2].metadata = .exact 9007199254740995 2 9007199254741001 := by
    change (Metadata.ofSparsity 9007199254740995 1 1.0).cbind (.exact 9007199254740995 1 5) = _
    rw [Metadata.ofSparsity, hcount]
    decide
  refine ⟨reachable_overfull, builtIn_overfull, madeBy_overfull, validate_overfull.2, _, _, _, _, hroot, hmeta, ?_⟩
  refine ((reachable_overfull.counts_plausible builtIn_overfull).2.2 overfullOrigin madeBy_overfull 2 _ hroot
    validate_overfull.2 (fun r n path m hr hn ho => ?_) 2 _ _ _ _ (.refl _ 2) hroot hmeta).1
  have hlt : r < 3 := Graph.lt_of_node? hn
  obtain rfl | rfl | rfl : r = 0 ∨ r = 1 ∨ r = 2 := by omega
  · cases ho
  · cases ho
    exact .inr ⟨_, _, _, rfl, by decide⟩
  · cases ho

/-- **Counts within the cells are too much to ask**: of `2^53 + 3` cells all are non-zero and one more, for a fraction of
them as in a graph that passes validation. -/
theorem counts_beyond_cells :
    ¬ (∀ rows cols sparsity, nnzFor rows cols sparsity ≤ satMul rows cols) ∧
    Reachable offered overfull {2, 1, 0} ∧ overfull.graph.validate 0 = .ok () ∧
    (∃ n, overfull.node? 0 = some n ∧ n.metadata = .exact 9007199254740995 1 9007199254740996) ∧
    satMul 9007199254740995 1 = 9007199254740995 := by
  have hcount : nnzFor 9007199254740995 1 1.0 = 9007199254740996 := by decide +kernel
  have hcells : satMul 9007199254740995 1 = 9007199254740995 := by decide
  refine ⟨fun h => ?_, reachable_overfull, validate_overfull.1, ⟨_, rfl, ?_⟩, hcells⟩
  · have hle := h 9007199254740995 1 1.0
    rw [hcount, hcells] at hle
    exact absurd hle (by decide)
  · change Metadata.ofSparsity 9007199254740995 1 1.0 = _
    rw [Metadata.ofSparsity, hcount]

end Workspace
end MatrixPlan
