import MatrixPlan.Proofs.Metadata.Given
import MatrixPlan.Proofs.Workspace.Origins
/-!
# Conflicts — a shape that breaks a rule is found

Where both extents of all sources are known, so are those of every node whose operands keep the rules: metadata is
unknown only above a node that breaks one.  The lowest such node has known extents below it, so validation finds its
fault, whatever stands above.
-/
namespace MatrixPlan

namespace Estimator

variable (case : Estimator) {x y : Extents}

theorem hasShape_product {l r : Metadata} (hl : l.Gives x) (hr : r.Gives y) (heq : x.cols = y.rows) :
    (case.metadata .product l (some r)).hasShape = true := by
  rw [case.metadata_product (hl.describes.innerConflict? hr.describes heq), Metadata.hasShape_iff, product_rows,
    product_cols]
  exact ⟨(Metadata.hasShape_iff.1 hl.hasShape).1, (Metadata.hasShape_iff.1 hr.hasShape).2⟩

theorem hasShape_productOf {a b : NodeSpec} (ha : a.metadata.Gives x) (hb : b.metadata.Gives y)
    (heq : x.cols = y.rows) : (case.productOf a b).hasShape = true := by
  unfold productOf
  split
  · split
    · rename_i m hm
      obtain ⟨hrows, hcols⟩ := productMetadata_ok hm
      simp [Metadata.hasShape_iff, hrows, hcols]
    · exact case.hasShape_product ha hb heq
  · exact case.hasShape_product ha hb heq

theorem hasShape_reshapeTo (m : Metadata) (rows cols : UInt64) : (case.reshapeTo m rows cols).hasShape = true := by
  unfold reshapeTo
  dsimp only
  split
  · assumption
  · rfl

end Estimator

/-- The metadata at a place gives the shape that is given for it. -/
def Graph.Gives (g : Graph) (shape : Nat → Option Extents) (r : Nat) : Prop :=
  ∃ n x, shape r = some x ∧ g.node? r = some n ∧ n.metadata.Gives x

namespace Application

variable {g : Graph} {shape : Nat → Option Extents} {e : Extents} {i j : Nat} {n : NodeSpec} {a : Application Nat}

/-- Operands of a result have shapes. -/
theorem isSome_operand (hres : a.resultOf? shape = some e) : ∀ i ∈ a.operands, (shape i).isSome = true := by
  have hpair : ∀ {p q : Nat} {f : Extents → Extents → Option Extents},
      (do
        let x ← shape p
        let y ← shape q
        f x y) = some e → ∀ i ∈ [p, q], (shape i).isSome = true := by
    intro p q f h
    obtain ⟨x, hx, h⟩ := Option.bind_eq_some_iff.1 h
    obtain ⟨y, hy, -⟩ := Option.bind_eq_some_iff.1 h
    simp [hx, hy]
  have hone : ∀ {p : Nat} {f : Extents → Option Extents},
      (do
        let x ← shape p
        f x) = some e → ∀ i ∈ [p], (shape i).isSome = true := by
    intro p f h
    obtain ⟨x, hx, -⟩ := Option.bind_eq_some_iff.1 h
    simp [hx]
  cases a with
  | matmul p q | mul p q | add p q | cbind p q | rbind p q | auc p q => exact hpair hres
  | transpose p | diag p | reshape p rows cols | sum p => exact hone hres
  | eqZero p | neqZero p =>
    have hp : (shape p).isSome = true := Option.isSome_of_eq_some hres
    simpa [operands] using hp

/-- **A result is known where its operands are**, if they keep the rule of the operation. -/
theorem hasShape_spec (case : Estimator) (hops : ∀ i ∈ a.operands, g.Gives shape i)
    (hres : a.resultOf? shape = some e) : (a.spec g case).metadata.hasShape = true := by
  cases a with
  | matmul i j =>
    obtain ⟨ni, x, hx, hni, hgi⟩ := hops i (by simp [operands])
    obtain ⟨nj, y, hy, hnj, hgj⟩ := hops j (by simp [operands])
    simp only [resultOf?, hx, hy, Option.bind_eq_bind, Option.bind_some] at hres
    split at hres
    · rename_i heq
      simp only [spec_matmul, operatorSpec, hni, hnj]
      exact case.hasShape_productOf hgi hgj heq
    · cases hres
  | mul i j | add i j =>
    obtain ⟨ni, x, -, hni, hgi⟩ := hops i (by simp [operands])
    obtain ⟨nj, y, -, hnj, hgj⟩ := hops j (by simp [operands])
    simp only [spec, operatorSpec, metadata_at hni, metadata_at hnj]
    exact Metadata.hasShape_elementwise hgi.hasShape hgj.hasShape _
  | cbind i j =>
    obtain ⟨ni, x, -, hni, hgi⟩ := hops i (by simp [operands])
    obtain ⟨nj, y, -, hnj, hgj⟩ := hops j (by simp [operands])
    simp only [spec, callSpec, metadata_at hni, metadata_at hnj]
    exact Metadata.hasShape_cbind hgi.hasShape hgj.hasShape
  | rbind i j =>
    obtain ⟨ni, x, -, hni, hgi⟩ := hops i (by simp [operands])
    obtain ⟨nj, y, -, hnj, hgj⟩ := hops j (by simp [operands])
    simp only [spec, callSpec, metadata_at hni, metadata_at hnj]
    exact Metadata.hasShape_rbind hgi.hasShape hgj.hasShape
  | transpose i =>
    obtain ⟨m, x, -, hm, hg⟩ := hops i (by simp [operands])
    simp only [spec, callSpec, metadata_at hm]
    exact Metadata.hasShape_iff.2 (Metadata.hasShape_iff.1 hg.hasShape).symm
  | diag i =>
    obtain ⟨m, x, -, hm, hg⟩ := hops i (by simp [operands])
    simp only [spec, callSpec, metadata_at hm]
    exact Metadata.hasShape_diag hg.hasShape
  | eqZero i | neqZero i =>
    obtain ⟨m, x, -, hm, hg⟩ := hops i (by simp [operands])
    simp only [spec, operatorSpec, metadata_at hm]
    exact hg.hasShape
  | reshape i rows cols => exact case.hasShape_reshapeTo _ rows cols
  | sum i | auc i j => rfl

/-- **A broken rule of two operands** is found in a node that uses them, if it is in all known metadata that breaks it. -/
theorem fault_found_pair (hi : g.Gives shape i) (hj : g.Gives shape j)
    {rule : Metadata → Metadata → Option ShapeFault} (hin : n.unnamed = [.node i, .node j])
    (hrule : g.shapeFault? n = g.pairFault? n rule) {fits : Extents → Extents → Prop} [DecidableRel fits]
    {result : Extents → Extents → Extents}
    (hres : (do
      let x ← shape i
      let y ← shape j
      if fits x y then some (result x y) else none) = none)
    (hfound : ∀ {a b : Metadata} {x y : Extents}, a.Gives x → b.Gives y → ¬ fits x y → rule a b ≠ none) :
    g.shapeFault? n ≠ none := by
  obtain ⟨ni, x, hx, hni, hgi⟩ := hi
  obtain ⟨nj, y, hy, hnj, hgj⟩ := hj
  simp only [hx, hy, Option.bind_eq_bind, Option.bind_some] at hres
  split at hres
  · cases hres
  · rename_i hbreak
    have h0 : g.positional? n 0 = some ni.metadata := by simp [Graph.positional?, hin, Graph.inputMetadata?, hni]
    have h1 : g.positional? n 1 = some nj.metadata := by simp [Graph.positional?, hin, Graph.inputMetadata?, hnj]
    rw [hrule, Graph.pairFault?, h0, h1]
    exact hfound hgi hgj hbreak

theorem fault_found_reshape (case : Estimator) {rows cols : UInt64} (hi : g.Gives shape i)
    (hfits : ∀ x, shape i = some x → x.Fits) (htarget : rows.toNat * cols.toNat < 2 ^ 64)
    (hres : (reshape i rows cols).resultOf? shape = none) :
    g.shapeFault? ((reshape i rows cols).spec g case) ≠ none := by
  obtain ⟨m, x, hx, hm, hg⟩ := hi
  simp only [resultOf?, hx, Option.bind_eq_bind, Option.bind_some] at hres
  split at hres
  · cases hres
  · rename_i hbreak
    have hd : (case.reshapeTo m.metadata rows cols).Gives ⟨rows.toNat, cols.toNat⟩ :=
      (case.describes_reshapeTo m.metadata rows cols).gives (case.hasShape_reshapeTo m.metadata rows cols)
    have hmeta : ((reshape i rows cols).spec g case).metadata = case.reshapeTo m.metadata rows cols := by
      simp only [spec, callSpec, metadata_at hm]
    have hgiven : g.positional? ((reshape i rows cols).spec g case) 0 = some m.metadata := by
      change (g.node? i).map _ = _
      rw [hm, Option.map_some]
    have hop : ((reshape i rows cols).spec g case).operation = "matrix" := rfl
    simp only [Graph.shapeFault?, hop, hgiven, Option.bind_some, hmeta]
    exact hg.reshapeFault?_ne_none hd (hfits x hx).cells_lt htarget hbreak

theorem fault_found_auc (case : Estimator) (hi : g.Gives shape i) (hj : g.Gives shape j)
    (hres : (auc i j).resultOf? shape = none) : g.shapeFault? ((auc i j).spec g case) ≠ none := by
  obtain ⟨ni, x, hx, hni, hgi⟩ := hi
  obtain ⟨nj, y, hy, hnj, hgj⟩ := hj
  simp only [resultOf?, hx, hy, Option.bind_eq_bind, Option.bind_some] at hres
  split at hres
  · cases hres
  · rename_i hbreak
    have hY : g.named? ((auc i j).spec g case) "Y" = some ni.metadata := by
      change (g.node? i).map _ = _
      rw [hni, Option.map_some]
    have hP : g.named? ((auc i j).spec g case) "P" = some nj.metadata := by
      change (g.node? j).map _ = _
      rw [hnj, Option.map_some]
    have hop : ((auc i j).spec g case).operation = "auc" := rfl
    simp only [Graph.shapeFault?, hop, hY, hP]
    exact hgi.columnFault?_ne_none hgj hbreak

/-- **The node of an application that breaks its rule has a fault**, when its operands are known. -/
theorem fault_found (case : Estimator) (hops : ∀ i ∈ a.operands, g.Gives shape i)
    (hfits : ∀ i ∈ a.operands, ∀ x, shape i = some x → x.Fits)
    (htarget : ∀ i rows cols, a = reshape i rows cols → rows.toNat * cols.toNat < 2 ^ 64)
    (hres : a.resultOf? shape = none) : g.shapeFault? (a.spec g case) ≠ none := by
  cases a with
  | matmul i j =>
    exact fault_found_pair (hops i (by simp [operands])) (hops j (by simp [operands])) rfl rfl hres
      Metadata.Gives.productFault?_ne_none
  | mul i j | add i j =>
    exact fault_found_pair (hops i (by simp [operands])) (hops j (by simp [operands])) rfl rfl hres
      Metadata.Gives.elementwiseFault?_ne_none
  | cbind i j =>
    exact fault_found_pair (hops i (by simp [operands])) (hops j (by simp [operands])) rfl rfl hres
      Metadata.Gives.cbindFault?_ne_none
  | rbind i j =>
    exact fault_found_pair (hops i (by simp [operands])) (hops j (by simp [operands])) rfl rfl hres
      Metadata.Gives.rbindFault?_ne_none
  | reshape i rows cols =>
    exact fault_found_reshape case (hops i (by simp [operands])) (hfits i (by simp [operands]))
      (htarget i rows cols rfl) hres
  | auc i j => exact fault_found_auc case (hops i (by simp [operands])) (hops j (by simp [operands])) hres
  | transpose i | diag i | sum i | eqZero i | neqZero i =>
    -- one operand with a shape always has a result
    obtain ⟨m, x, hx, -, -⟩ := hops i (by simp [operands])
    simp [resultOf?, hx] at hres

end Application
namespace Graph.MadeBy

variable {g : Graph} {origin : Nat → Origin} {actual : Nat → Extents} {root r q : Nat} {e : Extents} {n : Node}

/-- A node with a shape has a shape in everything it uses. -/
theorem isSome_below (hm : g.MadeBy origin) (hlt : r < g.size) (hr : (shapeAt? origin actual r).isSome = true)
    (hq : g.Reaches r q) : (shapeAt? origin actual q).isSome = true := by
  have hclosed : q < g.size ∧ (shapeAt? origin actual q).isSome = true := by
    refine hq.mem_of_closed (S := fun q => q < g.size ∧ (shapeAt? origin actual q).isSome = true) ⟨hlt, hr⟩ ?_
    rintro p ⟨hp, hsome⟩ i hi
    refine ⟨Nat.lt_trans (lt_of_mem_inputs hi) hp, ?_⟩
    obtain ⟨m, hmp⟩ := exists_node? hp
    cases ho : origin p with
    | source s =>
      rw [inputs_of_node? hmp, hm.spec_source hmp ho, Source.inputNodes_spec] at hi
      cases hi
    | application a =>
      obtain ⟨⟨case, hcase⟩, -⟩ := hm.spec_application hmp ho
      rw [inputs_of_node? hmp, hcase, Application.inputNodes_spec] at hi
      obtain ⟨e, he⟩ := Option.isSome_iff_exists.1 hsome
      rw [hm.shapeAt?_eq hmp ho] at he
      exact Application.isSome_operand he i hi
  exact hclosed.2

variable (hm : g.MadeBy origin) (hroot : root < g.size)
  (hsources : ∀ r n s, g.Reaches root r → g.node? r = some n → origin r = .source s → n.metadata.Gives (actual r))
  (hfits : ∀ r e, g.Reaches root r → shapeAt? origin actual r = some e → e.Fits)
include hm hroot hsources hfits

/-- **Nodes below the root that have a shape are known to have it**, by induction along the table. -/
theorem gives (hr : g.Reaches root r) (he : shapeAt? origin actual r = some e) :
    g.Gives (shapeAt? origin actual) r := by
  induction r using Nat.strongRecOn generalizing e with
  | ind r ih =>
    have hlt := hr.lt_size hroot
    obtain ⟨n, hn⟩ := exists_node? hlt
    cases ho : origin r with
    | source s => exact ⟨n, _, shapeAt?_source ho, hn, hsources r n s hr hn ho⟩
    | application a =>
      obtain ⟨⟨case, hcase⟩, hops⟩ := hm.spec_application hn ho
      have hdescribed : ∀ q n s, g.Reaches r q → g.node? q = some n → origin q = .source s →
          n.metadata.Describes (actual q) := fun q n s hq hn ho => (hsources q n s (hr.trans hq) hn ho).describes
      have hbelow : ∀ q, g.Reaches r q → ∃ e, shapeAt? origin actual q = some e ∧ e.Fits := fun q hq => by
        obtain ⟨x, hx⟩ := Option.isSome_iff_exists.1 (hm.isSome_below hlt (Option.isSome_of_eq_some he) hq)
        exact ⟨x, hx, hfits q x (hr.trans hq) hx⟩
      obtain ⟨m, x, hx, hshaped⟩ := (hm.sound hlt hdescribed hbelow (.refl g r) hn).1
      obtain rfl : n = m := Option.some.inj (hn.symm.trans hshaped.node)
      rw [hm.shapeAt?_eq hn ho] at he
      have hknown : n.metadata.hasShape = true := by
        rw [hcase]
        refine Application.hasShape_spec case (fun i hi => ?_) he
        obtain ⟨y, hy⟩ := Option.isSome_iff_exists.1 (Application.isSome_operand he i hi)
        exact ih i (lt_of_mem_inputs (hops i hi)) (hr.input (hops i hi)) hy
      exact ⟨n, x, hx, hn, hshaped.metadata.gives hknown⟩

/-- **Where a node below the root has no shape, one below the root has a fault**: the lowest without a shape. -/
theorem exists_fault
    (htargets : ∀ r a rows cols, g.Reaches root r → origin r = .application (.reshape a rows cols) →
      rows.toNat * cols.toNat < 2 ^ 64)
    (hr : g.Reaches root r) (hnone : shapeAt? origin actual r = none) :
    ∃ q n, g.Reaches root q ∧ g.node? q = some n ∧ g.shapeFault? n.toNodeSpec ≠ none := by
  induction r using Nat.strongRecOn with
  | ind r ih =>
    obtain ⟨n, hn⟩ := exists_node? (hr.lt_size hroot)
    cases ho : origin r with
    | source s =>
      rw [shapeAt?_source ho] at hnone
      cases hnone
    | application a =>
      obtain ⟨⟨case, hcase⟩, hops⟩ := hm.spec_application hn ho
      by_cases hall : ∀ i ∈ a.operands, (shapeAt? origin actual i).isSome = true
      · rw [hm.shapeAt?_eq hn ho] at hnone
        refine ⟨r, n, hr, hn, ?_⟩
        rw [hcase]
        refine Application.fault_found case (fun i hi => ?_)
          (fun i hi x hx => hfits i x (hr.input (hops i hi)) hx) (fun i rows cols heq => ?_) hnone
        · obtain ⟨x, hx⟩ := Option.isSome_iff_exists.1 (hall i hi)
          exact hm.gives hroot hsources hfits (hr.input (hops i hi)) hx
        · exact htargets r i rows cols hr (by rw [ho, heq])
      · push Not at hall
        obtain ⟨i, hi, hlow⟩ := hall
        exact ih i (lt_of_mem_inputs (hops i hi)) (hr.input (hops i hi)) (by simpa using hlow)

end Graph.MadeBy

theorem Graph.MadeBy.fault?_cases {g : Graph} {origin : Nat → Origin} (hm : g.MadeBy origin) {r : Nat} {n : Node}
    (hn : g.node? r = some n) {expected : Nat} (hctx : n.context = expected) {e : PlanError}
    (he : g.fault? expected n = some e) :
    (∃ fault, e = .validation (.shapeMismatch n.operation fault)) ∨ ∃ cause, e = .graph cause := by
  unfold Graph.fault? at he
  rw [hm.signature hn] at he
  split at he
  · rename_i cause _
    exact .inr ⟨cause, (Option.some.inj he).symm⟩
  · rw [if_neg (not_not.2 hctx)] at he
    obtain ⟨fault, -, rfl⟩ := Option.map_eq_some_iff.1 he
    exact .inl ⟨fault, rfl⟩

namespace Workspace

variable {w : Workspace} {held : Multiset Nat}

/-- **No broken rule for shapes is lost.**  In a graph that is built by sources and applications in one context, let the
metadata of the sources give their shapes, and let all counts fit in a word.  When the operands of a node below the root
break the rule of its operation, the root is rejected for a shape or for a node that is not registered, though metadata
above that node is unknown. -/
theorem Reachable.conflicts_found (h : Reachable offered w held) (hfew : ∀ c, w.graph.builtIn c ≤ 2 ^ 64) :
    (∃ origin, w.graph.MadeBy origin) ∧ ∀ (origin : Nat → Origin) (actual : Nat → Extents), w.graph.MadeBy origin →
      ∀ (root : Nat) (top : Node), w.node? root = some top →
      (∀ r n, w.graph.Reaches root r → w.node? r = some n → n.context = top.context) →
      (∀ r n s, w.graph.Reaches root r → w.node? r = some n → origin r = .source s → n.metadata.Gives (actual r)) →
      (∀ r e, w.graph.Reaches root r → shapeAt? origin actual r = some e → e.Fits) →
      (∀ r a rows cols, w.graph.Reaches root r → origin r = .application (.reshape a rows cols) →
        rows.toNat * cols.toNat < 2 ^ 64) →
      ∀ r a, w.graph.Reaches root r → origin r = .application a → a.resultOf? (shapeAt? origin actual) = none →
      ∃ e, w.graph.validate root = .error e ∧
        ((∃ operation fault, e = .validation (.shapeMismatch operation fault)) ∨ ∃ cause, e = .graph cause) := by
  refine ⟨h.madeBy, fun origin actual hm root top hroot hone hsources hfits htargets r a hr ho hbreak => ?_⟩
  have hlt : root < w.graph.size := Graph.lt_of_node? hroot
  obtain ⟨m, hmr⟩ := Graph.exists_node? (hr.lt_size hlt)
  have hnone : shapeAt? origin actual r = none := (hm.shapeAt?_eq hmr ho).trans hbreak
  obtain ⟨q, n, hq, hn, hfault⟩ := hm.exists_fault hlt hsources hfits htargets hr hnone
  cases hv : w.graph.validate root with
  | ok _ =>
    have hkeeps := Graph.keeps_of_validate_ok (h.sound.numbered.distinctNames hfew) hroot hv hq hn
    exact absurd hkeeps.shapes hfault
  | error e =>
    obtain ⟨p, m, hp, hmp, he⟩ := Graph.validate_error hroot hv
    refine ⟨e, rfl, ?_⟩
    rcases hm.fault?_cases hmp (hone p m hp hmp) he with ⟨fault, rfl⟩ | hgraph
    · exact .inl ⟨_, fault, rfl⟩
    · exact .inr hgraph

/-- A matrix of two rows and three columns, its product with itself, which has no shape, and the transpose of that. -/
def clash : Workspace :=
  let w : Workspace := (({} : Workspace).addContext ⟨Uuid.ofNat 0⟩ 0 {}).2
  let w := (w.addSource 0 (.read "x.csv" (.ofShape 2 3))).2
  let w := (w.apply (.matmul 0 0)).2
  (w.apply (.transpose 1)).2

def clashOrigin : Nat → Origin
  | 0 => .source (.read "x.csv" (.ofShape 2 3))
  | 1 => .application (.matmul 0 0)
  | _ => .application (.transpose 1)

theorem reachable_clash : Reachable offered clash {2, 1, 0} := by
  refine .tail (.tail (.tail (.single (.context _ _ _ _ _)) (.addSource ?_ _))
    (.build _ _ 0 _ ?_ ?_ (.inr ⟨.matmul 0 0, _, rfl⟩))) (.build _ _ 0 _ ?_ ?_ (.inr ⟨.transpose 1, _, rfl⟩))
  all_goals decide

theorem madeBy_clash : clash.graph.MadeBy clashOrigin := by
  intro r n hn
  have hlt : r < 3 := Graph.lt_of_node? hn
  obtain rfl | rfl | rfl : r = 0 ∨ r = 1 ∨ r = 2 := by omega
  · cases hn
    rfl
  · cases hn
    exact ⟨.average, rfl⟩
  · cases hn
    exact ⟨.average, rfl⟩

theorem builtIn_clash (c : Nat) : clash.graph.builtIn c ≤ 2 ^ 64 :=
  (clash.graph.builtIn_le_size c).trans (by decide)

/-- The product is found below its transpose, whose own operand is unknown. -/
theorem conflicts_found_clash : Reachable offered clash {2, 1, 0} ∧ clash.graph.MadeBy clashOrigin ∧
    (∃ n, clash.node? 1 = some n ∧ n.metadata = .unknown) ∧
    ∃ e, clash.graph.validate 2 = .error e ∧
      ((∃ operation fault, e = .validation (.shapeMismatch operation fault)) ∨ ∃ cause, e = .graph cause) := by
  have h0 : shapeAt? clashOrigin (fun _ => ⟨2, 3⟩) 0 = some ⟨2, 3⟩ := shapeAt?_source rfl
  have hbreak : (Application.matmul 0 0).resultOf? (shapeAt? clashOrigin fun _ => ⟨2, 3⟩) = none := by
    simp [Application.resultOf?, h0]
  have h1 : shapeAt? clashOrigin (fun _ => ⟨2, 3⟩) 1 = none := by
    rw [shapeAt?_application rfl (by decide)]
    exact hbreak
  have h2 : shapeAt? clashOrigin (fun _ => ⟨2, 3⟩) 2 = none := by
    rw [shapeAt?_application rfl (by decide)]
    simp [Application.resultOf?, h1]
  have hroot : clash.node? 2 = some clash.graph.nodes[2] := rfl
  have hsmall : ∀ r, clash.graph.Reaches 2 r → r = 0 ∨ r = 1 ∨ r = 2 := fun r hr => by
    have := hr.le
    omega
  have hone : clash.graph.Reaches 2 1 := (Graph.Reaches.refl _ 2).input (by decide)
  refine ⟨reachable_clash, madeBy_clash, ⟨_, rfl, rfl⟩, ?_⟩
  refine (reachable_clash.conflicts_found builtIn_clash).2 clashOrigin (fun _ => ⟨2, 3⟩) madeBy_clash 2 _ hroot
    (fun r n hr hn => ?_) (fun r n s hr hn ho => ?_) (fun r e hr he => ?_) (fun r a rows cols hr ho => ?_) 1
    (.matmul 0 0) hone rfl hbreak
  · obtain rfl | rfl | rfl := hsmall r hr
    all_goals
      cases hn
      rfl
  · obtain rfl | rfl | rfl := hsmall r hr
    · cases hn
      exact ⟨rfl, rfl⟩
    all_goals cases ho
  · obtain rfl | rfl | rfl := hsmall r hr
    · cases h0.symm.trans he
      exact ⟨by decide, by decide, by decide⟩
    · cases h1.symm.trans he
    · cases h2.symm.trans he
  · obtain rfl | rfl | rfl := hsmall r hr
    all_goals cases ho

end Workspace
end MatrixPlan
