import MatrixPlan.Proofs.Graph.Uncounted
import MatrixPlan.Proofs.Workspace.Moves
import MatrixPlan.Proofs.Workspace.Shapes
/-!
# Uncounted — workspaces that differ in non-zero counts alone

What happens to a workspace without the non-zero counts of its nodes and the estimators of its contexts is what happens
to the workspace, without these: counts and estimators have effects on counts alone.
-/
namespace MatrixPlan

namespace Heap

/-- A heap without the non-zero counts of its nodes. -/
def uncounted (h : Heap) : Heap := ⟨h.graph.uncounted, h.owners, h.owners_size.trans h.graph.size_uncounted.symm⟩

theorem ext {h h' : Heap} (hg : h.graph = h'.graph) (ho : h.owners = h'.owners) : h = h' := by
  cases h
  cases h'
  cases hg
  cases ho
  rfl

theorem retainAll_uncounted (h : Heap) (refs : List Nat) : (h.retainAll refs).uncounted = h.uncounted.retainAll refs := by
  unfold retainAll
  induction refs generalizing h with
  | nil => rfl
  | cons r refs ih => exact ih (h.retain r)

theorem add_uncounted (h : Heap) (n : Node) : (h.add n).uncounted = h.uncounted.add n.uncounted := by
  have hsize : h.uncounted.graph.size = h.graph.size := h.graph.size_uncounted
  unfold add
  by_cases hn : ∀ i ∈ n.inputNodes, i < h.graph.size
  · have hn' : ∀ i ∈ n.uncounted.inputNodes, i < h.uncounted.graph.size := by rwa [hsize]
    rw [dif_pos hn, dif_pos hn']
    refine ext (Graph.ext ?_) ?_
    · change (h.graph.nodes.push n).map Node.uncounted = (h.graph.nodes.map Node.uncounted).push n.uncounted
      rw [Array.map_push]
    · change (h.retainAll n.inputNodes).owners.push 1 = (h.uncounted.retainAll n.inputNodes).owners.push 1
      rw [← retainAll_uncounted]
      rfl
  · have hn' : ¬ ∀ i ∈ n.uncounted.inputNodes, i < h.uncounted.graph.size := by rwa [hsize]
    rw [dif_neg hn, dif_neg hn']

theorem giveUp_uncounted (h : Heap) (pending freed : List Nat) :
    h.uncounted.giveUp pending freed = ((h.giveUp pending freed).1.uncounted, (h.giveUp pending freed).2) := by
  -- the walk reads owners and inputs, which are the same in each case
  fun_induction giveUp h pending freed with
  | case1 h freed => rw [giveUp]
  | case2 h freed r rest hr hk ih =>
    have hr' : r < h.uncounted.owners.size := hr
    have hk' : h.uncounted.owners[r] = 0 := hk
    rw [giveUp, dif_pos hr', dif_pos hk']
    exact ih
  | case3 h freed r rest hr hk hone ih =>
    have hr' : r < h.uncounted.owners.size := hr
    have hk' : ¬ h.uncounted.owners[r] = 0 := hk
    have hone' : h.uncounted.owners[r] = 1 := hone
    have hin : h.uncounted.graph.inputs r = h.graph.inputs r := h.graph.inputs_uncounted r
    rw [giveUp, dif_pos hr', dif_neg hk', dif_pos hone', hin]
    exact ih
  | case4 h freed r rest hr hk hone ih =>
    have hr' : r < h.uncounted.owners.size := hr
    have hk' : ¬ h.uncounted.owners[r] = 0 := hk
    have hone' : ¬ h.uncounted.owners[r] = 1 := hone
    rw [giveUp, dif_pos hr', dif_neg hk', dif_neg hone']
    exact ih
  | case5 h freed r rest hr ih =>
    have hr' : ¬ r < h.uncounted.owners.size := hr
    rw [giveUp, dif_neg hr']
    exact ih

end Heap

def Config.uncounted (c : Config) : Config := { c with estimator := .average }

/-- A context that estimates by averages. -/
def Context.uncounted (x : Context) : Context := { x with config := x.config.uncounted }

theorem Context.next_uncounted (x : Context) (operation : String) :
    x.uncounted.next operation = (x.next operation).uncounted := by
  have hfull : x.uncounted.config.maxNodes.toNat ≤ x.uncounted.registry.registered ↔
      x.config.maxNodes.toNat ≤ x.registry.registered := Iff.rfl
  unfold next
  by_cases h : x.config.maxNodes.toNat ≤ x.registry.registered
  · rw [if_pos (hfull.2 h), if_pos h]
    rfl
  · rw [if_neg (mt hfull.1 h), if_neg h]
    rfl

namespace Source

/-- A source whose given metadata has no non-zero count. -/
def uncounted : Source → Source
  | read path metadata => read path metadata.uncounted
  | s => s

theorem spec_uncounted (s : Source) : s.uncounted.spec.uncounted = s.spec.uncounted := by
  cases s <;> rfl

end Source

/-- Graphs that differ in counts alone have nodes at the same places, which differ in counts alone. -/
theorem Graph.node?_of_uncounted_eq {g g' : Graph} (hg : g.uncounted = g'.uncounted) (r : Nat) :
    (g.node? r = none ∧ g'.node? r = none) ∨
      ∃ n n', g.node? r = some n ∧ g'.node? r = some n' ∧ n.uncounted = n'.uncounted := by
  have hr : (g.node? r).map Node.uncounted = (g'.node? r).map Node.uncounted := by
    rw [← g.node?_uncounted, ← g'.node?_uncounted, hg]
  cases hn : g.node? r with
  | none =>
    rw [hn] at hr
    exact .inl ⟨rfl, Option.map_eq_none_iff.1 hr.symm⟩
  | some n =>
    rw [hn] at hr
    obtain ⟨n', hn', heq⟩ := Option.map_eq_some_iff.1 hr.symm
    exact .inr ⟨n, n', rfl, hn', heq.symm⟩

theorem Node.eq_of_uncounted_eq {n n' : Node} (h : n.uncounted = n'.uncounted) :
    n' = { n with metadata := ⟨n.metadata.rows, n.metadata.cols, n'.metadata.nnz⟩ } := by
  obtain ⟨⟨_, _, _, _, _, _, _, _⟩, _, _, _⟩ := n
  obtain ⟨⟨_, _, _, _, _, _, _, _⟩, _, _, _⟩ := n'
  cases h
  rfl

theorem Node.dense?_of_uncounted_eq {n n' : Node} (h : n.uncounted = n'.uncounted) : n.dense? = n'.dense? :=
  (congrArg (fun m : Node => m.dense?) h :)

theorem Node.metadata_of_uncounted_eq {n n' : Node} (h : n.uncounted = n'.uncounted) :
    n.metadata.uncounted = n'.metadata.uncounted := congrArg (fun m : Node => m.metadata) h

namespace Application

variable {g g' : Graph}

theorem uncounted_operatorSpec (operation : String) (left right : Input) {m m' : Metadata}
    (h : m.uncounted = m'.uncounted) :
    (operatorSpec operation left right m).uncounted = (operatorSpec operation left right m').uncounted :=
  congrArg (operatorSpec operation left right) h

theorem uncounted_callSpec (operation : String) (inputs : List Input) {m m' : Metadata}
    (h : m.uncounted = m'.uncounted) :
    (callSpec operation inputs m).uncounted = (callSpec operation inputs m').uncounted :=
  congrArg (callSpec operation inputs) h

/-- **Nodes that are made from an application differ in their counts alone** where the nodes of the graphs do. -/
theorem spec_uncounted (hg : g.uncounted = g'.uncounted) (case case' : Estimator) (a : Application Nat) :
    (a.spec g case).uncounted = (a.spec g' case').uncounted := by
  have hat : ∀ r, ((g.node? r).elim .unknown fun n => n.metadata).uncounted =
      ((g'.node? r).elim .unknown fun n => n.metadata).uncounted := fun r => by
    obtain ⟨hn, hn'⟩ | ⟨n, n', hn, hn', heq⟩ := Graph.node?_of_uncounted_eq hg r
    · rw [hn, hn']
    · rw [hn, hn']
      exact Node.metadata_of_uncounted_eq heq
  cases a with
  | matmul a b =>
    rw [spec_matmul, spec_matmul]
    refine uncounted_operatorSpec _ _ _ ?_
    obtain ⟨ha, ha'⟩ | ⟨n, n', ha, ha', hn⟩ := Graph.node?_of_uncounted_eq hg a
    · rw [ha, ha']
    · obtain ⟨hb, hb'⟩ | ⟨m, m', hb, hb', hm⟩ := Graph.node?_of_uncounted_eq hg b
      · rw [ha, ha', hb, hb']
      · rw [ha, ha', hb, hb']
        exact Estimator.uncounted_productOf case case' (Node.metadata_of_uncounted_eq hn)
          (Node.metadata_of_uncounted_eq hm) (Node.dense?_of_uncounted_eq hn) (Node.dense?_of_uncounted_eq hm)
  | mul a b | add a b =>
    exact uncounted_operatorSpec _ _ _ (Estimator.uncounted_metadata_pair case case' _ (hat a) (hat b))
  | cbind a b | rbind a b =>
    exact uncounted_callSpec _ _ (Estimator.uncounted_metadata_pair case case' _ (hat a) (hat b))
  | transpose a | diag a => exact uncounted_callSpec _ _ (Estimator.uncounted_metadata case case' _ (hat a))
  | eqZero a | neqZero a => exact uncounted_operatorSpec _ _ _ (Estimator.uncounted_metadata case case' _ (hat a))
  | reshape a rows cols =>
    exact congrArg (fun n : NodeSpec => { n with
      named := [("rows", .literal (.ofCount rows)), ("cols", .literal (.ofCount cols))] })
      (uncounted_callSpec "matrix" [.node a] (Estimator.uncounted_reshapeTo case case' (hat a) rows cols))
  | sum a | auc y p => rfl

end Application

namespace Workspace

/-- A workspace without the non-zero counts of its nodes and the estimators of its contexts. -/
def uncounted (w : Workspace) : Workspace :=
  { w with heap := w.heap.uncounted, contexts := w.contexts.map Context.uncounted }

variable (w : Workspace)

theorem node?_uncounted (r : Nat) : w.uncounted.node? r = (w.node? r).map Node.uncounted := w.graph.node?_uncounted r

theorem context?_uncounted (c : Nat) : w.uncounted.context? c = (w.context? c).map Context.uncounted :=
  Array.getElem?_map

theorem contextAt_uncounted (r : Nat) :
    ((w.uncounted.node? r).elim 0 fun n => n.context) = (w.node? r).elim 0 fun n => n.context := by
  rw [node?_uncounted]
  cases w.node? r <;> rfl

theorem ext {w w' : Workspace} (hh : w.heap = w'.heap) (hc : w.contexts = w'.contexts) (he : w.engines = w'.engines) :
    w = w' := by
  cases w
  cases w'
  cases hh
  cases hc
  cases he
  rfl

theorem build_uncounted (c : Nat) (spec : NodeSpec) :
    w.uncounted.build c spec.uncounted = Prod.map id uncounted (w.build c spec) := by
  have hsize : w.uncounted.graph.size = w.graph.size := w.graph.size_uncounted
  cases hx : w.context? c with
  | none =>
    have hx' : w.uncounted.context? c = none := by rw [context?_uncounted, hx, Option.map_none]
    unfold build
    rw [hx, hx', hsize]
    rfl
  | some x =>
    have hx' : w.uncounted.context? c = some x.uncounted := by rw [context?_uncounted, hx, Option.map_some]
    have hnode : x.uncounted.nodeOf c spec.uncounted = (x.nodeOf c spec).uncounted := rfl
    have hnext : x.uncounted.next spec.uncounted.operation = (x.next spec.operation).uncounted :=
      x.next_uncounted spec.operation
    rw [build_eq hx, build_eq hx', hnode, hnext, hsize]
    refine congrArg (Prod.mk _) (ext ?_ ?_ rfl)
    · exact (w.heap.add_uncounted _).symm
    · exact Array.map_setIfInBounds.symm

theorem build_of_uncounted_eq {w' : Workspace} (h : w.uncounted = w'.uncounted) (c : Nat) {spec spec' : NodeSpec}
    (hspec : spec.uncounted = spec'.uncounted) :
    Prod.map id uncounted (w.build c spec) = Prod.map id uncounted (w'.build c spec') := by
  rw [← build_uncounted, ← build_uncounted, h, hspec]

theorem addSource_of_uncounted_eq {w' : Workspace} (h : w.uncounted = w'.uncounted) (c : Nat) (source : Source) :
    Prod.map id uncounted (w.addSource c source) = Prod.map id uncounted (w'.addSource c source.uncounted) :=
  w.build_of_uncounted_eq h c source.spec_uncounted.symm

/-- **An operation on nodes makes nodes alike**, whichever estimators are used. -/
theorem apply_of_uncounted_eq {w' : Workspace} (h : w.uncounted = w'.uncounted) (a : Application Nat) :
    Prod.map id uncounted (w.apply a) = Prod.map id uncounted (w'.apply a) := by
  have hg : w.graph.uncounted = w'.graph.uncounted := congrArg graph h
  have hc : ((w.node? a.first).elim 0 fun n => n.context) = (w'.node? a.first).elim 0 fun n => n.context := by
    rw [← contextAt_uncounted, h, contextAt_uncounted]
  unfold apply
  dsimp only
  rw [hc]
  exact w.build_of_uncounted_eq h _ (a.spec_uncounted hg _ _)

theorem uncount_uncounted (g : Graph) (contexts : Array Context) (r : Nat) :
    uncount g.uncounted (contexts.map Context.uncounted) r = (uncount g contexts r).map Context.uncounted := by
  unfold uncount
  rw [Graph.node?_uncounted]
  cases g.node? r with
  | none => rfl
  | some n =>
    rw [Option.map_some]
    dsimp only
    rw [show n.uncounted.registration = n.registration from rfl]
    split
    · change (contexts.map Context.uncounted).modify n.context
        (fun c => { c with registry := c.registry.leave n.operation }) = _
      refine Array.ext (by simp) fun i hi hi' => ?_
      simp only [Array.getElem_modify, Array.getElem_map]
      split <;> rfl
    · rfl

theorem foldl_uncount_uncounted (g : Graph) (contexts : Array Context) (freed : List Nat) :
    freed.foldl (uncount g.uncounted) (contexts.map Context.uncounted) =
      (freed.foldl (uncount g) contexts).map Context.uncounted := by
  induction freed generalizing contexts with
  | nil => rfl
  | cons r freed ih => rw [List.foldl_cons, List.foldl_cons, uncount_uncounted, ih]

theorem drop_uncounted (r : Nat) : w.uncounted.drop r = (w.drop r).uncounted := by
  have hrelease : w.uncounted.heap.release r = ((w.heap.release r).1.uncounted, (w.heap.release r).2) :=
    w.heap.giveUp_uncounted [r] []
  unfold drop
  rw [hrelease]
  exact ext rfl (foldl_uncount_uncounted _ _ _) rfl

theorem addContext_uncounted (name : ContextId) (engine : Nat) (config : Config) :
    w.uncounted.addContext name engine config.uncounted = Prod.map id uncounted (w.addContext name engine config) := by
  have hsize : (w.contexts.map Context.uncounted).size = w.contexts.size := Array.size_map
  unfold addContext
  change ((w.contexts.map Context.uncounted).size, _) = (_, _)
  rw [hsize]
  refine congrArg (Prod.mk _) (ext rfl ?_ rfl)
  change (w.contexts.map Context.uncounted).push _ = (w.contexts.push _).map Context.uncounted
  rw [Array.map_push]
  rfl

theorem nodeCount_uncounted (c : Nat) : w.uncounted.nodeCount c = w.nodeCount c := by
  rw [nodeCount, nodeCount, context?_uncounted]
  cases w.context? c <;> rfl

theorem operationCount_uncounted (c : Nat) (operation : String) :
    w.uncounted.operationCount c operation = w.operationCount c operation := by
  rw [operationCount, operationCount, context?_uncounted]
  cases w.context? c <;> rfl

theorem placeOf?_uncounted (id : ContextId) : w.uncounted.placeOf? id = w.placeOf? id := Array.findIdx?_map

/-- **Scripts of a workspace do not depend on counts and estimators.** -/
theorem script_uncounted (stamp : Stamp) (root : Nat) : w.uncounted.script stamp root = w.script stamp root := by
  have hgraph : w.uncounted.graph = w.graph.uncounted := rfl
  unfold script
  dsimp only
  rw [hgraph, Script.ofGraph_uncounted, contextAt_uncounted, context?_uncounted]
  cases w.context? _ <;> rfl

theorem execute_uncounted (engine : Nat) (s : Script) :
    w.uncounted.execute engine s = Prod.map id uncounted (w.execute engine s) := by
  unfold execute
  rw [show w.uncounted.engines = w.engines from rfl]
  cases w.engines[engine]? <;> rfl

/-- **What is handed over, and the answer to it,** do not depend on counts and estimators. -/
theorem submit_uncounted (stamp : Stamp) (root : Nat) :
    w.uncounted.submit stamp root = Prod.map id uncounted (w.submit stamp root) := by
  have hgraph : w.uncounted.graph = w.graph.uncounted := rfl
  have hcontext : ((w.uncounted.node? root).bind fun n => w.uncounted.context? n.context) =
      ((w.node? root).bind fun n => w.context? n.context).map Context.uncounted := by
    rw [node?_uncounted]
    cases w.node? root with
    | none => rfl
    | some n => exact w.context?_uncounted n.context
  unfold submit
  rw [hcontext, hgraph, Graph.validate_uncounted, script_uncounted]
  cases (w.node? root).bind fun n => w.context? n.context with
  | none => rfl
  | some x =>
    rw [Option.map_some]
    dsimp only
    rw [show x.uncounted.config.validateOnSubmit = x.config.validateOnSubmit from rfl,
      show x.uncounted.engine = x.engine from rfl, execute_uncounted]
    cases (if x.config.validateOnSubmit = true then w.graph.validate root else .ok ()) <;> rfl

end Workspace
end MatrixPlan
