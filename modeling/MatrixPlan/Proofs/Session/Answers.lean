import MatrixPlan.Proofs.Graph.Signature
import MatrixPlan.Proofs.Session.Runs
import MatrixPlan.Proofs.Workspace.Limit
/-!
# Answers — what the answers of a run say of its handles

Moves lead to the workspace of every run, so its tables are those of the bound handles: a node lives while one of them
uses it, and the counts that are answered are those of living nodes.  In a run of sources and applications alone no node
repeats a name, so a handle that is answered to be valid has calls that bind each parameter once.
-/
namespace MatrixPlan
namespace Session

variable {s : Session} {steps : List Step} {name : String}

/-- **A node lives exactly while a handle uses it.** -/
theorem living_runAll_iff (steps : List Step) (r : Nat) : r ∈ (runAll {} steps).2.workspace.heap.living ↔
    ∃ p ∈ (runAll {} steps).2.handles, (runAll {} steps).2.workspace.graph.Reaches p.2.node r := by
  rw [(reachable_runAll steps).sound.owned.mem_living_iff]
  simp only [held, Multiset.mem_coe, List.mem_map, exists_exists_and_eq_and]
  rfl

theorem run_count {c : Nat} (hc : s.contexts.lookup name = some c) :
    s.run (.count name) = (.count (s.workspace.nodeCount c), s) := by
  simp only [run, act, context, lookup, hc]
  rfl

theorem run_operationCount {c : Nat} (hc : s.contexts.lookup name = some c) (operation : String) :
    s.run (.operationCount name operation) = (.count (s.workspace.operationCount c operation), s) := by
  simp only [run, act, context, lookup, hc]
  rfl

/-- **The counts that a session answers are those of living nodes** that were registered in the context, and no more than
its limit. -/
theorem counts_answered (steps : List Step) {c : Nat} (hc : (runAll {} steps).2.contexts.lookup name = some c) :
    let s := (runAll {} steps).2
    let counted := s.workspace.graph.registered s.workspace.heap.living c
    (s.run (.count name)).1 = .count counted.card ∧
      (∀ operation, (s.run (.operationCount name operation)).1 =
        .count (counted.filter fun n => n.operation = operation).card) ∧
      ∃ x, s.workspace.context? c = some x ∧ counted.card ≤ x.config.maxNodes.toNat := by
  intro s counted
  have hfound : lookup s.contexts "ctx" name = .ok c := by rw [lookup, hc]
  have hplaced : c < s.workspace.contexts.size := (sound_runAll steps).contexts _ (mem_of_lookup hfound)
  have hx : s.workspace.context? c = some s.workspace.contexts[c] := Array.getElem?_eq_getElem hplaced
  have haccounts := (reachable_runAll steps).sound.accounts hx
  refine ⟨?_, fun operation => ?_, _, hx, ?_⟩
  · rw [run_count hc, haccounts.nodes]
  · rw [run_operationCount hc, haccounts.operations]
  · rw [← haccounts.nodes]
    exact haccounts.limited

theorem run_validate_eq_valid_iff {h : Handle} (hh : s.handles.lookup name = some h) :
    (s.run (.validate name)).1 = .valid ↔ s.workspace.graph.validate h.node = .ok () := by
  have hfound : s.handle "a" name = .ok h := by rw [handle, lookup, hh]
  cases hverdict : s.workspace.graph.validate h.node with
  | ok u =>
    have hact : s.act (.validate name) = .ok (.valid, s) := by
      rw [act, hfound]
      simp only [Bind.bind, Except.bind, hverdict]
      rfl
    simp only [run, hact, settle]
  | error e =>
    have hact : s.act (.validate name) = .ok (.failed e, s) := by
      rw [act, hfound]
      simp only [Bind.bind, Except.bind, hverdict]
      rfl
    simp [run, hact, settle]

/-- **A handle that is answered to be valid has calls that bind each parameter once**, in a run of sources and
applications alone. -/
theorem calls_answered_valid (hoffers : offersAll steps = true)
    (hfew : ∀ c, (runAll {} steps).2.workspace.graph.builtIn c ≤ 2 ^ 64) {h : Handle}
    (hh : (runAll {} steps).2.handles.lookup name = some h)
    (hvalid : ((runAll {} steps).2.run (.validate name)).1 = .valid) {r : Nat} {n : Node} {b : Builtin}
    (hr : (runAll {} steps).2.workspace.graph.Reaches h.node r) (hn : (runAll {} steps).2.workspace.node? r = some n)
    (hk : n.kind = .call) (hb : Builtin.lookup? n.operation = some b) : n.BindsOnce b.params := by
  have hreach := reachable_offered_runAll hoffers
  obtain ⟨origin, hmade⟩ := hreach.madeBy
  have hfound : (runAll {} steps).2.handle "a" name = .ok h := by rw [handle, lookup, hh]
  have hheld := node_mem_held hfound
  obtain ⟨top, htop⟩ := Graph.exists_node? (Heap.lt_size_of_mem_living (hreach.sound.owned.mem_living hheld))
  have hnames := hreach.accepted_names hfew htop ((run_validate_eq_valid_iff hh).1 hvalid) hr hn hk hb
  exact (NodeSpec.bindsOnce_iff hk hnames (Builtin.nodup_params hb)).2 (hmade.nodup_names hn)

end Session
end MatrixPlan
