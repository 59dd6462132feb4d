import MatrixPlan.Graph.Validate
import MatrixPlan.Script.Lowering
import MatrixPlan.Proofs.Graph.Reach
import MatrixPlan.Proofs.Metadata.Uncounted
/-!
# Uncounted — verdicts and scripts do not depend on non-zero counts

A graph without the non-zero counts of its nodes gets the same verdicts, with the same faults, and becomes the same
scripts.
-/
namespace MatrixPlan

def NodeSpec.uncounted (n : NodeSpec) : NodeSpec := { n with metadata := n.metadata.uncounted }

def Node.uncounted (n : Node) : Node := { n with metadata := n.metadata.uncounted }

namespace Graph

/-- A graph without the non-zero counts of its nodes. -/
def uncounted (g : Graph) : Graph where
  nodes := g.nodes.map Node.uncounted
  inputs_before r h i hi := by
    rw [Array.getElem_map] at hi
    exact g.inputs_before r (by simpa using h) i hi

variable (g : Graph)

theorem ext {g g' : Graph} (h : g.nodes = g'.nodes) : g = g' := by
  cases g
  cases g'
  cases h
  rfl

theorem node?_uncounted (r : Nat) : g.uncounted.node? r = (g.node? r).map Node.uncounted := Array.getElem?_map

theorem size_uncounted : g.uncounted.size = g.size := Array.size_map

theorem inputs_uncounted (r : Nat) : g.uncounted.inputs r = g.inputs r := by
  cases h : g.node? r with
  | none =>
    have hu : g.uncounted.node? r = none := by rw [node?_uncounted, h, Option.map_none]
    unfold node? at h hu
    rw [inputs, inputs, h, hu]
  | some n =>
    rw [inputs_of_node? h, inputs_of_node? (by rw [node?_uncounted, h, Option.map_some])]
    rfl

theorem inputMetadata?_uncounted (i : Input) :
    g.uncounted.inputMetadata? i = (g.inputMetadata? i).map Metadata.uncounted := by
  cases i with
  | literal value => rfl
  | node r =>
    rw [inputMetadata?, inputMetadata?, node?_uncounted, Option.map_map, Option.map_map]
    rfl

theorem positional?_uncounted (n : NodeSpec) (k : Nat) :
    g.uncounted.positional? n.uncounted k = (g.positional? n k).map Metadata.uncounted := by
  rw [positional?, positional?, Option.map_bind]
  exact congrArg _ (funext fun i => g.inputMetadata?_uncounted i)

theorem named?_uncounted (n : NodeSpec) (name : String) :
    g.uncounted.named? n.uncounted name = (g.named? n name).map Metadata.uncounted := by
  rw [named?, named?, Option.map_bind]
  exact congrArg _ (funext fun i => g.inputMetadata?_uncounted i)

theorem pairFault?_uncounted (n : NodeSpec) {rule : Metadata → Metadata → Option ShapeFault}
    (hrule : ∀ a b, rule a.uncounted b.uncounted = rule a b) :
    g.uncounted.pairFault? n.uncounted rule = g.pairFault? n rule := by
  rw [pairFault?, pairFault?, positional?_uncounted, positional?_uncounted]
  cases g.positional? n 0 with
  | none => rfl
  | some a =>
    cases g.positional? n 1 with
    | none => rfl
    | some b => exact hrule a b

theorem shapeFault?_uncounted (n : NodeSpec) : g.uncounted.shapeFault? n.uncounted = g.shapeFault? n := by
  have hop : n.uncounted.operation = n.operation := rfl
  unfold shapeFault?
  rw [hop]
  split
  · rw [named?_uncounted, named?_uncounted]
    cases g.named? n "Y" <;> cases g.named? n "P" <;> rfl
  · exact g.pairFault?_uncounted n fun _ _ => rfl
  · exact g.pairFault?_uncounted n fun _ _ => rfl
  · exact g.pairFault?_uncounted n fun _ _ => rfl
  · exact g.pairFault?_uncounted n fun _ _ => rfl
  · exact g.pairFault?_uncounted n fun _ _ => rfl
  · rw [positional?_uncounted]
    cases g.positional? n 0 <;> rfl
  · rfl

theorem fault?_uncounted (expected : Nat) (n : Node) :
    g.uncounted.fault? expected n.uncounted = g.fault? expected n := by
  have hshape : g.uncounted.shapeFault? n.uncounted.toNodeSpec = g.shapeFault? n.toNodeSpec :=
    g.shapeFault?_uncounted n.toNodeSpec
  unfold fault?
  rw [hshape]
  rfl

theorem visit_uncounted (expected : Nat) (v : Visit) : g.uncounted.visit expected v = g.visit expected v := by
  unfold visit
  cases v.stack with
  | nil => rfl
  | cons r stack =>
    dsimp only
    rw [node?_uncounted]
    cases g.node? r with
    | none => rfl
    | some n =>
      rw [Option.map_some]
      dsimp only
      rw [fault?_uncounted]
      rfl

theorem visitAll_uncounted (expected : Nat) (v : Visit) : g.uncounted.visitAll expected v = g.visitAll expected v := by
  fun_induction visitAll g expected v with
  | case1 v answer h =>
    rw [← visit_uncounted] at h
    rw [visitAll]
    split
    · rename_i answer' h'
      cases h.symm.trans h'
      rfl
    · rename_i next h'
      cases h.symm.trans h'
  | case2 v next h ih =>
    rw [← visit_uncounted] at h
    rw [visitAll]
    split
    · rename_i answer h'
      cases h.symm.trans h'
    · rename_i next' h'
      cases h.symm.trans h'
      exact ih

/-- **A verdict does not depend on non-zero counts**, nor does the fault that it reports. -/
theorem validate_uncounted (root : Nat) : g.uncounted.validate root = g.validate root := by
  unfold validate
  rw [node?_uncounted]
  cases g.node? root with
  | none => rfl
  | some n => exact g.visitAll_uncounted n.context _

end Graph

namespace Lowering

variable (g : Graph)

theorem variableAt_uncounted (vars : Std.HashMap NodeName String) :
    variableAt g.uncounted vars = variableAt g vars := by
  funext r
  rw [variableAt, variableAt, Graph.node?_uncounted]
  cases g.node? r <;> rfl

theorem isWaiting_uncounted (s : State) : s.isWaiting g.uncounted = s.isWaiting g := by
  funext r
  rw [State.isWaiting, State.isWaiting, Graph.node?_uncounted]
  cases g.node? r <;> rfl

theorem visit_uncounted (s : State) (r : Nat) (expanded : Bool) :
    visit g.uncounted s r expanded = visit g s r expanded := by
  unfold visit State.emit
  rw [Graph.node?_uncounted]
  cases g.node? r with
  | none => rfl
  | some n =>
    rw [Option.map_some]
    dsimp only
    rw [variableAt_uncounted, isWaiting_uncounted]
    rfl

theorem run_uncounted (s : State) : run g.uncounted s = run g s := by
  fun_induction run g s with
  | case1 s h =>
    rw [run]
    split
    · rfl
    · rename_i h'
      cases h.symm.trans h'
  | case2 s r expanded stack h ih =>
    rw [run]
    split
    · rename_i h'
      cases h.symm.trans h'
    · rename_i h'
      cases h.symm.trans h'
      rw [visit_uncounted]
      exact ih

end Lowering

/-- **A script does not depend on non-zero counts.** -/
theorem Script.ofGraph_uncounted (g : Graph) (stamp : Stamp) (context : ContextId) (root : Nat) :
    Script.ofGraph g.uncounted stamp context root = Script.ofGraph g stamp context root := by
  unfold Script.ofGraph Lowering.ofRoot
  dsimp only
  rw [Lowering.run_uncounted, Lowering.variableAt_uncounted, Graph.node?_uncounted]
  cases g.node? root <;> rfl

end MatrixPlan
