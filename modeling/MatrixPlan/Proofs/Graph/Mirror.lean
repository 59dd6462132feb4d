import Mathlib.Data.Set.Function
import MatrixPlan.Proofs.Graph.Reach
/-!
# Mirror — graphs of one structure

A graph below a root mirrors another one when a bijection of their nodes keeps kinds, operations, matrices and inputs in
their order (`Mirrors`).  Places, numbers, contexts and metadata are free.  Doubles are equal when their bits are, all
patterns of `nan` being one double.
-/
namespace MatrixPlan

/-- An input whose node is called as `f` says. -/
def Input.renamed (f : Nat → Nat) : Input → Input
  | .node r => .node (f r)
  | .literal value => .literal value

/-- **What a node is made from is the same** but for the places of the nodes it uses, which `f` relates. -/
structure NodeSpec.Mirrors (f : Nat → Nat) (n n' : NodeSpec) : Prop where
  operation : n'.operation = n.operation
  /-- The kind, and the matrix of a node that is one. -/
  kind : n'.kind = n.kind
  unnamed : n'.unnamed = n.unnamed.map (Input.renamed f)
  named : n'.named = n.named.map fun p => (p.1, p.2.renamed f)

/-- **Two roots of graphs of one structure.** -/
structure Graph.Mirrors (g : Graph) (root : Nat) (g' : Graph) (root' : Nat) (f : Nat → Nat) : Prop where
  bijective : Set.BijOn f {r | g.Reaches root r} {r | g'.Reaches root' r}
  roots : f root = root'
  nodes : ∀ r n, g.Reaches root r → g.node? r = some n →
    ∃ n', g'.node? (f r) = some n' ∧ n.toNodeSpec.Mirrors f n'.toNodeSpec

namespace NodeSpec

variable {f : Nat → Nat} {n n' : NodeSpec}

theorem Mirrors.refl (n : NodeSpec) : n.Mirrors id n := by
  have hin : Input.renamed id = id := by
    funext i
    cases i <;> rfl
  refine ⟨rfl, rfl, by rw [hin, List.map_id], ?_⟩
  simp [hin]

theorem Mirrors.inputNodes (h : n.Mirrors f n') : n'.inputNodes = n.inputNodes.map f := by
  have hin : n'.inputs = n.inputs.map (Input.renamed f) := by
    rw [inputs, inputs, h.unnamed, h.named, List.map_append, List.map_map, List.map_map]
    rfl
  have hnode : Input.node? ∘ Input.renamed f = fun i => (Input.node? i).map f := by
    funext i
    cases i <;> rfl
  rw [NodeSpec.inputNodes, NodeSpec.inputNodes, hin, List.filterMap_map, hnode, List.map_filterMap]

end NodeSpec
end MatrixPlan
