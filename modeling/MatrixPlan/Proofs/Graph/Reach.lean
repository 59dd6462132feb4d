import Mathlib.Logic.Relation
import MatrixPlan.Graph.Node
/-!
# Reach — what a node uses, directly or through other nodes

A node reaches itself, its inputs and whatever they reach.  A set of nodes that holds a root and the inputs of its
members holds everything the root reaches, which is how a walk is shown to miss nothing.  Nodes are recognized by
their names where no two places of a table share one (`DistinctNames`).
-/
namespace MatrixPlan
namespace Graph

def Uses (g : Graph) (r i : Nat) : Prop := i ∈ g.inputs r

/-- **A node is the root or below it.** -/
def Reaches (g : Graph) (root r : Nat) : Prop := Relation.ReflTransGen g.Uses root r

/-- **No two places have nodes of one name.** -/
def DistinctNames (g : Graph) : Prop :=
  ∀ (r r' : Nat) (n n' : Node), g.node? r = some n → g.node? r' = some n' → n.name = n'.name → r = r'

theorem lt_of_node? {g : Graph} {r : Nat} {n : Node} (h : g.node? r = some n) : r < g.size :=
  (Array.getElem?_eq_some_iff.1 h).1

theorem exists_node? {g : Graph} {r : Nat} (h : r < g.size) : ∃ n, g.node? r = some n :=
  ⟨_, Array.getElem?_eq_getElem h⟩

section Growth

variable {g : Graph} {n : Node} (h : ∀ i ∈ n.inputNodes, i < g.size)

theorem size_add : (g.add n h).size = g.size + 1 := Array.size_push n

theorem node?_add (r : Nat) : (g.add n h).node? r = if r = g.size then some n else g.node? r := Array.getElem?_push

theorem node?_add_of_lt {r : Nat} (hr : r < g.size) : (g.add n h).node? r = g.node? r := by
  rw [node?_add, if_neg (Nat.ne_of_lt hr)]

theorem node?_add_size : (g.add n h).node? g.size = some n := by rw [node?_add, if_pos rfl]

theorem inputs_add_of_lt {r : Nat} (hr : r < g.size) : (g.add n h).inputs r = g.inputs r := by
  obtain ⟨m, hm⟩ := exists_node? hr
  rw [inputs_of_node? hm, inputs_of_node? (by rw [node?_add_of_lt h hr, hm])]

theorem inputs_add_size : (g.add n h).inputs g.size = n.inputNodes := inputs_of_node? (node?_add_size h)

end Growth

theorem Reaches.refl (g : Graph) (root : Nat) : g.Reaches root root := Relation.ReflTransGen.refl

theorem Reaches.input {g : Graph} {root r i : Nat} (h : g.Reaches root r) (hi : i ∈ g.inputs r) : g.Reaches root i :=
  Relation.ReflTransGen.tail h hi

/-- **A closed set that holds the root holds what the root reaches.** -/
theorem Reaches.mem_of_closed {g : Graph} {root r : Nat} (h : g.Reaches root r) {S : Nat → Prop} (hroot : S root)
    (hclosed : ∀ q, S q → ∀ i ∈ g.inputs q, S i) : S r := by
  induction h with
  | refl => exact hroot
  | tail _ hi ih => exact hclosed _ ih _ hi

/-- Nothing is above what uses it. -/
theorem Reaches.le {g : Graph} {root r : Nat} (h : g.Reaches root r) : r ≤ root :=
  h.mem_of_closed (S := (· ≤ root)) (Nat.le_refl root) fun _ hq _ hi =>
    Nat.le_trans (Nat.le_of_lt (lt_of_mem_inputs hi)) hq

theorem Reaches.lt_size {g : Graph} {root r : Nat} (h : g.Reaches root r) (hroot : root < g.size) : r < g.size :=
  Nat.lt_of_le_of_lt h.le hroot

end Graph
end MatrixPlan
