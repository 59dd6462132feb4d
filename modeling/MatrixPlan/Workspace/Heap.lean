import MatrixPlan.Graph.Node
/-!
# Heap — which nodes are still owned

A node is owned by the handles bound to it and, once for each time it is used, by the living nodes that use it.  It
dies when its last owner goes, and then it stops owning its inputs.  The table keeps dead nodes, so a place is never
taken twice.  Teardown goes through a list of owners to give up and not through the graph, so a long chain of nodes is
no deeper than a short one.
-/
namespace MatrixPlan

structure Heap where
  graph : Graph
  /-- The number of owners of each node; a node without owners is dead. -/
  owners : Array Nat
  owners_size : owners.size = graph.size

namespace Heap

def empty : Heap := ⟨Graph.empty, #[], rfl⟩

def ownersOf (h : Heap) (r : Nat) : Nat := h.owners.getD r 0

def isAlive (h : Heap) (r : Nat) : Bool := decide (0 < h.ownersOf r)

def retain (h : Heap) (r : Nat) : Heap where
  graph := h.graph
  owners := h.owners.modify r (· + 1)
  owners_size := by simp [h.owners_size]

def retainAll (h : Heap) (refs : List Nat) : Heap := refs.foldl retain h

theorem graph_retainAll (h : Heap) (refs : List Nat) : (h.retainAll refs).graph = h.graph := by
  unfold retainAll
  induction refs generalizing h with
  | nil => rfl
  | cons r rs ih => rw [List.foldl_cons, ih]; rfl

/-- A new node with one owner, which owns its inputs.  A node whose inputs are not all in the table is not entered. -/
def add (h : Heap) (n : Node) : Heap :=
  if hn : ∀ i ∈ n.inputNodes, i < h.graph.size then
    let kept := h.retainAll n.inputNodes
    { graph := h.graph.add n hn
      owners := kept.owners.push 1
      owners_size := by
        rw [Array.size_push, kept.owners_size, graph_retainAll]
        simp [Graph.add, Graph.size] }
  else h

def ownerTotal (h : Heap) : Nat := h.owners.toList.sum

theorem sum_set_add (xs : List Nat) (r k : Nat) (hr : r < xs.length) : (xs.set r k).sum + xs[r] = xs.sum + k := by
  induction xs generalizing r with
  | nil => simp at hr
  | cons x xs ih =>
    cases r with
    | zero => simp only [List.set_cons_zero, List.sum_cons, List.getElem_cons_zero]; omega
    | succ r =>
      have := ih r (by simpa using hr)
      simp only [List.set_cons_succ, List.sum_cons, List.getElem_cons_succ]
      omega

def setOwners (h : Heap) (r k : Nat) (hr : r < h.owners.size) : Heap where
  graph := h.graph
  owners := h.owners.set r k
  owners_size := by rw [Array.size_set, h.owners_size]

theorem ownerTotal_setOwners (h : Heap) (r k : Nat) (hr : r < h.owners.size) :
    (h.setOwners r k hr).ownerTotal + h.owners[r] = h.ownerTotal + k := by
  unfold ownerTotal setOwners
  rw [Array.toList_set]
  have := sum_set_add h.owners.toList r k (by simpa using hr)
  simpa using this

/-- Gives up one owner of each node of a list, the first one first, and of the inputs of each node that dies; `freed`
are the nodes that have died before, in reverse.  The answer has all dead nodes in the order of their death. -/
def giveUp (h : Heap) (pending freed : List Nat) : Heap × List Nat :=
  match pending with
  | [] => (h, freed.reverse)
  | r :: rest =>
    if hr : r < h.owners.size then
      if _hk : h.owners[r] = 0 then giveUp h rest freed
      else if _hk : h.owners[r] = 1 then
        giveUp (h.setOwners r 0 hr) ((h.graph.inputs r).reverse ++ rest) (r :: freed)
      else giveUp (h.setOwners r (h.owners[r] - 1) hr) rest freed
    else giveUp h rest freed
termination_by (h.ownerTotal, pending.length)
decreasing_by
  · exact Prod.Lex.right _ (by simp)
  · have := h.ownerTotal_setOwners r 0 hr
    exact Prod.Lex.left _ _ (by omega)
  · have := h.ownerTotal_setOwners r (h.owners[r] - 1) hr
    exact Prod.Lex.left _ _ (by omega)
  · exact Prod.Lex.right _ (by simp)

/-- Gives up one owner of a node, and lists the nodes that die of it. -/
def release (h : Heap) (r : Nat) : Heap × List Nat := h.giveUp [r] []

end Heap
end MatrixPlan
