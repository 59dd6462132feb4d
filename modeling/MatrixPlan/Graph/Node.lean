import MatrixPlan.Graph.Literal
/-!
# Node — operations and the graphs they form

Nodes are never changed.  A graph is the table of all nodes built so far, in the order of building, those of different
contexts among each other; a node's inputs stand before it, so a graph has no cycle.
-/
namespace MatrixPlan

inductive Input where
  /-- The node at a place in the table of nodes. -/
  | node (ref : Nat)
  | literal (value : Literal)

namespace Input

def node? : Input → Option Nat
  | node ref => some ref
  | literal _ => none

/-- Nodes are compared by place, constants by value. -/
def same : Input → Input → Bool
  | node a, node b => a == b
  | literal a, literal b => a == b
  | _, _ => false

end Input

/-- How a node is written in a script. -/
inductive NodeKind where
  /-- `operation(unnamed, …, name=value, …)` -/
  | call
  /-- The inputs with the operation between them. -/
  | operator
  /-- The input itself. -/
  | constant
  | dense (matrix : Dense)

/-- What a node is made from, before it is entered in a context. -/
structure NodeSpec where
  operation : String
  kind : NodeKind
  output : OutputType
  unnamed : List Input := []
  named : List (String × Input) := []
  metadata : Metadata := .unknown

/-- All inputs, the positional ones first. -/
def NodeSpec.inputs (s : NodeSpec) : List Input := s.unnamed ++ s.named.map (·.2)

/-- The nodes among the inputs, in order and as often as they are used. -/
def NodeSpec.inputNodes (s : NodeSpec) : List Nat := s.inputs.filterMap Input.node?

/-- The first input of a name. -/
def NodeSpec.namedInput? (s : NodeSpec) (name : String) : Option Input :=
  (s.named.find? fun p => p.1 == name).map (·.2)

/-- A table of named inputs with one more; an input of the same name gives way. -/
def putNamed (name : String) (input : Input) : List (String × Input) → List (String × Input)
  | [] => [(name, input)]
  | p :: ps =>
    if name = p.1 then (name, input) :: ps
    else if name < p.1 then (name, input) :: p :: ps
    else p :: putNamed name input ps

/-- The named inputs sorted by name, of inputs with one name the last. -/
def NodeSpec.namedInputMap (s : NodeSpec) : List (String × Input) :=
  s.named.foldl (fun table p => putNamed p.1 p.2 table) []

def NodeSpec.dense? (s : NodeSpec) : Option Dense :=
  match s.kind with
  | .dense m => some m
  | _ => none

/-- What a node is known by: the place of its context and its number there. -/
structure NodeName where
  context : Nat
  id : UInt64
  deriving DecidableEq, Hashable, Repr

structure Node extends NodeSpec where
  context : Nat
  id : UInt64
  /-- Why it is not in the registry of its context, if it is not. -/
  registration : Option GraphError

def Node.name (n : Node) : NodeName := ⟨n.context, n.id⟩

structure Graph where
  nodes : Array Node
  inputs_before : ∀ r (h : r < nodes.size), ∀ i ∈ nodes[r].inputNodes, i < r

namespace Graph

def empty : Graph := ⟨#[], by intro r h; simp at h⟩

def size (g : Graph) : Nat := g.nodes.size

def node? (g : Graph) (r : Nat) : Option Node := g.nodes[r]?

/-- The nodes that a node uses, in order and as often as it uses them. -/
def inputs (g : Graph) (r : Nat) : List Nat :=
  match g.nodes[r]? with
  | some n => n.inputNodes
  | none => []

theorem inputs_of_node? {g : Graph} {r : Nat} {n : Node} (h : g.node? r = some n) : g.inputs r = n.inputNodes := by
  unfold node? at h
  rw [inputs, h]

/-- A node's inputs stand before it. -/
theorem lt_of_mem_inputs {g : Graph} {r i : Nat} (h : i ∈ g.inputs r) : i < r := by
  unfold inputs at h
  split at h
  · next n hn =>
    obtain ⟨hr, rfl⟩ := Array.getElem?_eq_some_iff.1 hn
    exact g.inputs_before r hr i h
  · simp at h

/-- The graph with one more node, whose inputs are in the graph. -/
def add (g : Graph) (n : Node) (h : ∀ i ∈ n.inputNodes, i < g.size) : Graph where
  nodes := g.nodes.push n
  inputs_before := by
    intro r hr i hi
    rw [Array.getElem_push] at hi
    split at hi
    · next hlt => exact g.inputs_before r hlt i hi
    · rw [Array.size_push] at hr
      have := h i hi
      unfold size at this
      omega

/-- An upper bound of the steps of a walk over everything below a node that takes each path on its own.  It shows that
walks end, and is never computed. -/
def weight (g : Graph) (r : Nat) : Nat :=
  2 + ((g.inputs r).attach.map fun i => g.weight i.1).sum
termination_by r
decreasing_by exact lt_of_mem_inputs i.2

theorem weight_eq (g : Graph) (r : Nat) : g.weight r = 2 + ((g.inputs r).map g.weight).sum := by
  rw [weight]
  simp

end Graph
end MatrixPlan
