import Std.Data.HashMap
import MatrixPlan.Graph.Node
import MatrixPlan.Script.Basic
/-!
# Lowering — a graph as a script

Everything the root uses becomes one assignment, inputs before the nodes that use them, positional inputs before named
ones, left to right.  A node stands on the stack first to have its inputs looked at and again to be emitted after them.
Its statement is written when it is emitted, with the variables given out by then; a variable is named for the number
of variables before it.
-/
namespace MatrixPlan

/-- An input in a statement, nodes being called as `nameOf` says. -/
def Input.text (nameOf : Nat → String) : Input → String
  | .node r => nameOf r
  | .literal value => value.text

/-- The right side of the statement of a node. -/
def NodeSpec.expression (n : NodeSpec) (nameOf : Nat → String) : String :=
  let input := Input.text nameOf
  match n.kind with
  | .dense m => m.text
  | .constant => ", ".intercalate (n.unnamed.map input)
  | .operator => (" " ++ n.operation ++ " ").intercalate (n.unnamed.map input)
  | .call =>
    n.operation ++ "(" ++ ", ".intercalate (n.unnamed.map input ++ n.named.map fun p => p.1 ++ "=" ++ input p.2) ++ ")"

namespace Lowering

/-- The variable with so many variables before it. -/
def variableName (k : Nat) : String := "V" ++ toString k

def statement (name expression : String) : String := name ++ " = " ++ expression ++ ";"

structure State where
  /-- The nodes to look at, the next one first; marked when their inputs have been looked at. -/
  stack : List (Nat × Bool) := []
  statements : Array String := #[]
  vars : Std.HashMap NodeName String := {}

/-- The variable of a node.  Inputs are emitted before the nodes that use them, so the one not yet given out is never
answered for an input. -/
def variableOf (vars : Std.HashMap NodeName String) (n : Node) : String :=
  vars.getD n.name (variableName vars.size)

/-- The variable of the node at a place; a place without a node has none. -/
def variableAt (g : Graph) (vars : Std.HashMap NodeName String) (r : Nat) : String :=
  (g.node? r).elim "" (variableOf vars)

namespace State

/-- Whether the node at a place still has to be emitted. -/
def isWaiting (g : Graph) (s : State) (r : Nat) : Bool := (g.node? r).any fun n => !s.vars.contains n.name

/-- The state with one more node emitted. -/
def emit (g : Graph) (s : State) (n : Node) : State :=
  let name := variableName s.vars.size
  { s with
    statements := s.statements.push (statement name (n.expression (variableAt g s.vars)))
    vars := s.vars.insert n.name name }

end State

/-- Looks at a node taken from the stack. -/
def visit (g : Graph) (s : State) (r : Nat) (expanded : Bool) : State :=
  match g.node? r with
  | none => s
  | some n =>
    if s.vars.contains n.name then s
    else if expanded then s.emit g n
    else { s with stack := (n.inputNodes.filter (s.isWaiting g)).map (·, false) ++ (r, true) :: s.stack }

/-- The steps that an entry of the stack is good for. -/
def entryWeight (g : Graph) (entry : Nat × Bool) : Nat := if entry.2 then 1 else g.weight entry.1

def State.weight (g : Graph) (s : State) : Nat := (s.stack.map (entryWeight g)).sum

theorem sum_map_filter_le (f : Nat → Nat) (p : Nat → Bool) (xs : List Nat) :
    ((xs.filter p).map f).sum ≤ (xs.map f).sum := by
  induction xs with
  | nil => simp
  | cons x xs ih =>
    by_cases h : p x = true
    · simp only [List.filter_cons_of_pos h, List.map_cons, List.sum_cons]; omega
    · simp only [List.filter_cons_of_neg h, List.map_cons, List.sum_cons]; omega

theorem entryWeight_pos (g : Graph) (entry : Nat × Bool) : 0 < entryWeight g entry := by
  unfold entryWeight
  have := g.weight_eq entry.1
  split <;> omega

theorem weight_visit {g : Graph} {s : State} {r : Nat} {expanded : Bool} {stack : List (Nat × Bool)}
    (h : s.stack = (r, expanded) :: stack) : (visit g { s with stack := stack } r expanded).weight g < s.weight g := by
  have hs : s.weight g = entryWeight g (r, expanded) + (stack.map (entryWeight g)).sum := by
    rw [State.weight, h, List.map_cons, List.sum_cons]
  have hpos := entryWeight_pos g (r, expanded)
  unfold visit
  split
  · simp only [State.weight] at hs ⊢; omega
  · next n hn =>
    split
    · simp only [State.weight] at hs ⊢; omega
    · split
      · simp only [State.weight, State.emit] at hs ⊢; omega
      · next hx =>
        have hw := g.weight_eq r
        rw [Graph.inputs_of_node? hn] at hw
        have hle := sum_map_filter_le g.weight ({ s with stack := stack }.isWaiting g) n.inputNodes
        have hmap : ∀ xs : List Nat,
            ((xs.map fun i => (i, false)).map (entryWeight g)).sum = (xs.map g.weight).sum := by
          intro xs
          rw [List.map_map]
          rfl
        simp only [entryWeight, hx, Bool.false_eq_true, ↓reduceIte] at hs
        simp only [State.weight, List.map_append, List.map_cons, List.sum_append_nat, List.sum_cons, hmap] at hs ⊢
        simp only [entryWeight, ↓reduceIte]
        omega

def run (g : Graph) (s : State) : State :=
  match _h : s.stack with
  | [] => s
  | (r, expanded) :: stack => run g (visit g { s with stack := stack } r expanded)
termination_by s.weight g
decreasing_by exact weight_visit _h

def start (root : Nat) : State := { stack := [(root, false)] }

/-- The finished walk from a root. -/
def ofRoot (g : Graph) (root : Nat) : State := run g (start root)

end Lowering

/-- The script that computes a root. -/
def Script.ofGraph (g : Graph) (stamp : Stamp) (context : ContextId) (root : Nat) : Script :=
  let s := Lowering.ofRoot g root
  Script.make stamp context s.statements.toList (Lowering.variableAt g s.vars root)
    ((g.node? root).elim .none fun n => n.output)

end MatrixPlan
