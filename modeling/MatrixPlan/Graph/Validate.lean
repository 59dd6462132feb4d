import Std.Data.HashSet
import MatrixPlan.Graph.Rules
/-!
# Validate — the rules for everything a root uses

A graph is checked right before it is handed over, never while it is built.  The walk keeps a stack of nodes to look at
and the names of those it has seen; the last input of a node is looked at first.  It ends at the first node that breaks
a rule.
-/
namespace MatrixPlan
namespace Graph

/-- The nodes to look at, the next one first, and the names of those seen. -/
structure Visit where
  stack : List Nat
  seen : Std.HashSet NodeName

/-- The walk ends with an answer or goes on. -/
inductive Progress (α β : Type) where
  | done (answer : α)
  | going (next : β)

/-- Looks at the next node. -/
def visit (g : Graph) (expected : Nat) (v : Visit) : Progress (Except PlanError Unit) Visit :=
  match v.stack with
  | [] => .done (.ok ())
  | r :: stack =>
    match g.node? r with
    | none => .going { v with stack := stack }
    | some n =>
      if v.seen.contains n.name then .going { v with stack := stack }
      else match g.fault? expected n with
        | some e => .done (.error e)
        | none => .going { stack := n.inputNodes.reverse ++ stack, seen := v.seen.insert n.name }

/-- The steps that the stack is good for. -/
def Visit.weight (g : Graph) (v : Visit) : Nat := (v.stack.map g.weight).sum

theorem weight_visit {g : Graph} {expected : Nat} {v next : Visit} (h : g.visit expected v = .going next) :
    next.weight g < v.weight g := by
  unfold visit at h
  split at h
  · cases h
  · next r stack hs =>
    have hw := g.weight_eq r
    split at h
    · cases h
      simp only [Visit.weight, hs, List.map_cons, List.sum_cons]
      omega
    · next n hn =>
      rw [inputs_of_node? hn] at hw
      split at h
      · cases h
        simp only [Visit.weight, hs, List.map_cons, List.sum_cons]
        omega
      · split at h
        · cases h
        · cases h
          simp only [Visit.weight, hs, List.map_cons, List.sum_cons, List.map_append, List.map_reverse,
            List.sum_append_nat, List.sum_reverse]
          omega

def visitAll (g : Graph) (expected : Nat) (v : Visit) : Except PlanError Unit :=
  match _h : g.visit expected v with
  | .done answer => answer
  | .going next => visitAll g expected next
termination_by v.weight g
decreasing_by exact weight_visit _h

/-- Whether everything that `root` uses keeps the rules; if not, the first fault found. -/
def validate (g : Graph) (root : Nat) : Except PlanError Unit :=
  match g.node? root with
  | some n => g.visitAll n.context ⟨[root], {}⟩
  | none => .ok ()

end Graph
end MatrixPlan
