import MatrixPlan.Proofs.Graph.Verdict
import MatrixPlan.Proofs.Workspace.Moves
/-!
# Exactness — a validation says what the rules say

In a workspace that moves lead to, a graph passes exactly when every node below its root keeps the rules, as long as no
context has made more nodes than it has numbers.  A fault that is reported is one, whatever the numbers are.
-/
namespace MatrixPlan
namespace Workspace

variable {w : Workspace} {held : Multiset Nat} {permit : Workspace → Nat → NodeSpec → Prop}

/-- **Validation is exact with respect to the rules for one node.** -/
theorem Reachable.validate_exact (h : Reachable permit w held) (hfew : ∀ c, w.graph.builtIn c ≤ 2 ^ 64) {root : Nat}
    {top : Node} (hroot : w.node? root = some top) :
    (w.graph.validate root = .ok () ↔
      ∀ r n, w.graph.Reaches root r → w.node? r = some n → w.graph.Keeps top.context n) ∧
    ∀ e, w.graph.validate root = .error e → ∃ r n, w.graph.Reaches root r ∧ w.node? r = some n ∧
      ¬ w.graph.Keeps top.context n ∧ w.graph.fault? top.context n = some e := by
  have hd := h.sound.numbered.distinctNames hfew
  refine ⟨⟨fun hok r n hr hn => Graph.keeps_of_validate_ok hd hroot hok hr hn, Graph.validate_ok_of_keeps hroot⟩,
    fun e he => ?_⟩
  obtain ⟨r, n, hr, hn, hfault⟩ := Graph.validate_error hroot he
  refine ⟨r, n, hr, hn, fun hkeeps => ?_, hfault⟩
  rw [Graph.fault?_eq_none_iff.2 hkeeps] at hfault
  cases hfault

/-- The root is beyond the limit, and all it uses is not. -/
theorem validate_exact_crowded : Reachable anything crowded {2, 1, 0} ∧
    crowded.graph.validate 1 = .ok () ∧ crowded.graph.validate 2 ≠ .ok () := by
  refine ⟨reachable_crowded, (reachable_crowded.validate_exact builtIn_crowded rfl).1.2 fun r n hr hn => ?_, fun hok => ?_⟩
  · have hle := hr.le
    refine Graph.fault?_eq_none_iff.1 ?_
    obtain rfl | rfl : r = 0 ∨ r = 1 := by omega
    all_goals
      cases hn
      rfl
  · have hkeeps := (reachable_crowded.validate_exact builtIn_crowded rfl).1.1 hok 2 _ (.refl _ 2) rfl
    exact absurd hkeeps.registered (by decide)

end Workspace
end MatrixPlan
