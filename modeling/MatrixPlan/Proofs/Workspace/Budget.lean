import MatrixPlan.Proofs.Graph.Verdict
import MatrixPlan.Proofs.Script.Correctness
import MatrixPlan.Proofs.Workspace.Limit
/-!
# Budget — a graph that passes is no longer than the registry of its context

The statements of a script are those of different nodes below the root.  If the root is held they are alive, and if it
passes they are registered in its context, so the registry counts each of them.
-/
namespace MatrixPlan

namespace Graph

variable {g : Graph} {c : Nat}

theorem registered_mono {few many : Multiset Nat} (h : few ≤ many) (c : Nat) :
    g.registered few c ≤ g.registered many c :=
  Multiset.filter_le_filter _ (Multiset.filterMap_le_filterMap _ h)

/-- **Different living nodes that are registered in a context** are no more than it counts. -/
theorem length_le_card_registered {refs : List Nat} {living : Multiset Nat} (hnodup : refs.Nodup)
    (hliving : ∀ r ∈ refs, r ∈ living)
    (hreg : ∀ r ∈ refs, ∃ n, g.node? r = some n ∧ n.context = c ∧ n.registration = none) :
    refs.length ≤ (g.registered living c).card := by
  have hle : (refs : Multiset Nat) ≤ living := (Multiset.le_iff_subset (Multiset.coe_nodup.2 hnodup)).2 hliving
  have hcard : (g.registered refs c).card = refs.length := by
    clear hle hnodup hliving
    induction refs with
    | nil => rfl
    | cons r refs ih =>
      obtain ⟨n, hn, hcounted⟩ := hreg r List.mem_cons_self
      rw [← Multiset.cons_coe, registered_cons hn, if_pos hcounted, Multiset.card_cons,
        ih fun q hq => hreg q (List.mem_cons_of_mem r hq), List.length_cons]
  rw [← hcard]
  exact Multiset.card_le_card (registered_mono hle c)

end Graph

namespace Workspace

variable {w : Workspace} {held : Multiset Nat} {root : Nat} {top : Node}

/-- **A held root that passes has no more statements than its context counts nodes.** -/
theorem Sound.length_statements_le (h : Sound w held) (hfew : ∀ c, w.graph.builtIn c ≤ 2 ^ 64)
    (hroot : w.node? root = some top) (hheld : root ∈ held) (hok : w.graph.validate root = .ok ()) (stamp : Stamp) :
    (w.script stamp root).statements.length ≤ w.nodeCount top.context := by
  have hd := h.numbered.distinctNames hfew
  have hlt : root < w.graph.size := Graph.lt_of_node? hroot
  obtain ⟨order, hs, he⟩ := Lowering.ofRoot_sound hd hlt
  have hlength : (w.script stamp root).statements.length = order.length := by
    change (Lowering.ofRoot w.graph root).statements.toList.length = _
    rw [hs.statements, List.length_mapIdx]
  have hplaced := h.numbered.placed root top hroot
  have hx : w.context? top.context = some w.contexts[top.context] := Array.getElem?_eq_getElem hplaced
  rw [hlength, (h.accounts hx).nodes]
  refine Graph.length_le_card_registered he.nodup
    (fun r hr => h.owned.mem_living_iff.2 ⟨root, hheld, (he.mem_iff r).1 hr⟩) fun r hr => ?_
  have hreach := (he.mem_iff r).1 hr
  obtain ⟨n, hn⟩ := Graph.exists_node? (hreach.lt_size hlt)
  have hkeeps := Graph.keeps_of_validate_ok hd hroot hok hreach hn
  exact ⟨n, hn, hkeeps.context, hkeeps.registered⟩

end Workspace
end MatrixPlan
