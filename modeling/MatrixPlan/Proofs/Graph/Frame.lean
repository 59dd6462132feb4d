import MatrixPlan.Proofs.Graph.Verdict
/-!
# Frame — what a root does not use has no part in its verdict

Two graphs agree below a root when they have the same nodes at the places that the root reaches (`AgreeBelow`).  What
else they hold, and what has become of it, makes no difference to a validation of the root.
-/
namespace MatrixPlan

/-- The node among the inputs that metadata is asked of is one of the node's inputs. -/
theorem NodeSpec.namedInput?_mem {n : NodeSpec} {name : String} {i : Input} (h : n.namedInput? name = some i) :
    i ∈ n.inputs := by
  obtain ⟨p, hp, rfl⟩ := Option.map_eq_some_iff.1 h
  exact List.mem_append_right _ (List.mem_map.2 ⟨p, List.mem_of_find?_eq_some hp, rfl⟩)

namespace Graph

/-- **Two graphs have the same nodes below a root.** -/
def AgreeBelow (g g' : Graph) (root : Nat) : Prop := ∀ r, g.Reaches root r → g'.node? r = g.node? r

variable {g g' : Graph} {root r : Nat} {n : Node} {expected : Nat}

theorem inputs_congr (h : g'.node? r = g.node? r) : g'.inputs r = g.inputs r := by
  unfold node? at h
  rw [inputs, inputs, h]

theorem AgreeBelow.reaches (h : g.AgreeBelow g' root) (hr : g.Reaches root r) : g'.Reaches root r := by
  induction hr with
  | refl => exact .refl g' root
  | tail hq hi ih => exact ih.input (by rwa [inputs_congr (h _ hq)])

/-- **The same places are below the root on both sides.** -/
theorem AgreeBelow.reaches_iff (h : g.AgreeBelow g' root) : g'.Reaches root r ↔ g.Reaches root r := by
  refine ⟨fun hr => ?_, h.reaches⟩
  induction hr with
  | refl => exact .refl g root
  | tail _ hi ih => exact ih.input (by rwa [← inputs_congr (h _ ih)])

section Rules

variable (hin : ∀ i ∈ n.inputNodes, g'.node? i = g.node? i)
include hin

theorem inputMetadata?_congr {i : Input} (hi : i ∈ n.inputs) : g'.inputMetadata? i = g.inputMetadata? i := by
  cases i with
  | node r =>
    have hr : r ∈ n.inputNodes := List.mem_filterMap.2 ⟨.node r, hi, rfl⟩
    rw [inputMetadata?, inputMetadata?, hin r hr]
  | literal value => rfl

theorem positional?_congr (k : Nat) : g'.positional? n.toNodeSpec k = g.positional? n.toNodeSpec k := by
  unfold positional?
  cases hk : n.unnamed[k]? with
  | none => rfl
  | some i => exact inputMetadata?_congr hin (List.mem_append_left _ (List.mem_of_getElem? hk))

theorem named?_congr (name : String) : g'.named? n.toNodeSpec name = g.named? n.toNodeSpec name := by
  unfold named?
  cases hi : n.namedInput? name with
  | none => rfl
  | some i => exact inputMetadata?_congr hin (NodeSpec.namedInput?_mem hi)

/-- **The rules for a node look at the node and at its inputs** and at nothing else. -/
theorem fault?_congr (expected : Nat) : g'.fault? expected n = g.fault? expected n := by
  have hshape : g'.shapeFault? n.toNodeSpec = g.shapeFault? n.toNodeSpec := by
    simp only [shapeFault?, pairFault?, positional?_congr hin, named?_congr hin]
  rw [fault?, fault?, hshape]

end Rules

theorem AgreeBelow.fault? (h : g.AgreeBelow g' root) (hr : g.Reaches root r) (hn : g.node? r = some n) :
    g'.fault? expected n = g.fault? expected n :=
  fault?_congr (fun i hi => h i (hr.input (by rwa [inputs_of_node? hn]))) expected

theorem AgreeBelow.visit (h : g.AgreeBelow g' root) {v : Visit} (hv : ∀ r ∈ v.stack, g.Reaches root r) :
    g'.visit expected v = g.visit expected v := by
  unfold Graph.visit
  cases hs : v.stack with
  | nil => rfl
  | cons r stack =>
    have hr : g.Reaches root r := hv r (by rw [hs]; exact List.mem_cons_self)
    dsimp only
    rw [h r hr]
    cases hn : g.node? r with
    | none => rfl
    | some n =>
      dsimp only
      rw [h.fault? hr hn]

theorem AgreeBelow.visitAll (h : g.AgreeBelow g' root) {v : Visit} (hv : ∀ r ∈ v.stack, g.Reaches root r) :
    g'.visitAll expected v = g.visitAll expected v := by
  fun_induction Graph.visitAll g expected v with
  | case1 v answer hdone =>
    rw [← h.visit hv] at hdone
    rw [Graph.visitAll]
    split
    · rename_i answer' hdone'
      cases hdone.symm.trans hdone'
      rfl
    · rename_i next hgoing
      cases hdone.symm.trans hgoing
  | case2 v next hgoing ih =>
    have hbelow := below_visit hv hgoing
    rw [← h.visit hv] at hgoing
    rw [Graph.visitAll]
    split
    · rename_i answer hdone
      cases hgoing.symm.trans hdone
    · rename_i next' hgoing'
      cases hgoing.symm.trans hgoing'
      exact ih hbelow

/-- **A verdict depends on what is below the root alone**, and so does the fault that it reports. -/
theorem AgreeBelow.validate (h : g.AgreeBelow g' root) : g'.validate root = g.validate root := by
  unfold Graph.validate
  rw [h root (.refl g root)]
  cases g.node? root with
  | none => rfl
  | some n => exact h.visitAll (by simp [Reaches.refl])

end Graph
end MatrixPlan
