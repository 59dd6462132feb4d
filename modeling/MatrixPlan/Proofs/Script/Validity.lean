import MatrixPlan.Proofs.Script.Emission
import MatrixPlan.Proofs.Script.Spelling
/-!
# Validity — what is lowered is a script without fault

A walk gives out variables alone and does not end before it has emitted a node.  So the script of any root of any graph
has a statement and an identifier for its result, whether or not the names of the nodes tell them apart.
-/
namespace MatrixPlan
namespace Lowering

variable {g : Graph} {root : Nat} {s : State}

/-- **What a walk keeps in any graph**: the names given out are variables, and a node is there to be emitted until one
has been. -/
structure State.Underway (g : Graph) (s : State) : Prop where
  named : ∀ (name : NodeName) (v : String), s.vars[name]? = some v → ∃ k, v = variableName k
  pending : s.statements ≠ #[] ∨ s.vars.isEmpty = true ∧ ∃ e ∈ s.stack, ∃ n, g.node? e.1 = some n

theorem State.underway_start {n : Node} (hroot : g.node? root = some n) : (start root).Underway g where
  named := by simp [start]
  pending := .inr ⟨by simp [start], (root, false), List.mem_singleton_self _, n, hroot⟩

theorem State.Underway.visit {r : Nat} {mark : Bool} {stack : List (Nat × Bool)} (hs : s.Underway g)
    (h : s.stack = (r, mark) :: stack) : State.Underway g (visit g { s with stack := stack } r mark) := by
  unfold Lowering.visit
  split
  · rename_i hnone
    refine ⟨hs.named, hs.pending.imp_right fun hpending => ⟨hpending.1, ?_⟩⟩
    obtain ⟨-, e, he, n, hn⟩ := hpending
    rw [h] at he
    -- the top of the stack is no node, so the node is below it
    rcases List.mem_cons.1 he with rfl | he
    · cases hnone.symm.trans hn
    · exact ⟨e, he, n, hn⟩
  · rename_i n hn
    split
    · rename_i hdone
      refine ⟨hs.named, .inl ?_⟩
      rcases hs.pending with hsome | ⟨hempty, -⟩
      · exact hsome
      · rw [Std.HashMap.contains_of_isEmpty hempty] at hdone
        cases hdone
    split
    · refine ⟨fun name v hv => ?_, .inl (by simp [State.emit])⟩
      change (s.vars.insert n.name (variableName s.vars.size))[name]? = some v at hv
      rw [Std.HashMap.getElem?_insert] at hv
      split at hv
      · exact ⟨_, (Option.some.inj hv).symm⟩
      · exact hs.named name v hv
    · refine ⟨hs.named, hs.pending.imp_right fun hpending => ⟨hpending.1, (r, true), ?_, n, hn⟩⟩
      exact List.mem_append_right _ List.mem_cons_self

theorem Walk.underway {n : Node} (hroot : g.node? root = some n) (h : Walk g root s) : s.Underway g := by
  induction h with
  | start => exact State.underway_start hroot
  | visit _ h ih => exact ih.visit h

theorem isIdentifier_variableName (k : Nat) : Text.isIdentifier (variableName k).toList = true := by
  rw [toList_variableName, Text.isIdentifier, Bool.and_eq_true]
  refine ⟨by decide, List.all_eq_true.2 fun c hc => ?_⟩
  have hdigit : 48 ≤ c.val ∧ c.val ≤ 57 := by simpa [Char.isDigit] using isDigit_of_mem_numeral hc
  exact Bool.or_eq_true_iff.2 (.inr (decide_eq_true hdigit))

end Lowering

/-- **What the check of a script asks for**: a version that is more than blanks, a statement, and an identifier to hold the
result. -/
theorem Script.fault?_eq_none_iff {s : Script} : s.fault? = none ↔
    (∃ c ∈ s.version.toList, Text.isBlank c = false) ∧ s.statements ≠ [] ∧ Text.isIdentifier s.output.toList = true := by
  have hversion : (∃ c ∈ s.version.toList, Text.isBlank c = false) ↔ ¬ Text.allBlank s.version.toList = true := by
    simp [Text.allBlank]
  rw [hversion, ← List.isEmpty_eq_false_iff, fault?]
  cases Text.allBlank s.version.toList <;> cases s.statements.isEmpty <;>
    cases Text.isIdentifier s.output.toList <;> simp

/-- **The script of a root passes its check**, in any graph. -/
theorem Script.fault?_ofGraph {g : Graph} {root : Nat} (hroot : root < g.size) (stamp : Stamp) (context : ContextId) :
    (Script.ofGraph g stamp context root).fault? = none := by
  obtain ⟨n, hn⟩ := Graph.exists_node? hroot
  have hstart : Lowering.Walk g root (Lowering.start root) := .start
  obtain ⟨hwalk, hnil⟩ := hstart.run
  have hs := hwalk.underway hn
  have hsome : (Lowering.ofRoot g root).statements ≠ #[] := by
    rcases hs.pending with hsome | ⟨-, e, he, -⟩
    · exact hsome
    · rw [hnil] at he
      cases he
  have hout : ∃ k, Lowering.variableAt g (Lowering.ofRoot g root).vars root = Lowering.variableName k := by
    rw [Lowering.variableAt, hn, Option.elim_some, Lowering.variableOf, Std.HashMap.getD_eq_getD_getElem?]
    cases hv : (Lowering.ofRoot g root).vars[n.name]? with
    | none => exact ⟨_, rfl⟩
    | some v => exact hs.named n.name v hv
  obtain ⟨k, hk⟩ := hout
  have hversion : ∃ c ∈ currentVersion.toList, Text.isBlank c = false := ⟨'1', by decide, by decide⟩
  refine fault?_eq_none_iff.2 ⟨hversion, fun hnone => hsome (Array.toList_eq_nil_iff.1 hnone), ?_⟩
  simp only [ofGraph, make, hk, Lowering.isIdentifier_variableName]

end MatrixPlan
