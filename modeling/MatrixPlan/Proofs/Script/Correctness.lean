import Std.Data.String.ToNat
import MatrixPlan.Proofs.Script.Evaluation
import MatrixPlan.Proofs.Workspace.Moves
/-!
# Correctness — scripts compute what their graphs denote

In a workspace that moves lead to, names tell nodes apart as long as no context has made more nodes than it has numbers.
Then a lowering emits each node that the root uses once, calls every input by the variable it was given, and computes
the value of the root last.
-/
namespace MatrixPlan
namespace Lowering

theorem variableName_injective : Function.Injective variableName := by
  intro k k' h
  exact Nat.repr_injective (String.append_right_inj "V" |>.1 h)

variable {g : Graph} {root r : Nat} {order : List Nat} {s : State} {stack : List (Nat × Bool)}

/-- **A marked node finds the variables of all its inputs** when its turn comes. -/
theorem State.Sound.inputs_named (hs : s.Sound g root order) (h : s.stack = (r, true) :: stack) {i : Nat}
    (hi : i ∈ g.inputs r) {m : Node} (hm : g.node? i = some m) : s.vars.contains m.name = true := by
  have hready := hs.ready
  rw [h] at hready
  exact (hs.contains_iff hm).2 (hready.1 rfl i hi)

/-- **No walk falls back on a variable that was not given out**: a node to be emitted finds all its inputs, and a finished
walk its root. -/
structure Named (g : Graph) (root : Nat) : Prop where
  inputs : ∀ s r stack, Walk g root s → s.stack = (r, true) :: stack →
    ∀ i ∈ g.inputs r, ∀ m, g.node? i = some m → s.vars.contains m.name = true
  output : ∀ n, g.node? root = some n → (ofRoot g root).vars.contains n.name = true

theorem ofRoot_sound (hd : g.DistinctNames) (hroot : root < g.size) :
    ∃ order, (ofRoot g root).Sound g root order ∧ Emits g root order := by
  have hstart : Walk g root (start root) := .start
  obtain ⟨hwalk, hnil⟩ := hstart.run
  obtain ⟨order, hs⟩ := hwalk.sound hd hroot
  exact ⟨order, hs, hs.emits hnil⟩

theorem named (hd : g.DistinctNames) (hroot : root < g.size) : Named g root where
  inputs s r stack hwalk hstack i hi m hm := by
    obtain ⟨order, hs⟩ := hwalk.sound hd hroot
    exact hs.inputs_named hstack hi hm
  output n hn := by
    obtain ⟨order, hs, he⟩ := ofRoot_sound hd hroot
    exact (hs.contains_iff hn).2 ((he.mem_iff root).2 (.refl g root))

theorem Emits.getElem?_last (h : Emits g root order) : order[order.length - 1]? = some root := by
  rw [← List.getLast?_eq_getElem?, h.last]

/-- The root is emitted last, so its place is the last one. -/
theorem Emits.idxOf_root (h : Emits g root order) : order.idxOf root = order.length - 1 := by
  obtain ⟨hlt, hget⟩ := List.getElem?_eq_some_iff.1 h.getElem?_last
  rw [← hget]
  exact h.nodup.idxOf_getElem _ hlt

end Lowering

namespace Workspace

open Lowering

variable {w : Workspace} {held : Multiset Nat} {permit : Workspace → Nat → NodeSpec → Prop}

/-- **Scripts are correct.**  There is an order of the nodes the root uses, each once and after its inputs, whose
statements are those of the script; variables are told apart by their places and never fallen back on; and running the
statements, each on values stored before, stores the value of the root in the output. -/
theorem Reachable.script_correct (h : Reachable permit w held) (hfew : ∀ c, w.graph.builtIn c ≤ 2 ^ 64) {root : Nat}
    {top : Node} (hroot : w.node? root = some top) (stamp : Stamp) :
    ∃ order, Emits w.graph root order ∧
      (w.script stamp root).statements = order.mapIdx (statementAt w.graph order) ∧
      (w.script stamp root).output = variableName (order.length - 1) ∧
      Function.Injective variableName ∧ Named w.graph root ∧
      ∀ (α : Type) (meaning : Nat → List α → α),
        ((evaluate w.graph meaning order).bind fun store => store[order.length - 1]?) =
          some (w.graph.denote meaning root) := by
  have hd := h.sound.numbered.distinctNames hfew
  have hlt : root < w.graph.size := Graph.lt_of_node? hroot
  obtain ⟨order, hs, he⟩ := ofRoot_sound hd hlt
  refine ⟨order, he, hs.statements, ?_, variableName_injective, named hd hlt, fun α meaning => ?_⟩
  · change variableAt w.graph (ofRoot w.graph root).vars root = _
    rw [hs.variableAt_eq hlt ((he.mem_iff root).2 (.refl _ root)), he.idxOf_root]
  · rw [evaluate_eq he.inputs meaning, Option.bind_some, List.getElem?_map, he.getElem?_last, Option.map_some]

/-- A sum that uses a node directly and through another sum. -/
theorem script_correct_crowded : Reachable anything crowded {2, 1, 0} ∧ ∃ order, Emits crowded.graph 2 order ∧
    (crowded.script ⟨Uuid.ofNat 1, Timestamp.ofSeconds 1⟩ 2).output = variableName (order.length - 1) ∧
    ((evaluate crowded.graph (fun r args => r + args.sum) order).bind fun store => store[order.length - 1]?) = some 3 := by
  have hroot : crowded.node? 2 = some crowded.graph.nodes[2] := rfl
  obtain ⟨order, he, -, hout, -, -, hval⟩ :=
    reachable_crowded.script_correct builtIn_crowded hroot ⟨Uuid.ofNat 1, Timestamp.ofSeconds 1⟩
  have hdenote : crowded.graph.denote (fun r args => r + args.sum) 2 = 3 := by
    have h0 : crowded.graph.inputs 0 = [] := by decide
    have h1 : crowded.graph.inputs 1 = [0, 0] := by decide
    have h2 : crowded.graph.inputs 2 = [1, 0] := by decide
    simp [Graph.denote_eq, h0, h1, h2]
  exact ⟨reachable_crowded, order, he, hout, by rw [hval, hdenote]⟩

end Workspace
end MatrixPlan
