import MatrixPlan.Proofs.Session.Outcome
import MatrixPlan.Proofs.Workspace.Moves
/-!
# Growth — tables of nodes only grow

Nothing that happens to a session takes a node out of the table or puts another one in its place: the table before is
the front part of the table after (`Grows`).
-/
namespace MatrixPlan

/-- **The nodes of a graph are the first nodes of another.** -/
def Graph.Grows (g g' : Graph) : Prop := g.nodes.toList <+: g'.nodes.toList

namespace Graph

variable {g g' g'' : Graph} {r : Nat} {n : Node}

theorem Grows.refl (g : Graph) : g.Grows g := List.prefix_rfl

theorem Grows.trans (h : g.Grows g') (h' : g'.Grows g'') : g.Grows g'' := List.IsPrefix.trans h h'

theorem grows_of_eq (h : g' = g) : g.Grows g' := h ▸ .refl g

theorem Grows.node? (h : g.Grows g') (hn : g.node? r = some n) : g'.node? r = some n := by
  unfold Graph.node? at hn ⊢
  rw [← Array.getElem?_toList] at hn ⊢
  obtain ⟨more, hmore⟩ := h
  rw [← hmore, List.getElem?_append_left (List.getElem?_eq_some_iff.1 hn).1, hn]

theorem grows_add (h : ∀ i ∈ n.inputNodes, i < g.size) : g.Grows (g.add n h) := by
  rw [Grows, add, Array.toList_push]
  exact List.prefix_append _ _

/-- Contexts have made no fewer nodes. -/
theorem Grows.builtIn_le (h : g.Grows g') (c : Nat) : g.builtIn c ≤ g'.builtIn c := by
  have hall : ∀ g : Graph, g.builtIn c = g.nodes.toList.countP fun n => n.context = c := fun g => by
    rw [builtIn, countBefore, size, List.take_of_length_le (by simp)]
  rw [hall, hall]
  exact h.sublist.countP_le

end Graph

theorem Heap.graph_giveUp (h : Heap) (pending freed : List Nat) : (h.giveUp pending freed).1.graph = h.graph := by
  fun_induction giveUp h pending freed with
  | case1 => rfl
  | case2 _ _ _ _ _ _ ih | case3 _ _ _ _ _ _ _ ih | case4 _ _ _ _ _ _ _ ih | case5 _ _ _ _ _ ih => exact ih

namespace Workspace

theorem grows_build (w : Workspace) (c : Nat) (spec : NodeSpec) : w.graph.Grows (w.build c spec).2.graph := by
  cases hx : w.context? c with
  | none =>
    rw [build, hx]
    exact .refl _
  | some x =>
    rw [build_eq hx]
    change w.heap.graph.Grows (w.heap.add (x.nodeOf c spec)).graph
    by_cases hin : ∀ i ∈ (x.nodeOf c spec).inputNodes, i < w.heap.graph.size
    · rw [Heap.graph_add hin]
      exact Graph.grows_add hin
    · rw [Heap.add, dif_neg hin]
      exact .refl _

theorem graph_drop (w : Workspace) (r : Nat) : (w.drop r).graph = w.graph := w.heap.graph_giveUp [r] []

end Workspace

namespace Session

theorem graph_unbind (s : Session) (name : String) : (s.unbind name).workspace.graph = s.workspace.graph := by
  unfold unbind
  split
  · exact Workspace.graph_drop _ _
  · rfl

theorem graph_bindBuilt (s : Session) (name : String) (kind : HandleKind) (built : Nat × Workspace) :
    (s.bindBuilt name kind built).2.workspace.graph = built.2.graph := by
  have hu := graph_unbind { s with workspace := built.2 } name
  unfold bindBuilt bindHandle
  dsimp only
  split <;> exact hu

/-- **A step lets the table grow**, by a node or not at all. -/
theorem grows_next (s : Session) (step : Step) : s.workspace.graph.Grows (s.next step).workspace.graph := by
  generalize hs' : s.next step = s'
  have ho := outcome s step
  rw [hs'] at ho
  cases ho with
  | idle _ _ hw => exact Graph.grows_of_eq (by rw [hw])
  | engine | reply | context => exact .refl _
  | source | apply | node =>
    rw [graph_bindBuilt]
    exact Workspace.grows_build _ _ _
  | clone =>
    rw [graph_bindBuilt]
    exact .refl _
  | drop a => exact Graph.grows_of_eq (graph_unbind s a)
  | compute a h hh => exact Graph.grows_of_eq (congrArg Heap.graph (Workspace.submit_snd _ _ _).1)

theorem grows_foldl_next (s : Session) (steps : List Step) :
    s.workspace.graph.Grows (steps.foldl next s).workspace.graph := by
  induction steps generalizing s with
  | nil => exact .refl _
  | cons step steps ih => exact (grows_next s step).trans (ih (s.next step))

/-- **A run lets the table grow.** -/
theorem grows_runAll (s : Session) (steps : List Step) : s.workspace.graph.Grows (s.runAll steps).2.workspace.graph := by
  rw [runAll_snd]
  exact grows_foldl_next s _

end Session
end MatrixPlan
