import MatrixPlan.Proofs.Script.Correctness
import MatrixPlan.Proofs.Workspace.Origins
/-!
# Postorder — a lowering emits what a recursion would, in the same order

The order in which a lowering emits nodes can be said by recursion: first what the positional inputs use, from left to
right, then what the named ones use, then the node itself, and nothing twice (`Graph.postorder`).  The stack stands for
the calls that such a recursion has open.  Settling its entries one after another (`settle`) ends in one and the same
order all along a walk, since a step only settles a part of what is on the stack.
-/
namespace MatrixPlan
namespace Graph

/-- The nodes at the positional inputs of a node, from left to right. -/
def positionalInputs (g : Graph) (r : Nat) : List Nat := (g.node? r).elim [] fun n => n.unnamed.filterMap Input.node?

/-- The nodes at the named inputs of a node, from left to right. -/
def namedInputs (g : Graph) (r : Nat) : List Nat :=
  (g.node? r).elim [] fun n => (n.named.map (·.2)).filterMap Input.node?

theorem inputs_eq_append (g : Graph) (r : Nat) : g.inputs r = g.positionalInputs r ++ g.namedInputs r := by
  unfold positionalInputs namedInputs inputs node?
  cases g.nodes[r]? with
  | none => rfl
  | some n => exact List.filterMap_append

/-- **The recursive walk** from a node, when the nodes of `done` have been emitted before: a node already emitted is
passed over, any other is emitted after what its inputs use. -/
def postorderFrom (g : Graph) (done : List Nat) (r : Nat) : List Nat :=
  if r ∈ done then done
  else
    let before := (g.positionalInputs r).attach.foldl (fun done i => g.postorderFrom done i.1) done
    (g.namedInputs r).attach.foldl (fun done i => g.postorderFrom done i.1) before ++ [r]
termination_by r
decreasing_by
  all_goals
    refine lt_of_mem_inputs (g := g) ?_
    rw [inputs_eq_append]
  · exact List.mem_append_left _ i.2
  · exact List.mem_append_right _ i.2

/-- The order in which the recursive walk from a root emits. -/
def postorder (g : Graph) (root : Nat) : List Nat := g.postorderFrom [] root

variable {g : Graph} {done : List Nat} {r : Nat}

theorem postorderFrom_of_mem (h : r ∈ done) : g.postorderFrom done r = done := by
  rw [postorderFrom, if_pos h]

theorem postorderFrom_of_notMem (h : r ∉ done) :
    g.postorderFrom done r = (g.inputs r).foldl g.postorderFrom done ++ [r] := by
  rw [postorderFrom, if_neg h, inputs_eq_append, List.foldl_append]
  simp only [List.foldl_attach]

theorem foldl_postorderFrom {refs : List Nat} (h : ∀ i ∈ refs, ∀ done, ∃ more, g.postorderFrom done i = done ++ more ∧
    ∀ x ∈ more, x ≤ i) (done : List Nat) :
    ∃ more, refs.foldl g.postorderFrom done = done ++ more ∧ ∀ x ∈ more, ∃ i ∈ refs, x ≤ i := by
  induction refs generalizing done with
  | nil => exact ⟨[], (List.append_nil done).symm, by simp⟩
  | cons i refs ih =>
    obtain ⟨first, hfirst, hle⟩ := h i List.mem_cons_self done
    obtain ⟨rest, hrest, hle'⟩ := ih (fun q hq => h q (List.mem_cons_of_mem i hq)) (done ++ first)
    refine ⟨first ++ rest, by rw [List.foldl_cons, hfirst, hrest, List.append_assoc], fun x hx => ?_⟩
    rcases List.mem_append.1 hx with hx | hx
    · exact ⟨i, List.mem_cons_self, hle x hx⟩
    · obtain ⟨q, hq, hxq⟩ := hle' x hx
      exact ⟨q, List.mem_cons_of_mem i hq, hxq⟩

/-- **A walk from a node adds to what was emitted**, and nothing that stands after the node. -/
theorem exists_postorderFrom (g : Graph) (r : Nat) (done : List Nat) :
    ∃ more, g.postorderFrom done r = done ++ more ∧ ∀ x ∈ more, x ≤ r := by
  induction r using Nat.strongRecOn generalizing done with
  | ind r ih =>
    by_cases hr : r ∈ done
    · exact ⟨[], by rw [postorderFrom_of_mem hr, List.append_nil], by simp⟩
    · obtain ⟨more, hmore, hle⟩ := foldl_postorderFrom (fun i (hi : i ∈ g.inputs r) => ih i (lt_of_mem_inputs hi)) done
      refine ⟨more ++ [r], by rw [postorderFrom_of_notMem hr, hmore, List.append_assoc], fun x hx => ?_⟩
      rcases List.mem_append.1 hx with hx | hx
      · obtain ⟨i, hi, hxi⟩ := hle x hx
        exact Nat.le_trans hxi (Nat.le_of_lt (lt_of_mem_inputs hi))
      · exact Nat.le_of_eq (List.mem_singleton.1 hx)

theorem mem_postorderFrom {x : Nat} (h : x ∈ done) (r : Nat) : x ∈ g.postorderFrom done r := by
  obtain ⟨more, hmore, -⟩ := g.exists_postorderFrom r done
  rw [hmore]
  exact List.mem_append_left more h

/-- Nodes that were emitted before can be left out of the inputs to walk from. -/
theorem foldl_filter_postorderFrom {waiting : Nat → Bool} (refs : List Nat)
    (h : ∀ i ∈ refs, waiting i = false → i ∈ done) :
    (refs.filter waiting).foldl g.postorderFrom done = refs.foldl g.postorderFrom done := by
  induction refs generalizing done with
  | nil => rfl
  | cons i refs ih =>
    have hrest : ∀ q ∈ refs, waiting q = false → q ∈ g.postorderFrom done i := fun q hq hw =>
      mem_postorderFrom (h q (List.mem_cons_of_mem i hq) hw) i
    by_cases hi : waiting i = true
    · rw [List.filter_cons_of_pos hi, List.foldl_cons, List.foldl_cons, ih hrest]
    · have hmem : i ∈ done := h i List.mem_cons_self (Bool.eq_false_of_not_eq_true hi)
      rw [List.filter_cons_of_neg hi, List.foldl_cons, ← ih hrest, postorderFrom_of_mem hmem]

theorem notMem_foldl_inputs (h : r ∉ done) : r ∉ (g.inputs r).foldl g.postorderFrom done := by
  obtain ⟨more, hmore, hle⟩ := foldl_postorderFrom (fun i (_ : i ∈ g.inputs r) => g.exists_postorderFrom i) done
  rw [hmore]
  intro hr
  rcases List.mem_append.1 hr with hr | hr
  · exact h hr
  · obtain ⟨i, hi, hri⟩ := hle r hr
    exact absurd (lt_of_mem_inputs hi) (Nat.not_lt.2 hri)

end Graph

namespace Lowering

/-- The node looked at in a step, if the step has written a statement. -/
def emittedIn (before after : State) (r : Nat) : List Nat :=
  if before.statements.size < after.statements.size then [r] else []

/-- **The nodes that a lowering emits from a state on**: those at which it writes a statement. -/
def emissions (g : Graph) (s : State) : List Nat :=
  match _h : s.stack with
  | [] => []
  | (r, expanded) :: stack =>
    let next := visit g { s with stack := stack } r expanded
    emittedIn s next r ++ emissions g next
termination_by s.weight g
decreasing_by exact weight_visit _h

/-- **What the recursion makes of an entry of the stack**: a node still to be looked at is walked from, a marked one is
emitted. -/
def settle (g : Graph) (done : List Nat) (entry : Nat × Bool) : List Nat :=
  if entry.1 ∈ done then done else if entry.2 then done ++ [entry.1] else g.postorderFrom done entry.1

variable {g : Graph} {root r : Nat} {n : Node} {order : List Nat} {s : State} {stack : List (Nat × Bool)} {mark : Bool}

theorem settle_of_mem (h : r ∈ order) (mark : Bool) : settle g order (r, mark) = order := by
  rw [settle, if_pos h]

theorem settle_marked (h : r ∉ order) : settle g order (r, true) = order ++ [r] := by
  rw [settle, if_neg h, if_pos rfl]

theorem settle_unmarked (order : List Nat) (r : Nat) : settle g order (r, false) = g.postorderFrom order r := by
  by_cases h : r ∈ order
  · rw [settle_of_mem h, Graph.postorderFrom_of_mem h]
  · rw [settle, if_neg h, if_neg Bool.false_ne_true]

theorem foldl_settle_unmarked (order refs : List Nat) :
    (refs.map (·, false)).foldl (settle g) order = refs.foldl g.postorderFrom order := by
  rw [List.foldl_map]
  simp only [settle_unmarked]

/-- **Looking at the inputs of a node settles nothing yet.** -/
theorem State.Sound.settle_expand (hs : s.Sound g root order) (hroot : root < g.size)
    (h : s.stack = (r, false) :: stack) (hn : g.node? r = some n) (hnew : r ∉ order) :
    ((n.inputNodes.filter (s.isWaiting g)).map (·, false) ++ (r, true) :: stack).foldl (settle g) order =
      ((r, false) :: stack).foldl (settle g) order := by
  have hr : g.Reaches root r := hs.stack (r, false) (by rw [h]; exact List.mem_cons_self)
  -- an input that does not wait was emitted, so the recursion passes over it as well
  have hdone : ∀ i ∈ g.inputs r, s.isWaiting g i = false → i ∈ order := by
    intro i hi hw
    by_contra hnot
    rw [(hs.isWaiting_iff ((hr.input hi).lt_size hroot)).2 hnot] at hw
    cases hw
  rw [List.foldl_append, foldl_settle_unmarked, ← Graph.inputs_of_node? hn, Graph.foldl_filter_postorderFrom _ hdone,
    List.foldl_cons, List.foldl_cons, settle_marked (Graph.notMem_foldl_inputs hnew), settle_unmarked,
    Graph.postorderFrom_of_notMem hnew]

/-- **A step of the walk emits a node or none**, and what is then left to settle ends in the same order. -/
theorem State.Sound.visit_settle (hd : g.DistinctNames) (hs : s.Sound g root order) (hroot : root < g.size)
    (h : s.stack = (r, mark) :: stack) {next : State}
    (hnext : next = Lowering.visit g { s with stack := stack } r mark) :
    next.Sound g root (order ++ emittedIn s next r) ∧
      next.stack.foldl (settle g) (order ++ emittedIn s next r) = s.stack.foldl (settle g) order := by
  have hnone : ∀ stack, emittedIn s { s with stack := stack } r = [] := fun _ => if_neg (Nat.lt_irrefl _)
  obtain ⟨n, hn, ⟨hmem, hstep⟩ | ⟨hnew, rfl, hstep⟩ | ⟨hnew, rfl, hstep⟩⟩ := hs.visit_cases hroot h
  · -- the node was emitted after it was put on the stack
    subst hnext
    rw [hstep, hnone, List.append_nil, h, List.foldl_cons, settle_of_mem hmem]
    exact ⟨hs.skip h hmem, rfl⟩
  · have hone : emittedIn s (State.emit g { s with stack := stack } n) r = [r] := if_pos (by simp [State.emit])
    subst hnext
    rw [hstep, hone, h, List.foldl_cons, settle_marked hnew]
    exact ⟨hs.emit hd hroot h hn hnew, rfl⟩
  · have hexpand := hs.settle_expand hroot h hn hnew
    subst hnext
    rw [hstep, hnone, List.append_nil, h]
    exact ⟨hs.expand hroot h hn, hexpand⟩

/-- **A lowering emits what settling its stack adds**, and ends having emitted it. -/
theorem State.Sound.run_settle (hd : g.DistinctNames) (hs : s.Sound g root order) (hroot : root < g.size) :
    order ++ emissions g s = s.stack.foldl (settle g) order ∧
      (Lowering.run g s).Sound g root (order ++ emissions g s) := by
  -- the run takes the order along, so the hypothesis is used at the one a step leads to
  fun_induction Lowering.run g s generalizing order with
  | case1 s hnil =>
    have hnone : emissions g s = [] := by
      rw [emissions]
      split
      · rfl
      · rename_i hcons
        cases hnil.symm.trans hcons
    rw [hnone, List.append_nil, hnil]
    exact ⟨rfl, hs⟩
  | case2 s r mark stack h ih =>
    have hmore : emissions g s = emittedIn s (Lowering.visit g { s with stack := stack } r mark) r ++
        emissions g (Lowering.visit g { s with stack := stack } r mark) := by
      rw [emissions]
      split
      · rename_i hnil
        cases h.symm.trans hnil
      · rename_i hcons
        cases h.symm.trans hcons
        rfl
    obtain ⟨hsound, hsettle⟩ := hs.visit_settle hd hroot h rfl
    obtain ⟨horder, hrun⟩ := ih hsound
    rw [hmore, ← List.append_assoc]
    exact ⟨horder.trans hsettle, hrun⟩

/-- **A lowering is the recursive walk in steps**: it emits what the recursion emits, in its order. -/
theorem emissions_start (hd : g.DistinctNames) (hroot : root < g.size) :
    emissions g (start root) = g.postorder root ∧ (ofRoot g root).Sound g root (g.postorder root) := by
  obtain ⟨horder, hrun⟩ := (State.sound_start g root).run_settle hd hroot
  rw [List.nil_append] at horder hrun
  have hpost : emissions g (start root) = g.postorder root := horder.trans (settle_unmarked [] root)
  rw [hpost] at hrun
  exact ⟨hpost, hrun⟩

/-- The script of a node without inputs is one statement. -/
theorem statements_leaf (hd : g.DistinctNames) (hroot : root < g.size) (hleaf : g.inputs root = []) (stamp : Stamp)
    (context : ContextId) : (Script.ofGraph g stamp context root).statements = [statementAt g [root] 0 root] := by
  have hs := (emissions_start hd hroot).2.statements
  rw [Graph.postorder, Graph.postorderFrom_of_notMem List.not_mem_nil, hleaf] at hs
  exact hs

/-- **A lowering emits nodes in the order of the recursive walk**: what its inputs use before a node, positional inputs
before named ones, from left to right, nothing twice.  This order numbers the variables and lists the statements. -/
theorem emits_postorder (hd : g.DistinctNames) {top : Node} (hroot : g.node? root = some top) (stamp : Stamp)
    (context : ContextId) :
    emissions g (start root) = g.postorder root ∧
      (Script.ofGraph g stamp context root).statements =
        (g.postorder root).mapIdx (statementAt g (g.postorder root)) ∧
      (Script.ofGraph g stamp context root).output = variableName ((g.postorder root).length - 1) := by
  have hlt : root < g.size := Graph.lt_of_node? hroot
  obtain ⟨hemissions, hs⟩ := emissions_start hd hlt
  have hwalk : Walk g root (start root) := .start
  have he : Emits g root (g.postorder root) := hs.emits hwalk.run.2
  refine ⟨hemissions, hs.statements, ?_⟩
  change variableAt g (ofRoot g root).vars root = _
  rw [hs.variableAt_eq hlt ((he.mem_iff root).2 (.refl g root)), he.idxOf_root]

end Lowering

namespace Workspace

open Lowering

/-- A call whose first input uses the third one, and whose named inputs use both again. -/
def braidedCall : NodeSpec where
  operation := "f"
  kind := .call
  output := .matrix
  unnamed := [.node 2, .literal (.float 0.5), .node 1]
  named := [("x", .node 0), ("y", .node 3), ("z", .node 3)]

def braided : Workspace :=
  let w : Workspace := (({} : Workspace).addContext ⟨Uuid.ofNat 0⟩ 0 {}).2
  let w := (w.addSource 0 (.scalar 1.0)).2
  let w := (w.addSource 0 (.scalar 2.0)).2
  let w := (w.apply (.add 1 0)).2
  let w := (w.apply (.cbind 0 2)).2
  (w.build 0 braidedCall).2

theorem reachable_braided : ∃ held, Reachable anything braided held := by
  have h : Reachable offered _ _ := .single (.context _ _ ⟨Uuid.ofNat 0⟩ 0 {})
  have h := h.addSource (c := 0) (by decide) (.scalar 1.0)
  have h := h.addSource (c := 0) (by decide) (.scalar 2.0)
  have h := h.apply (a := .add 1 0) (by decide)
  have h := h.apply (a := .cbind 0 2) (by decide)
  have hany : Reachable anything _ _ := Relation.ReflTransGen.mono (fun _ _ hm => hm.mono fun _ _ _ _ => trivial) _ _ h
  exact ⟨_, hany.tail (.build _ _ 0 braidedCall (by decide) (by decide) trivial)⟩

/-- What the first input uses comes first, and of it what stands on the left. -/
theorem postorder_braided : braided.graph.postorder 4 = [1, 0, 2, 3, 4] := by
  have h0 : braided.graph.inputs 0 = [] := by decide
  have h1 : braided.graph.inputs 1 = [] := by decide
  have h2 : braided.graph.inputs 2 = [1, 0] := by decide
  have h3 : braided.graph.inputs 3 = [0, 2] := by decide
  have h4 : braided.graph.inputs 4 = [2, 1, 0, 3, 3] := by decide
  simp [Graph.postorder, Graph.postorderFrom_of_notMem, Graph.postorderFrom_of_mem, h0, h1, h2, h3, h4]

theorem emits_postorder_braided : (∃ held, Reachable anything braided held) ∧
    emissions braided.graph (start 4) = [1, 0, 2, 3, 4] := by
  have hfew : ∀ c, braided.graph.builtIn c ≤ 2 ^ 64 := fun c => by
    have hsize : braided.graph.size = 5 := by decide
    have := braided.graph.builtIn_le_size c
    omega
  have hroot : braided.graph.node? 4 = some braided.graph.nodes[4] := rfl
  obtain ⟨held, h⟩ := reachable_braided
  have hd : braided.graph.DistinctNames := h.sound.numbered.distinctNames hfew
  obtain ⟨hemissions, -⟩ := emits_postorder hd hroot ⟨Uuid.ofNat 1, Timestamp.ofSeconds 1⟩ ⟨Uuid.ofNat 0⟩
  exact ⟨⟨held, h⟩, hemissions.trans postorder_braided⟩

end Workspace
end MatrixPlan
