import MatrixPlan.Proofs.Graph.Mirror
import MatrixPlan.Proofs.Script.Emission
/-!
# Lockstep — lowerings of graphs of one structure

Two lowerings whose graphs mirror each other go in lockstep: they look at corresponding nodes and give out the same
variables (`State.Mirrors`).  Nothing but the equality of names is ever asked of a name, so the graphs need to tell
corresponding nodes apart alike and no more (`Aligned`).
-/
namespace MatrixPlan

/-- **The statement of a node depends on what the inputs are called**, not on their places. -/
theorem NodeSpec.Mirrors.expression {f : Nat → Nat} {n n' : NodeSpec} (h : n.Mirrors f n') {nameOf nameOf' : Nat → String}
    (hname : ∀ i ∈ n.inputNodes, nameOf' (f i) = nameOf i) : n'.expression nameOf' = n.expression nameOf := by
  have hin : ∀ i : Input, Input.text nameOf' (i.renamed f) = Input.text (fun i => nameOf' (f i)) i := by
    intro i
    cases i <;> rfl
  have hrenamed : n'.expression nameOf' = n.expression fun i => nameOf' (f i) := by
    unfold NodeSpec.expression
    rw [h.operation, h.kind, h.unnamed, h.named]
    simp only [List.map_map, Function.comp_def, hin]
  rw [hrenamed]
  exact expression_congr hname

namespace Lowering

theorem run_of_nil {g : Graph} {s : State} (h : s.stack = []) : run g s = s := by
  rw [run]
  split
  · rfl
  · rename_i hcons
    cases h.symm.trans hcons

theorem run_of_cons {g : Graph} {s : State} {r : Nat} {mark : Bool} {stack : List (Nat × Bool)}
    (h : s.stack = (r, mark) :: stack) : run g s = run g (visit g { s with stack := stack } r mark) := by
  rw [run]
  split
  · rename_i hnil
    cases h.symm.trans hnil
  · rename_i hcons
    cases h.symm.trans hcons
    rfl

variable {g g' : Graph} {root : Nat} {f : Nat → Nat}

/-- **The nodes below a root correspond**, and names are the same on one side where they are on the other. -/
structure Aligned (g : Graph) (root : Nat) (g' : Graph) (f : Nat → Nat) : Prop where
  nodes : ∀ r n, g.Reaches root r → g.node? r = some n →
    ∃ n', g'.node? (f r) = some n' ∧ n.toNodeSpec.Mirrors f n'.toNodeSpec
  names : ∀ (r q : Nat) (n m n' m' : Node), g.Reaches root r → g.Reaches root q → g.node? r = some n →
    g.node? q = some m → g'.node? (f r) = some n' → g'.node? (f q) = some m' → (n'.name = m'.name ↔ n.name = m.name)

/-- **Two walks that have done the same so far.** -/
structure State.Mirrors (g : Graph) (root : Nat) (g' : Graph) (f : Nat → Nat) (s s' : State) : Prop where
  stack : s'.stack = s.stack.map fun e => (f e.1, e.2)
  below : ∀ e ∈ s.stack, g.Reaches root e.1
  statements : s'.statements = s.statements
  size : s'.vars.size = s.vars.size
  vars : ∀ (r : Nat) (n n' : Node), g.Reaches root r → g.node? r = some n → g'.node? (f r) = some n' →
    s'.vars[n'.name]? = s.vars[n.name]?

variable {s s' : State} {r : Nat} {mark : Bool} {stack : List (Nat × Bool)} {n n' : Node}

theorem State.mirrors_start (hr : f root = r) : State.Mirrors g root g' f (start root) (start r) where
  stack := by simp [start, hr]
  below := by simp [start, Graph.Reaches.refl]
  statements := rfl
  size := rfl
  vars := by simp [start]

theorem State.Mirrors.contains (hs : s.Mirrors g root g' f s') (hr : g.Reaches root r) (hn : g.node? r = some n)
    (hn' : g'.node? (f r) = some n') : s'.vars.contains n'.name = s.vars.contains n.name := by
  rw [Std.HashMap.contains_eq_isSome_getElem?, Std.HashMap.contains_eq_isSome_getElem?, hs.vars r n n' hr hn hn']

/-- Corresponding nodes have one variable, or none. -/
theorem State.Mirrors.variableAt (ha : Aligned g root g' f) (hroot : root < g.size) (hs : s.Mirrors g root g' f s')
    (hr : g.Reaches root r) : variableAt g' s'.vars (f r) = variableAt g s.vars r := by
  obtain ⟨n, hn⟩ := Graph.exists_node? (hr.lt_size hroot)
  obtain ⟨n', hn', -⟩ := ha.nodes r n hr hn
  simp only [Lowering.variableAt, hn, hn', Option.elim_some, variableOf, Std.HashMap.getD_eq_getD_getElem?,
    hs.vars r n n' hr hn hn', hs.size]

theorem State.Mirrors.isWaiting (ha : Aligned g root g' f) (hroot : root < g.size) (hs : s.Mirrors g root g' f s')
    (hr : g.Reaches root r) : s'.isWaiting g' (f r) = s.isWaiting g r := by
  obtain ⟨n, hn⟩ := Graph.exists_node? (hr.lt_size hroot)
  obtain ⟨n', hn', -⟩ := ha.nodes r n hr hn
  rw [State.isWaiting, State.isWaiting, hn, hn', Option.any_some, Option.any_some, hs.contains hr hn hn']

theorem State.Mirrors.pop (hs : s.Mirrors g root g' f s') (h : s.stack = (r, mark) :: stack) :
    State.Mirrors g root g' f { s with stack := stack } { s' with stack := stack.map fun e => (f e.1, e.2) } :=
  ⟨rfl, fun e he => hs.below e (by rw [h]; exact List.mem_cons_of_mem _ he), hs.statements, hs.size, hs.vars⟩

theorem State.Mirrors.expand (ha : Aligned g root g' f) (hroot : root < g.size) (hs : s.Mirrors g root g' f s')
    (hr : g.Reaches root r) (hn : g.node? r = some n) (hm : n.toNodeSpec.Mirrors f n'.toNodeSpec) :
    State.Mirrors g root g' f
      { s with stack := (n.inputNodes.filter (s.isWaiting g)).map (·, false) ++ (r, true) :: s.stack }
      { s' with stack := (n'.inputNodes.filter (s'.isWaiting g')).map (·, false) ++ (f r, true) :: s'.stack } := by
  have hin : ∀ i ∈ n.inputNodes, g.Reaches root i := fun i hi =>
    hr.input (by rwa [Graph.inputs_of_node? hn])
  have hfilter : (n.inputNodes.map f).filter (s'.isWaiting g') = (n.inputNodes.filter (s.isWaiting g)).map f := by
    rw [List.filter_map]
    congr 1
    exact List.filter_congr fun i hi => hs.isWaiting ha hroot (hin i hi)
  refine ⟨?_, fun e he => ?_, hs.statements, hs.size, hs.vars⟩
  · change (n'.inputNodes.filter (s'.isWaiting g')).map (·, false) ++ (f r, true) :: s'.stack = _
    rw [hm.inputNodes, hfilter, hs.stack, List.map_append, List.map_cons, List.map_map, List.map_map]
    rfl
  · rcases List.mem_append.1 he with he | he
    · obtain ⟨i, hi, rfl⟩ := List.mem_map.1 he
      exact hin i (List.mem_filter.1 hi).1
    · rcases List.mem_cons.1 he with rfl | he
      · exact hr
      · exact hs.below e he

theorem State.Mirrors.emit (ha : Aligned g root g' f) (hroot : root < g.size) (hs : s.Mirrors g root g' f s')
    (hr : g.Reaches root r) (hn : g.node? r = some n) (hn' : g'.node? (f r) = some n')
    (hm : n.toNodeSpec.Mirrors f n'.toNodeSpec) : State.Mirrors g root g' f (s.emit g n) (s'.emit g' n') := by
  have hexpression : n'.expression (Lowering.variableAt g' s'.vars) = n.expression (Lowering.variableAt g s.vars) :=
    hm.expression fun i hi => hs.variableAt ha hroot (hr.input (by rwa [Graph.inputs_of_node? hn]))
  refine ⟨hs.stack, hs.below, ?_, ?_, fun q m m' hq hm hm' => ?_⟩
  · simp only [State.emit, hs.statements, hs.size, hexpression]
  · simp only [State.emit, Std.HashMap.size_insert, ← Std.HashMap.contains_iff_mem, hs.contains hr hn hn', hs.size]
  · simp only [State.emit, Std.HashMap.getElem?_insert, beq_iff_eq, ha.names r q n m n' m' hr hq hn hm hn' hm',
      hs.vars q m m' hq hm hm', hs.size]

/-- **A step keeps two walks in lockstep.** -/
theorem State.Mirrors.visit (ha : Aligned g root g' f) (hroot : root < g.size) (hs : s.Mirrors g root g' f s')
    (h : s.stack = (r, mark) :: stack) :
    State.Mirrors g root g' f (visit g { s with stack := stack } r mark)
      (visit g' { s' with stack := stack.map fun e => (f e.1, e.2) } (f r) mark) := by
  have hr : g.Reaches root r := hs.below (r, mark) (by rw [h]; exact List.mem_cons_self)
  obtain ⟨n, hn⟩ := Graph.exists_node? (hr.lt_size hroot)
  obtain ⟨n', hn', hm⟩ := ha.nodes r n hr hn
  have hpop := hs.pop h
  unfold Lowering.visit
  rw [hn, hn']
  dsimp only
  rw [hs.contains hr hn hn']
  split
  · exact hpop
  · split
    · exact hpop.emit ha hroot hr hn hn' hm
    · exact hpop.expand ha hroot hr hn hm

/-- **Two walks in lockstep end alike.** -/
theorem State.Mirrors.run (ha : Aligned g root g' f) (hroot : root < g.size) (hs : s.Mirrors g root g' f s') :
    State.Mirrors g root g' f (run g s) (run g' s') := by
  fun_induction Lowering.run g s generalizing s' with
  | case1 s hnil =>
    have hnil' : s'.stack = [] := by rw [hs.stack, hnil, List.map_nil]
    rw [run_of_nil hnil']
    exact hs
  | case2 s r mark stack h ih =>
    have hcons : s'.stack = (f r, mark) :: stack.map fun e => (f e.1, e.2) := by rw [hs.stack, h, List.map_cons]
    rw [run_of_cons hcons]
    exact ih (hs.visit ha hroot h)

/-- **Lowerings from corresponding roots** write the same statements and name the roots alike. -/
theorem ofRoot_mirrored (ha : Aligned g root g' f) (hroot : root < g.size) :
    (ofRoot g' (f root)).statements = (ofRoot g root).statements ∧
      variableAt g' (ofRoot g' (f root)).vars (f root) = variableAt g (ofRoot g root).vars root := by
  have hstart : State.Mirrors g root g' f (start root) (start (f root)) := State.mirrors_start rfl
  have hrun := hstart.run ha hroot
  exact ⟨hrun.statements, hrun.variableAt ha hroot (.refl g root)⟩

end Lowering

/-- **Scripts of corresponding roots have one content**, whatever their stamps and contexts are. -/
theorem Script.ofGraph_mirrored {g g' : Graph} {root : Nat} {f : Nat → Nat} (ha : Lowering.Aligned g root g' f)
    (hroot : root < g.size) (stamp stamp' : Stamp) (c c' : ContextId) :
    (Script.ofGraph g' stamp' c' (f root)).statements = (Script.ofGraph g stamp c root).statements ∧
      (Script.ofGraph g' stamp' c' (f root)).output = (Script.ofGraph g stamp c root).output := by
  obtain ⟨hstatements, houtput⟩ := Lowering.ofRoot_mirrored ha hroot
  exact ⟨congrArg Array.toList hstatements, houtput⟩

end MatrixPlan
