import MatrixPlan.Proofs.Graph.Frame
import MatrixPlan.Proofs.Script.Lockstep
import MatrixPlan.Proofs.Session.Growth
import MatrixPlan.Proofs.Session.Runs
/-!
# Stability — what a handle stands for does not change

A node that dies gives up its inputs, so what is left of a graph in memory lacks them (`Heap.remains`).  Nothing of this
is below a node that is held: while a handle is bound, all that its node uses is alive and as it was, with the same
script and the same verdict.
-/
namespace MatrixPlan

/-- A node that has given up its inputs. -/
def Node.emptied (n : Node) : Node := { n with unnamed := [], named := [] }

theorem Node.inputNodes_emptied (n : Node) : n.emptied.inputNodes = [] := rfl

/-- **What is left of the graph**: the dead have given up their inputs. -/
def Heap.remains (h : Heap) : Graph where
  nodes := h.graph.nodes.mapIdx fun r n => if h.isAlive r then n else n.emptied
  inputs_before r hr i hi := by
    rw [Array.getElem_mapIdx] at hi
    split at hi
    · exact h.graph.inputs_before r (by simpa using hr) i hi
    · simp [Node.inputNodes_emptied] at hi

theorem Heap.node?_remains (h : Heap) (r : Nat) :
    h.remains.node? r = (h.graph.node? r).map fun n => if h.isAlive r then n else n.emptied := Array.getElem?_mapIdx

/-- **Nothing is missing below a node that is held.** -/
theorem Heap.OwnedBy.agreeBelow_remains {h : Heap} {held : Multiset Nat} (ho : h.OwnedBy held) {root : Nat}
    (hroot : root ∈ held) : h.graph.AgreeBelow h.remains root := by
  intro r hr
  have halive : h.isAlive r = true := (Multiset.mem_filter.1 (ho.mem_living_iff.2 ⟨root, hroot, hr⟩)).2
  rw [Heap.node?_remains]
  simp [halive]

/-- **A script depends on what is below the root alone.** -/
theorem Graph.AgreeBelow.script {g g' : Graph} {root : Nat} (h : g.AgreeBelow g' root) (hroot : root < g.size)
    (stamp : Stamp) (c : ContextId) : Script.ofGraph g' stamp c root = Script.ofGraph g stamp c root := by
  have ha : Lowering.Aligned g root g' id :=
    { nodes := fun r n hr hn => ⟨n, (h r hr).trans hn, .refl _⟩
      names := fun r q n m n' m' hr hq hn hm hn' hm' => by
        cases hn.symm.trans ((h r hr).symm.trans hn')
        cases hm.symm.trans ((h q hq).symm.trans hm')
        rfl }
  obtain ⟨hstatements, houtput⟩ := Lowering.ofRoot_mirrored ha hroot
  unfold Script.ofGraph
  dsimp only
  rw [h root (.refl g root)]
  exact congrArg₂ (fun statements output => Script.make stamp c statements output _) (congrArg Array.toList hstatements)
    houtput

namespace Session

variable {s t : Session} {root : Nat} {permit : Workspace → Nat → NodeSpec → Prop} {p : String × Handle}

/-! ### Names that stay bound -/

/-- The name that a step binds anew or gives up. -/
def takes? : Step → Option String
  | .source name _ _ | .apply name _ | .node name _ _ | .clone name _ | .drop name => some name
  | _ => none

theorem mem_held (hp : p ∈ s.handles) : p.2.node ∈ s.held := Multiset.mem_coe.2 (List.mem_map.2 ⟨p, hp, rfl⟩)

theorem mem_handles_unbind (hp : p ∈ s.handles) {name : String} (hne : p.1 ≠ name) : p ∈ (s.unbind name).handles := by
  unfold unbind
  split
  · exact List.mem_filter.2 ⟨hp, by simpa using hne⟩
  · exact hp

theorem mem_handles_bindBuilt (hp : p ∈ s.handles) {name : String} (hne : p.1 ≠ name) (kind : HandleKind)
    (built : Nat × Workspace) : p ∈ (s.bindBuilt name kind built).2.handles := by
  have hu := mem_handles_unbind (s := { s with workspace := built.2 }) hp hne
  unfold bindBuilt bindHandle
  dsimp only
  split <;> exact List.mem_cons_of_mem _ (List.mem_filter.2 ⟨hu, by simpa using hne⟩)

/-- **A handle stays bound through each step that does not take its name.** -/
theorem mem_handles_next (hp : p ∈ s.handles) {step : Step} (hne : takes? step ≠ some p.1) :
    p ∈ (s.next step).handles := by
  have hname : ∀ name : String, some name ≠ some p.1 → p.1 ≠ name := fun name h heq => h (congrArg some heq.symm)
  generalize hs' : s.next step = s'
  have ho := outcome s step
  rw [hs'] at ho
  cases ho with
  | idle _ _ _ hh => exact hh ▸ hp
  | engine | reply | context | compute => exact hp
  | source | apply | node | clone => exact mem_handles_bindBuilt hp (hname _ hne) _ _
  | drop a => exact mem_handles_unbind hp (hname _ hne)

theorem mem_handles_foldl_next {steps : List Step} (hp : p ∈ s.handles) (hne : ∀ step ∈ steps, takes? step ≠ some p.1) :
    p ∈ (steps.foldl next s).handles := by
  induction steps generalizing s with
  | nil => exact hp
  | cons step steps ih =>
    exact ih (mem_handles_next hp (hne step List.mem_cons_self)) fun q hq => hne q (List.mem_cons_of_mem _ hq)

/-! ### What they are bound to -/

/-- **What is below a node is the same in a later session.** -/
structure Stable (s t : Session) (root : Nat) : Prop where
  alive : ∀ r, s.workspace.graph.Reaches root r → r ∈ t.workspace.heap.living
  below : ∀ r, t.workspace.graph.Reaches root r ↔ s.workspace.graph.Reaches root r
  /-- Each node, with its inputs, metadata and registration, in the table and in memory. -/
  nodes : ∀ r, s.workspace.graph.Reaches root r → ∃ n, s.workspace.node? r = some n ∧ t.workspace.node? r = some n ∧
    t.workspace.heap.remains.node? r = some n
  verdict : t.workspace.graph.validate root = s.workspace.graph.validate root
  scripts : ∀ stamp stamp',
    (t.workspace.script stamp' root).statements = (s.workspace.script stamp root).statements ∧
    (t.workspace.script stamp' root).output = (s.workspace.script stamp root).output ∧
    (t.workspace.script stamp' root).fingerprint = (s.workspace.script stamp root).fingerprint
  /-- The verdict and the script are those of what is left in memory. -/
  memory : t.workspace.heap.remains.validate root = s.workspace.graph.validate root ∧
    ∀ stamp c, Script.ofGraph t.workspace.heap.remains stamp c root = Script.ofGraph s.workspace.graph stamp c root
  /-- A node that was built beyond the limit stays rejected. -/
  rejected : ∀ n e, s.workspace.node? root = some n → n.registration = some e →
    t.workspace.graph.validate root = .error (.graph e)

/-- **Nodes that are held before and after** are stable, as the table grows and what is held keeps alive what it uses. -/
theorem Sound.stable (hs : Sound permit 0 s) (ht : Sound permit 0 t) (hgrows : s.workspace.graph.Grows t.workspace.graph)
    (hheld : root ∈ s.held) (hkept : root ∈ t.held) : Stable s t root := by
  have hso := hs.reachable.sound.owned
  have hto := ht.reachable.sound.owned
  rw [Multiset.zero_add] at hso hto
  have hlt : root < s.workspace.graph.size := Heap.lt_size_of_mem_living (hso.mem_living hheld)
  have hnode : ∀ r, s.workspace.graph.Reaches root r → ∃ n, s.workspace.graph.node? r = some n ∧
      t.workspace.graph.node? r = some n := fun r hr => by
    obtain ⟨n, hn⟩ := Graph.exists_node? (hr.lt_size hlt)
    exact ⟨n, hn, hgrows.node? hn⟩
  have hagree : s.workspace.graph.AgreeBelow t.workspace.graph root := fun r hr => by
    obtain ⟨n, hn, hn'⟩ := hnode r hr
    rw [hn, hn']
  have hleft : s.workspace.graph.AgreeBelow t.workspace.heap.remains root := fun r hr =>
    (hto.agreeBelow_remains hkept r (hagree.reaches hr)).trans (hagree r hr)
  refine ⟨fun r hr => hto.mem_living_iff.2 ⟨root, hkept, hagree.reaches hr⟩, fun r => hagree.reaches_iff, fun r hr => ?_,
    hagree.validate, fun stamp stamp' => ?_, ⟨hleft.validate, hleft.script hlt⟩, fun n e hn he => ?_⟩
  · obtain ⟨n, hn, hn'⟩ := hnode r hr
    exact ⟨n, hn, hn', (hleft r hr).trans hn⟩
  · -- the stamp and the context are no part of the statements
    have hscript := hagree.script hlt stamp ⟨stamp.id⟩
    have hstatements : (t.workspace.script stamp' root).statements = (s.workspace.script stamp root).statements :=
      (congrArg Script.statements hscript :)
    have houtput : (t.workspace.script stamp' root).output = (s.workspace.script stamp root).output :=
      (congrArg Script.output hscript :)
    exact ⟨hstatements, houtput, Script.fingerprint_congr hstatements houtput⟩
  · rw [hagree.validate]
    refine Graph.validate_of_fault? hn ?_
    rw [Graph.fault?, he]

/-- **Handles are stable.**  Whatever a session goes through, a node that handles are bound to before and after is alive
with all that it uses, each of its nodes is as it was, and script and verdict are the same. -/
theorem handles_stable (steps later : List Step) (hheld : root ∈ (runAll {} steps).2.held)
    (hkept : root ∈ ((runAll {} steps).2.runAll later).2.held) :
    Stable (runAll {} steps).2 ((runAll {} steps).2.runAll later).2 root := by
  have hs := sound_runAll steps
  exact hs.stable (hs.after later) (grows_runAll _ later) hheld hkept

/-- A context for one node, which is taken; a matrix and its sum are beyond the limit. -/
def crowding : List Step :=
  [.context "c" none { maxNodes := 1 }, .source "a" "c" (.scalar 1.0), .source "x" "c" (.read "x.csv" .unknown),
    .apply "s" (.sum "x")]

/-- The taken place is freed and taken again, and the handle on the matrix goes. -/
def clearing : List Step := [.drop "a", .source "b" "c" (.scalar 2.0), .drop "x"]

/-- The sum stays rejected, and the matrix it uses alive. -/
theorem handles_stable_clearing : 2 ∈ (runAll {} crowding).2.held ∧ 2 ∈ ((runAll {} crowding).2.runAll clearing).2.held ∧
    1 ∈ ((runAll {} crowding).2.runAll clearing).2.workspace.heap.living ∧
    ((runAll {} crowding).2.runAll clearing).2.workspace.graph.validate 2 =
      .error (.graph (.nodeLimitExceeded 1)) := by
  have hheld : 2 ∈ (runAll {} crowding).2.held := by decide
  have hbound : ("s", ⟨.scalar, 2⟩) ∈ (runAll {} crowding).2.handles := by decide
  have hkept : 2 ∈ ((runAll {} crowding).2.runAll clearing).2.held := by
    rw [runAll_snd]
    exact mem_held (mem_handles_foldl_next hbound (by decide))
  have h := handles_stable crowding clearing hheld hkept
  have huses : (runAll {} crowding).2.workspace.graph.Reaches 2 1 := (Graph.Reaches.refl _ 2).input (by decide)
  exact ⟨hheld, hkept, h.alive 1 huses, h.rejected _ _ rfl rfl⟩

end Session
end MatrixPlan
