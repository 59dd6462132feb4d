import MatrixPlan.Proofs.Script.Lockstep
import MatrixPlan.Proofs.Workspace.Origins
/-!
# Structure — a script depends on the structure of its graph alone

In workspaces that moves lead to, roots of graphs of one structure have scripts of one content, as long as no context
has made more nodes than it has numbers.  When, where and under which numbers the nodes were built, and what else was
built among them, is no part of it.
-/
namespace MatrixPlan

/-- Distinct names are told apart alike on both sides. -/
theorem Lowering.Aligned.of_mirrors {g g' : Graph} {root root' : Nat} {f : Nat → Nat} (hm : g.Mirrors root g' root' f)
    (hd : g.DistinctNames) (hd' : g'.DistinctNames) : Lowering.Aligned g root g' f where
  nodes := hm.nodes
  names r q n m n' m' hr hq hn hm₁ hn' hm' := by
    constructor
    · intro hname
      have hrq : r = q := hm.bijective.injOn hr hq (hd' (f r) (f q) n' m' hn' hm' hname)
      subst hrq
      cases hn.symm.trans hm₁
      rfl
    · intro hname
      have hrq : r = q := hd r q n m hn hm₁ hname
      subst hrq
      cases hn'.symm.trans hm'
      rfl

namespace Workspace

variable {w w' : Workspace} {held held' : Multiset Nat} {permit permit' : Workspace → Nat → NodeSpec → Prop}

/-- **Graphs of one structure have one script**: the same statements, the same output and so the same fingerprint. -/
theorem Reachable.script_of_structure (h : Reachable permit w held) (h' : Reachable permit' w' held')
    (hfew : ∀ c, w.graph.builtIn c ≤ 2 ^ 64) (hfew' : ∀ c, w'.graph.builtIn c ≤ 2 ^ 64) {root root' : Nat} {top : Node}
    (hroot : w.node? root = some top) {f : Nat → Nat} (hm : w.graph.Mirrors root w'.graph root' f)
    (stamp stamp' : Stamp) :
    (w'.script stamp' root').statements = (w.script stamp root).statements ∧
      (w'.script stamp' root').output = (w.script stamp root).output ∧
      (w'.script stamp' root').fingerprint = (w.script stamp root).fingerprint := by
  have hd := h.sound.numbered.distinctNames hfew
  have hd' := h'.sound.numbered.distinctNames hfew'
  have hlt : root < w.graph.size := Graph.lt_of_node? hroot
  rw [← hm.roots]
  obtain ⟨hstatements, houtput⟩ := Script.ofGraph_mirrored (.of_mirrors hm hd hd') hlt stamp stamp' _ _
  exact ⟨hstatements, houtput, Script.fingerprint_congr hstatements houtput⟩

/-- The path of a matrix, with quotes and a backslash and with a line that looks like a statement. -/
def trickyPath : String := "x\\', 'y');\nV1 = read('z"

/-- Two contexts with a product of the same two matrices each, which are read in turned order, with and without known
extents, and with another node built in between. -/
def twofold : Workspace :=
  let w : Workspace := (({} : Workspace).addContext ⟨Uuid.ofNat 0⟩ 0 {}).2
  let w := (w.addContext ⟨Uuid.ofNat 1⟩ 0 { estimator := .worst }).2
  let w := (w.addSource 0 (.read trickyPath .unknown)).2
  let w := (w.addSource 0 (.full 5 1 0.5)).2
  let w := (w.apply (.cbind 0 1)).2
  let w := (w.addSource 1 (.full 5 1 0.5)).2
  let w := (w.addSource 1 (.scalar 2.0)).2
  let w := (w.addSource 1 (.read trickyPath ⟨some 5, none, none⟩)).2
  (w.apply (.cbind 5 3)).2

/-- The node of the second product that corresponds to a node of the first. -/
def counterpart (r : Nat) : Nat := if r = 0 then 5 else if r = 1 then 3 else 6

theorem reachable_twofold : ∃ held, Reachable offered twofold held := by
  have h : Reachable offered _ _ := .tail (.single (.context _ _ ⟨Uuid.ofNat 0⟩ 0 {})) (.context _ _ ⟨Uuid.ofNat 1⟩ 0
    { estimator := .worst })
  have h := h.addSource (c := 0) (by decide) (.read trickyPath .unknown)
  have h := h.addSource (c := 0) (by decide) (.full 5 1 0.5)
  have h := h.apply (a := .cbind 0 1) (by decide)
  have h := h.addSource (c := 1) (by decide) (.full 5 1 0.5)
  have h := h.addSource (c := 1) (by decide) (.scalar 2.0)
  have h := h.addSource (c := 1) (by decide) (.read trickyPath ⟨some 5, none, none⟩)
  have h := h.apply (a := .cbind 5 3) (by decide)
  exact ⟨_, h⟩

theorem builtIn_twofold (c : Nat) : twofold.graph.builtIn c ≤ 2 ^ 64 :=
  (twofold.graph.builtIn_le_size c).trans (by decide)

theorem reaches_twofold (r : Nat) : (twofold.graph.Reaches 2 r ↔ r = 0 ∨ r = 1 ∨ r = 2) ∧
    (twofold.graph.Reaches 6 r ↔ r = 5 ∨ r = 3 ∨ r = 6) := by
  have hin : twofold.graph.inputs 0 = [] ∧ twofold.graph.inputs 1 = [] ∧ twofold.graph.inputs 2 = [0, 1] ∧
      twofold.graph.inputs 3 = [] ∧ twofold.graph.inputs 5 = [] ∧ twofold.graph.inputs 6 = [5, 3] := by decide
  obtain ⟨h0, h1, h2, h3, h5, h6⟩ := hin
  refine ⟨⟨fun hr => ?_, ?_⟩, ⟨fun hr => ?_, ?_⟩⟩
  · refine hr.mem_of_closed (S := fun r => r = 0 ∨ r = 1 ∨ r = 2) (by simp) ?_
    rintro q (rfl | rfl | rfl) i hi <;> grind
  · have hroot : twofold.graph.Reaches 2 2 := .refl _ 2
    rintro (rfl | rfl | rfl)
    · exact hroot.input (by simp [h2])
    · exact hroot.input (by simp [h2])
    · exact hroot
  · refine hr.mem_of_closed (S := fun r => r = 5 ∨ r = 3 ∨ r = 6) (by simp) ?_
    rintro q (rfl | rfl | rfl) i hi <;> grind
  · have hroot : twofold.graph.Reaches 6 6 := .refl _ 6
    rintro (rfl | rfl | rfl)
    · exact hroot.input (by simp [h6])
    · exact hroot.input (by simp [h6])
    · exact hroot

theorem mirrors_twofold : twofold.graph.Mirrors 2 twofold.graph 6 counterpart where
  bijective := by
    refine ⟨fun r hr => ?_, fun r hr q hq heq => ?_, fun r hr => ?_⟩
    · refine (reaches_twofold _).2.2 ?_
      obtain rfl | rfl | rfl := (reaches_twofold r).1.1 hr <;> decide
    · obtain rfl | rfl | rfl := (reaches_twofold r).1.1 hr <;>
        obtain rfl | rfl | rfl := (reaches_twofold q).1.1 hq <;> first | rfl | cases heq
    · obtain rfl | rfl | rfl := (reaches_twofold r).2.1 hr
      · exact ⟨0, (reaches_twofold 0).1.2 (by decide), rfl⟩
      · exact ⟨1, (reaches_twofold 1).1.2 (by decide), rfl⟩
      · exact ⟨2, (reaches_twofold 2).1.2 (by decide), rfl⟩
  roots := rfl
  nodes r n hr hn := by
    obtain rfl | rfl | rfl := (reaches_twofold r).1.1 hr
    all_goals
      cases hn
      exact ⟨_, rfl, rfl, rfl, rfl, rfl⟩

/-- The two products have one script. -/
theorem script_of_structure_twofold : (∃ held, Reachable offered twofold held) ∧
    twofold.graph.Mirrors 2 twofold.graph 6 counterpart ∧
    ∀ stamp stamp', (twofold.script stamp' 6).fingerprint = (twofold.script stamp 2).fingerprint := by
  obtain ⟨held, h⟩ := reachable_twofold
  exact ⟨⟨held, h⟩, mirrors_twofold, fun stamp stamp' =>
    (h.script_of_structure h builtIn_twofold builtIn_twofold rfl mirrors_twofold stamp stamp').2.2⟩

end Workspace
end MatrixPlan
