import MatrixPlan.Proofs.Session.Runs
import MatrixPlan.Proofs.Workspace.Submission
/-!
# Engines — what a step does to the engines

Only a new reply and a computation change an engine that is there; other steps leave the engines as they are or add a
new one (`engines_next`).  The engines of all contexts are in place throughout a run (`Wired`).
-/
namespace MatrixPlan

namespace Workspace

/-- **The engine of each context is in place.** -/
def Wired (w : Workspace) : Prop :=
  ∀ (c : Nat) (x : Context), w.contexts[c]? = some x → x.engine < w.engines.size

variable {w : Workspace} {c : Nat} {x : Context}

theorem engines_build (w : Workspace) (c : Nat) (spec : NodeSpec) : (w.build c spec).2.engines = w.engines := by
  unfold build
  split <;> rfl

theorem size_engines_submit (w : Workspace) (stamp : Stamp) (root : Nat) :
    (w.submit stamp root).2.engines.size = w.engines.size := by
  unfold submit
  split
  · rfl
  · dsimp only
    split
    · rfl
    · unfold execute
      split
      · exact Array.size_setIfInBounds
      · rfl

theorem Wired.build (hw : w.Wired) (c : Nat) (spec : NodeSpec) : (w.build c spec).2.Wired := by
  intro d y hy
  rw [engines_build]
  cases hx : w.context? c with
  | none =>
    simp only [Workspace.build, hx] at hy
    exact hw d y hy
  | some x =>
    rw [build_eq hx, getElem?_setContext hx] at hy
    split at hy
    · cases hy
      exact hw c x hx
    · exact hw d y hy

theorem Wired.drop (hw : w.Wired) (r : Nat) : (w.drop r).Wired := by
  intro c x hx
  obtain ⟨y, hy, heq, -⟩ := foldl_uncount_context hx
  rw [heq]
  exact hw c y hy

theorem Wired.addContext (hw : w.Wired) {engine : Nat} (he : engine < w.engines.size) (id : ContextId)
    (config : Config) : (w.addContext id engine config).2.Wired := by
  intro c x hx
  change (w.contexts.push _)[c]? = _ at hx
  rw [Array.getElem?_push] at hx
  split at hx
  · cases hx
    exact he
  · exact hw c x hx

theorem Wired.submit (hw : w.Wired) (stamp : Stamp) (root : Nat) : (w.submit stamp root).2.Wired := by
  intro c x hx
  rw [(w.submit_snd stamp root).2] at hx
  rw [size_engines_submit]
  exact hw c x hx

theorem Wired.mono (hw : w.Wired) {engines : Array Recorder} (hle : w.engines.size ≤ engines.size) :
    ({ w with engines } : Workspace).Wired := fun c x hx => Nat.lt_of_lt_of_le (hw c x hx) hle

end Workspace

namespace Session

/-- **The engines that contexts and names stand for are in place.** -/
structure Wired (s : Session) : Prop where
  workspace : s.workspace.Wired
  names : ∀ p ∈ s.engines, p.2 < s.workspace.engines.size

variable {s s' : Session} {a name : String} {step : Step}

theorem engines_unbind (s : Session) (name : String) :
    (s.unbind name).workspace.engines = s.workspace.engines ∧ (s.unbind name).engines = s.engines := by
  unfold unbind
  split <;> exact ⟨rfl, rfl⟩

theorem engines_bindBuilt (s : Session) (name : String) (kind : HandleKind) (built : Nat × Workspace) :
    (s.bindBuilt name kind built).2.workspace.engines = built.2.engines ∧
      (s.bindBuilt name kind built).2.engines = s.engines := by
  have hu := engines_unbind { s with workspace := built.2 } name
  unfold bindBuilt bindHandle
  dsimp only
  split <;> exact hu

theorem Wired.unbind (hs : s.Wired) (name : String) : (s.unbind name).Wired := by
  obtain ⟨hworkspace, hnames⟩ := engines_unbind s name
  refine ⟨?_, fun p hp => ?_⟩
  · unfold Session.unbind
    split
    · exact hs.workspace.drop _
    · exact hs.workspace
  · rw [hworkspace]
    rw [hnames] at hp
    exact hs.names p hp

theorem Wired.bindBuilt (hs : s.Wired) {built : Nat × Workspace} (hb : built.2.Wired)
    (heq : built.2.engines = s.workspace.engines) (name : String) (kind : HandleKind) :
    (s.bindBuilt name kind built).2.Wired := by
  have hbuilt : Wired { s with workspace := built.2 } := ⟨hb, fun p hp => by
    change p.2 < built.2.engines.size
    rw [heq]
    exact hs.names p hp⟩
  have hu := hbuilt.unbind name
  unfold Session.bindBuilt bindHandle
  dsimp only
  split <;> exact ⟨hu.workspace, hu.names⟩

/-- **A step keeps a session wired.** -/
theorem Wired.next (hs : s.Wired) (step : Step) : (s.next step).Wired := by
  have hbind : ∀ (name : String) (place : Nat) (engines : Array Recorder),
      s.workspace.engines.size ≤ engines.size → place < engines.size →
      ∀ p ∈ bind name place s.engines, p.2 < engines.size := by
    intro name place engines hle hplace p hp
    rcases List.mem_cons.1 hp with rfl | hp
    · exact hplace
    · exact Nat.lt_of_lt_of_le (hs.names p (List.mem_filter.1 hp).1) hle
  generalize hs' : s.next step = s'
  have ho := outcome s step
  rw [hs'] at ho
  cases ho with
  | idle _ _ hw _ _ he => exact ⟨by rw [hw]; exact hs.workspace, by rw [hw, he]; exact hs.names⟩
  | engine name fallback =>
    have hlt : s.workspace.engines.size < (s.workspace.engines.push { fallback }).size := by simp
    exact ⟨hs.workspace.mono hlt.le, hbind name _ _ hlt.le hlt⟩
  | reply engine reply place =>
    have hsize : s.workspace.engines.size = (s.workspace.engines.modify place fun e => e.push reply).size := by simp
    exact ⟨hs.workspace.mono (Nat.le_of_eq hsize), fun p hp => Nat.lt_of_lt_of_eq (hs.names p hp) hsize⟩
  | context name engine config place engines he =>
    have hle : s.workspace.engines.size ≤ engines.size := by
      rcases he with ⟨rfl, -⟩ | ⟨rfl, -⟩ <;> simp
    have hplace : place < engines.size := by
      rcases he with ⟨rfl, p, hp, rfl⟩ | ⟨rfl, rfl⟩
      · exact hs.names p hp
      · simp
    exact ⟨(hs.workspace.mono hle).addContext hplace _ _, fun p hp => Nat.lt_of_lt_of_le (hs.names p hp) hle⟩
  | source | apply | node => exact hs.bindBuilt (hs.workspace.build _ _) (Workspace.engines_build _ _ _) _ _
  | clone => exact hs.bindBuilt hs.workspace rfl _ _
  | drop a => exact hs.unbind a
  | compute a h hh =>
    refine ⟨hs.workspace.submit _ _, fun p hp => ?_⟩
    change p.2 < (s.workspace.submit _ _).2.engines.size
    rw [Workspace.size_engines_submit]
    exact hs.names p hp

theorem wired_empty : Wired {} where
  workspace c x hx := by simp at hx
  names p hp := by cases hp

theorem Wired.foldl_next (hs : s.Wired) (steps : List Step) : (steps.foldl Session.next s).Wired := by
  induction steps generalizing s with
  | nil => exact hs
  | cons step steps ih => exact ih (hs.next step)

end Session
end MatrixPlan
