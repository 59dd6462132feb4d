import MatrixPlan.Workspace.Submit
/-!
# Submission — what computing a root does to the engines

A root that its context validates and rejects leaves the workspace as it was.  Any other root makes the engine of its
context keep one script and use up a reply, if it has one left; the reply decides the answer.
-/
namespace MatrixPlan

namespace Recorder

/-- The reply that the engine gives next. -/
def nextReply (e : Recorder) : Reply := e.replies.head?.getD (.ok e.fallback)

/-- The engine after one more script. -/
def taking (e : Recorder) (s : Script) : Recorder :=
  { e with submitted := e.submitted.push s, replies := e.replies.tail }

theorem execute_eq (e : Recorder) (s : Script) : e.execute s = (e.nextReply, e.taking s) := by
  unfold execute nextReply taking
  dsimp only
  cases e.replies <;> rfl

end Recorder

namespace Workspace

/-- Whether a root of a context is handed over. -/
def passes (w : Workspace) (x : Context) (root : Nat) : Bool :=
  !x.config.validateOnSubmit || (w.graph.validate root).isOk

/-- The workspace after an engine has taken a script. -/
def handOver (w : Workspace) (engine : Nat) (e : Recorder) (s : Script) : Workspace :=
  { w with engines := w.engines.setIfInBounds engine (e.taking s) }

variable {w : Workspace} {root : Nat} {n : Node} {x : Context} {e : Recorder} {cause : PlanError}

theorem script_contextId (stamp : Stamp) (hn : w.node? root = some n) (hx : w.context? n.context = some x) :
    (w.script stamp root).contextId = x.id := by
  simp only [script, hn, Option.elim_some, hx]
  rfl

/-- **A rejected root** is answered with its fault, and nothing changes. -/
theorem submit_rejected (stamp : Stamp) (hn : w.node? root = some n) (hx : w.context? n.context = some x)
    (hv : x.config.validateOnSubmit = true) (he : w.graph.validate root = .error cause) :
    w.submit stamp root = (.error cause, w) := by
  unfold submit
  simp only [hn, Option.bind_some, hx, hv, he, ↓reduceIte]

/-- **A root that is not rejected** is answered with a reply of the engine, which keeps its script. -/
theorem submit_accepted (stamp : Stamp) (hn : w.node? root = some n) (hx : w.context? n.context = some x)
    (hv : x.config.validateOnSubmit = true → w.graph.validate root = .ok ()) (he : w.engines[x.engine]? = some e) :
    w.submit stamp root = (e.nextReply.mapError .execution, w.handOver x.engine e (w.script stamp root)) := by
  have hverdict : (if x.config.validateOnSubmit = true then w.graph.validate root else .ok ()) = .ok () := by
    split
    · rename_i h
      exact hv h
    · rfl
  unfold submit
  simp only [hn, Option.bind_some, hx, hverdict, execute, he, Recorder.execute_eq]
  rfl

theorem passes_iff : w.passes x root = true ↔ (x.config.validateOnSubmit = true → w.graph.validate root = .ok ()) := by
  unfold passes
  rw [Bool.or_eq_true, Bool.not_eq_true']
  cases hv : x.config.validateOnSubmit with
  | false => simp
  | true => cases w.graph.validate root <;> simp [Except.isOk, Except.toBool]

/-- A root that is not handed over has been rejected. -/
theorem exists_cause (h : ¬ w.passes x root = true) :
    ∃ cause, x.config.validateOnSubmit = true ∧ w.graph.validate root = .error cause := by
  rw [passes_iff, Classical.not_imp] at h
  obtain ⟨hv, hbad⟩ := h
  cases hcause : w.graph.validate root with
  | ok _ => exact absurd hcause hbad
  | error cause => exact ⟨cause, hv, rfl⟩

end Workspace
end MatrixPlan
