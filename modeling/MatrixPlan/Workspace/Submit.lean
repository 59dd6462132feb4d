import MatrixPlan.Graph.Validate
import MatrixPlan.Script.Lowering
import MatrixPlan.Workspace.Application
import MatrixPlan.Workspace.Basic
import MatrixPlan.Workspace.Source
/-!
# Submit — building on a workspace and asking for values

Only `compute` reaches an engine.  A graph that is validated and fails is not handed over; otherwise the engine takes
one script and gives one reply, which must be a value of the kind asked for.
-/
namespace MatrixPlan
namespace Workspace

def addSource (w : Workspace) (c : Nat) (source : Source) : Nat × Workspace := w.build c source.spec

/-- A new node from an operation on others, in the context of its first operand and with the estimates of this
context. -/
def apply (w : Workspace) (application : Application Nat) : Nat × Workspace :=
  let c := (w.node? application.first).elim 0 fun n => n.context
  let case := (w.context? c).elim .average fun x => x.config.estimator
  w.build c (application.spec w.graph case)

def script (w : Workspace) (stamp : Stamp) (root : Nat) : Script :=
  let c := (w.node? root).elim 0 fun n => n.context
  Script.ofGraph w.graph stamp ((w.context? c).elim ⟨stamp.id⟩ fun x => x.id) root

def execute (w : Workspace) (engine : Nat) (s : Script) : Reply × Workspace :=
  match w.engines[engine]? with
  | some e =>
    let (reply, e) := e.execute s
    (reply, { w with engines := w.engines.setIfInBounds engine e })
  | none => (.ok .empty, w)

/-- Validates a graph if its context asks for it, and hands its script to the engine of the context. -/
def submit (w : Workspace) (stamp : Stamp) (root : Nat) : Except PlanError EngineValue × Workspace :=
  match (w.node? root).bind fun n => w.context? n.context with
  | none => (.error (.internal "no such node"), w)
  | some context =>
    let verdict := if context.config.validateOnSubmit then w.graph.validate root else .ok ()
    match verdict with
    | .error e => (.error e, w)
    | .ok () =>
      let (reply, w) := w.execute context.engine (w.script stamp root)
      (reply.mapError .execution, w)

/-- A reply taken as a value of one kind. -/
def valueOf (convert : EngineValue → Except ExecutionError α) :
    Except PlanError EngineValue → Except PlanError α
  | .error e => .error e
  | .ok v => (convert v).mapError .execution

def computeMatrix (w : Workspace) (stamp : Stamp) (root : Nat) : Except PlanError Dense × Workspace :=
  let (reply, w) := w.submit stamp root
  (valueOf EngineValue.toMatrix reply, w)

def computeScalar (w : Workspace) (stamp : Stamp) (root : Nat) : Except PlanError Float × Workspace :=
  let (reply, w) := w.submit stamp root
  (valueOf EngineValue.toScalar reply, w)

end Workspace
end MatrixPlan
