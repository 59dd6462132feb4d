import MatrixPlan.Engine.Value
import MatrixPlan.Script.Basic
/-!
# Recorder — an engine that keeps scripts and gives prepared replies

Every script handed over is kept.  Replies are given in the order they were queued; when none is left the answer is the
fallback.
-/
namespace MatrixPlan

structure Recorder where
  /-- The scripts handed over, the oldest first. -/
  submitted : Array Script := #[]
  /-- The replies still to be given, the next one first. -/
  replies : List Reply := []
  fallback : EngineValue := .empty

namespace Recorder

def push (e : Recorder) (r : Reply) : Recorder := { e with replies := e.replies ++ [r] }

def execute (e : Recorder) (s : Script) : Reply × Recorder :=
  let e := { e with submitted := e.submitted.push s }
  match e.replies with
  | [] => (.ok e.fallback, e)
  | r :: rest => (r, { e with replies := rest })

def callCount (e : Recorder) : Nat := e.submitted.size

end Recorder
end MatrixPlan
