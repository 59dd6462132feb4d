import MatrixPlan.Engine.Recorder
import MatrixPlan.Metadata.Estimate
import MatrixPlan.Workspace.Heap
import MatrixPlan.Workspace.Registry
/-!
# Workspace — contexts, engines and the nodes of all contexts

A context gives numbers to its nodes, registers them, and submits graphs to its engine.  Contexts share one table of
nodes, since a node may use nodes of other contexts; contexts and engines are known by their places.
-/
namespace MatrixPlan

structure Config where
  estimator : Estimator := .average
  /-- Whether a graph is validated before its script is handed over. -/
  validateOnSubmit : Bool := true
  /-- The most registered nodes alive at a time. -/
  maxNodes : UInt64 := 1048576
  deriving DecidableEq, Repr

structure Context where
  id : ContextId
  config : Config
  engine : Nat
  nextNode : UInt64 := 0
  registry : Registry := {}

/-- A number for a new node of an operation, and why it is not registered, if it is not.  The number is used up in
either case. -/
def Context.register (c : Context) (operation : String) : UInt64 × Option GraphError × Context :=
  let next := { c with nextNode := c.nextNode + 1 }
  match c.registry.fault? c.config.maxNodes with
  | some e => (c.nextNode, some e, next)
  | none => (c.nextNode, none, { next with registry := c.registry.enter operation })

structure Workspace where
  heap : Heap := .empty
  contexts : Array Context := #[]
  engines : Array Recorder := #[]

namespace Workspace

def graph (w : Workspace) : Graph := w.heap.graph

def node? (w : Workspace) (r : Nat) : Option Node := w.graph.node? r

def context? (w : Workspace) (c : Nat) : Option Context := w.contexts[c]?

/-- The number of registered nodes of a context that are alive. -/
def nodeCount (w : Workspace) (c : Nat) : Nat := (w.context? c).elim 0 fun x => x.registry.registered

def operationCount (w : Workspace) (c : Nat) (operation : String) : Nat :=
  (w.context? c).elim 0 fun x => x.registry.countOf operation

def placeOf? (w : Workspace) (id : ContextId) : Option Nat := w.contexts.findIdx? fun c => c.id == id

/-- How messages call the context at a place. -/
def contextName (w : Workspace) (c : Nat) : String := (w.context? c).elim "" fun x => x.id.text

def addEngine (w : Workspace) (e : Recorder) : Nat × Workspace :=
  (w.engines.size, { w with engines := w.engines.push e })

def addContext (w : Workspace) (id : ContextId) (engine : Nat) (config : Config) : Nat × Workspace :=
  (w.contexts.size, { w with contexts := w.contexts.push { id, config, engine } })

/-- A new node of a context, with one owner, and its place. -/
def build (w : Workspace) (c : Nat) (spec : NodeSpec) : Nat × Workspace :=
  match w.context? c with
  | none => (w.graph.size, w)
  | some context =>
    let (id, registration, context) := context.register spec.operation
    let node : Node := { spec with context := c, id, registration }
    (w.graph.size, { w with heap := w.heap.add node, contexts := w.contexts.setIfInBounds c context })

def retain (w : Workspace) (r : Nat) : Workspace := { w with heap := w.heap.retain r }

/-- The contexts after the death of a node: if it was registered, its context counts one less. -/
def uncount (g : Graph) (contexts : Array Context) (r : Nat) : Array Context :=
  match g.node? r with
  | some n =>
    if n.registration.isNone then
      contexts.modify n.context fun c => { c with registry := c.registry.leave n.operation }
    else contexts
  | none => contexts

def drop (w : Workspace) (r : Nat) : Workspace :=
  let (heap, freed) := w.heap.release r
  { w with heap, contexts := freed.foldl (uncount heap.graph) w.contexts }

end Workspace
end MatrixPlan
