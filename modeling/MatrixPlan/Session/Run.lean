import MatrixPlan.Codec.Script
import MatrixPlan.Session.Step
/-!
# Run — steps of a session one after another

A step that fails binds nothing; a value that could not be had may still have taken a reply from the engine.  A name
that is bound again loses its old handle after the new node has been built.  Identifiers and times come from a counter,
so two contexts, and two scripts, never share one.
-/
namespace MatrixPlan

structure Session where
  workspace : Workspace := {}
  /-- The bound handles, each name once. -/
  handles : List (String × Handle) := []
  contexts : List (String × Nat) := []
  engines : List (String × Nat) := []
  issued : Nat := 0

namespace Session

def bind (name : String) (value : α) (table : List (String × α)) : List (String × α) :=
  (name, value) :: table.filter fun p => p.1 != name

/-- The value of a name, or the field that held a name without one. -/
def lookup (table : List (String × α)) (field name : String) : Except String α :=
  match table.lookup name with
  | some v => .ok v
  | none => .error field

/-- An identifier that has not been given out. -/
def issue (s : Session) : Stamp × Session :=
  (⟨Uuid.ofNat s.issued, Timestamp.ofSeconds s.issued⟩, { s with issued := s.issued + 1 })

def handle (s : Session) (field name : String) : Except String Handle := lookup s.handles field name

def matrixNode (s : Session) (field name : String) : Except String Nat := do
  let h ← s.handle field name
  if h.kind = .matrix then return h.node else throw field

def engine (s : Session) (field name : String) : Except String Nat := lookup s.engines field name

def context (s : Session) (field name : String) : Except String Nat := lookup s.contexts field name

def unbind (s : Session) (name : String) : Session :=
  match s.handles.lookup name with
  | some h => { s with
      workspace := s.workspace.drop h.node
      handles := s.handles.filter fun p => p.1 != name }
  | none => s

/-- Binds a name to a node that has an owner for it. -/
def bindHandle (s : Session) (name : String) (h : Handle) : Answer × Session :=
  let s := s.unbind name
  let s := { s with handles := bind name h s.handles }
  match s.workspace.node? h.node with
  | some n => (.bound n (s.workspace.nodeCount n.context), s)
  | none => (.unusable "as", s)

/-- Binds a name to the node just built. -/
def bindBuilt (s : Session) (name : String) (kind : HandleKind) (built : Nat × Workspace) : Answer × Session :=
  bindHandle { s with workspace := built.2 } name ⟨kind, built.1⟩

/-- Whether the result of an application is a single value. -/
def kindOf : Application α → HandleKind
  | .sum _ | .auc _ _ => .scalar
  | _ => .matrix

def input (s : Session) : NamedInput → Except String Input
  | .handle name => return .node (← s.handle "node" name).node
  | .literal value => return .literal value

/-- A request with its inputs found. -/
def specOf (s : Session) (r : NodeRequest) : Except String NodeSpec := do
  let unnamed ← r.unnamed.mapM s.input
  let named ← r.named.mapM fun p => do return (p.1, ← s.input p.2)
  return { operation := r.operation, kind := r.kind, output := r.output, unnamed, named, metadata := r.metadata }

def nameOf (s : Session) (r : Nat) : NodeName :=
  match s.workspace.node? r with
  | some n => n.name
  | none => ⟨0, 0⟩

def shown (s : Session) : Input → ShownInput
  | .node r => .node (s.nameOf r)
  | .literal value => .literal value.text

def infoOf (s : Session) (n : Node) : NodeInfo where
  node := n
  unnamed := n.unnamed.map s.shown
  named := n.named.map fun p => (p.1, s.shown p.2)
  namedMap := n.namedInputMap.map fun p => (p.1, s.shown p.2)
  inputNodes := n.inputNodes.map s.nameOf

def placed (s : Session) (script : Script) : Nat × Script := ((s.workspace.placeOf? script.contextId).getD 0, script)

def scriptOf (s : Session) (name : String) : Except String (Script × Session) := do
  let h ← s.handle "a" name
  let (stamp, s) := s.issue
  return (s.workspace.script stamp h.node, s)

def compute (s : Session) (h : Handle) : Answer × Session :=
  let (stamp, s) := s.issue
  match h.kind with
  | .matrix =>
    let (value, w) := s.workspace.computeMatrix stamp h.node
    (match value with
      | .ok m => .matrix m
      | .error e => .failed e, { s with workspace := w })
  | .scalar =>
    let (value, w) := s.workspace.computeScalar stamp h.node
    (match value with
      | .ok x => .scalar x
      | .error e => .failed e, { s with workspace := w })

def addContext (s : Session) (name : String) (engine : Option String) (config : Config) :
    Except String (Answer × Session) := do
  let (place, w) ← match engine with
    | some e => pure (← s.engine "exec" e, s.workspace)
    | none => pure (s.workspace.addEngine {})
  let (stamp, s) := s.issue
  let (c, w) := w.addContext ⟨stamp.id⟩ place config
  return (.context c config, { s with workspace := w, contexts := bind name c s.contexts })

def modifyEngine (s : Session) (place : Nat) (f : Recorder → Recorder) : Session :=
  { s with workspace := { s.workspace with engines := s.workspace.engines.modify place f } }

def recorder (s : Session) (place : Nat) : Recorder := s.workspace.engines.getD place {}

/-- The answer to a step other than a repetition, or the field that cannot be used. -/
def act (s : Session) : Step → Except String (Answer × Session)
  | .engine name fallback =>
    let (place, w) := s.workspace.addEngine { fallback }
    return (.ok, { s with workspace := w, engines := bind name place s.engines })
  | .reply engine reply => do
    let place ← s.engine "exec" engine
    return (.ok, s.modifyEngine place fun e => e.push reply)
  | .calls engine => do
    let place ← s.engine "exec" engine
    return (.count (s.recorder place).callCount, s)
  | .submitted engine => do
    let place ← s.engine "exec" engine
    return (.submitted ((s.recorder place).submitted.toList.map s.placed), s)
  | .context name engine config => s.addContext name engine config
  | .count context => do
    let c ← s.context "ctx" context
    return (.count (s.workspace.nodeCount c), s)
  | .operationCount context operation => do
    let c ← s.context "ctx" context
    return (.count (s.workspace.operationCount c operation), s)
  | .source name context source => do
    let c ← s.context "ctx" context
    return s.bindBuilt name (.ofOutput source.spec.output) (s.workspace.addSource c source)
  | .apply name application => do
    let placed ← application.mapM s.matrixNode
    return s.bindBuilt name (kindOf application) (s.workspace.apply placed)
  | .node name context request => do
    let c ← s.context "ctx" context
    let spec ← s.specOf request
    return s.bindBuilt name (.ofOutput spec.output) (s.workspace.build c spec)
  | .clone name a => do
    let h ← s.handle "a" a
    return s.bindBuilt name h.kind (h.node, s.workspace.retain h.node)
  | .drop a => do
    let h ← s.handle "a" a
    let s := s.unbind a
    return (.count (s.workspace.nodeCount (s.nameOf h.node).context), s)
  | .same a b => do
    let x ← s.handle "a" a
    let y ← s.handle "b" b
    return (.same (if x.kind = y.kind then some (x.node == y.node) else none)
      ((s.nameOf x.node).context == (s.nameOf y.node).context), s)
  | .info a => do
    let h ← s.handle "a" a
    match s.workspace.node? h.node with
    | some n => return (.info (s.infoOf n), s)
    | none => throw "a"
  | .validate a => do
    let h ← s.handle "a" a
    match s.workspace.graph.validate h.node with
    | .ok () => return (.valid, s)
    | .error e => return (.failed e, s)
  | .script a => do
    let (script, s) ← s.scriptOf a
    let (place, script) := s.placed script
    return (.script place script script.survives, s)
  | .fingerprint a => do
    let (script, s) ← s.scriptOf a
    return (.fingerprint script, s)
  | .compute a => do
    let h ← s.handle "a" a
    return s.compute h
  | .rounds _ _ => return (.answers [], s)
  | .unusable field => throw field
  | .invalid cause => return (.invalid cause, s)

/-- An answer for every step; one that cannot be used leaves the session as it is. -/
def settle (s : Session) : Except String (Answer × Session) → Answer × Session
  | .ok r => r
  | .error field => (.unusable field, s)

mutual

def run (s : Session) : Step → Answer × Session
  | .rounds n steps =>
    let (answers, s) := n.repeat (fun r => runAll r.2 steps) ([], s)
    (.answers answers, s)
  | step => s.settle (s.act step)

def runAll (s : Session) : List Step → List Answer × Session
  | [] => ([], s)
  | step :: steps =>
    let (answer, s) := run s step
    let (answers, s) := runAll s steps
    (answer :: answers, s)

end

end Session
end MatrixPlan
