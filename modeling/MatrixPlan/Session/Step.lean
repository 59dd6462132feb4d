import MatrixPlan.Workspace.Submit
/-!
# Step — what a session is asked and what it answers

A session works on a workspace through names: of engines, of contexts and of handles.  A handle is bound to a node as a
matrix or as a scalar.  Each step has one answer.
-/
namespace MatrixPlan

inductive HandleKind where
  | matrix
  | scalar
  deriving DecidableEq, Repr

structure Handle where
  kind : HandleKind
  /-- The place of its node. -/
  node : Nat
  deriving DecidableEq, Repr

/-- The handle that a new node is bound to. -/
def HandleKind.ofOutput : OutputType → HandleKind
  | .scalar => scalar
  | _ => matrix

/-- An input given by the name of a handle, or a constant. -/
inductive NamedInput where
  | handle (name : String)
  | literal (value : Literal)

/-- What a node is made from, its inputs given by names. -/
structure NodeRequest where
  operation : String
  kind : NodeKind
  output : OutputType
  unnamed : List NamedInput
  named : List (String × NamedInput)
  metadata : Metadata

inductive Step where
  /-- A new engine that answers with the fallback when it has no reply left. -/
  | engine (name : String) (fallback : EngineValue)
  | reply (engine : String) (reply : Reply)
  | calls (engine : String)
  | submitted (engine : String)
  /-- A new context, of an engine or with an engine of its own. -/
  | context (name : String) (engine : Option String) (config : Config)
  | count (context : String)
  | operationCount (context operation : String)
  | source (name context : String) (source : Source)
  | apply (name : String) (application : Application String)
  | node (name context : String) (request : NodeRequest)
  | clone (name a : String)
  | drop (a : String)
  | same (a b : String)
  | info (a : String)
  | validate (a : String)
  | script (a : String)
  | fingerprint (a : String)
  | compute (a : String)
  /-- The steps so many times; the answers of the last round are given. -/
  | rounds (n : Nat) (steps : List Step)
  /-- A step that lacks a field, or has one that cannot be used. -/
  | unusable (field : String)
  /-- A step with a matrix that is none. -/
  | invalid (cause : ValidationError)

/-- An input as answers show it. -/
inductive ShownInput where
  | node (name : NodeName)
  | literal (text : String)

/-- A node as answers show it. -/
structure NodeInfo where
  node : Node
  unnamed : List ShownInput
  named : List (String × ShownInput)
  /-- The named inputs sorted by name, of inputs with one name the last. -/
  namedMap : List (String × ShownInput)
  inputNodes : List NodeName

inductive Answer where
  | ok
  | count (n : Nat)
  | context (place : Nat) (config : Config)
  /-- A handle was bound to a node of a context with so many living nodes. -/
  | bound (node : Node) (live : Nat)
  /-- Whether two handles are one, unless they are of different kinds, and whether their contexts are. -/
  | same (handles : Option Bool) (contexts : Bool)
  | info (info : NodeInfo)
  | valid
  | failed (cause : PlanError)
  | invalid (cause : ValidationError)
  /-- A script, the place of its context, and whether it survives being written and read. -/
  | script (place : Nat) (script : Script) (survives : Bool)
  | fingerprint (script : Script)
  | submitted (scripts : List (Nat × Script))
  | matrix (value : Dense)
  | scalar (value : Float)
  | answers (list : List Answer)
  | unusable (field : String)

end MatrixPlan
