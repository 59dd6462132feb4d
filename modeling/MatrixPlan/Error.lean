/-!
# Error — what can go wrong, and how it is said

Building a graph never fails.  Errors surface when metadata is estimated, when a graph is validated, when a script is
read back and when an engine replies.  Each is a cause with its data; the wording is in one function a type.
-/
namespace MatrixPlan

def countText (n : UInt64) : String := toString n.toNat

/-- Why shapes do not fit. -/
inductive ShapeFault where
  /-- The columns on the left and the rows on the right of a matrix product. -/
  | innerExtents (left right : UInt64)
  /-- A matrix of so many cells is to become one of so many rows and columns. -/
  | reshapeTo (cells rows cols : UInt64)
  /-- A matrix of so many cells is to become one of so many. -/
  | cellCounts (given wanted : UInt64)
  /-- A named input that is not a column vector. -/
  | notColumn (name : String) (cols : UInt64)
  /-- Labels and scores of different length. -/
  | lengths (labels scores : UInt64)
  /-- Two shapes that no elementwise rule combines. -/
  | elementwise (leftRows leftCols rightRows rightCols : UInt64)
  | rowCounts (left right : UInt64)
  | columnCounts (left right : UInt64)
  /-- An operation whose metadata does not follow from its operands'. -/
  | noExactRule
  | described (reason : String)
  deriving DecidableEq, Repr

def ShapeFault.reason : ShapeFault → String
  | innerExtents left right => "inner dimensions " ++ countText left ++ " and " ++ countText right ++ " differ"
  | reshapeTo cells rows cols =>
    "cannot reshape " ++ countText cells ++ " cells into " ++ countText rows ++ "x" ++ countText cols
  | cellCounts given wanted => "cannot reshape " ++ countText given ++ " cells into " ++ countText wanted
  | notColumn name cols => name ++ " must be a column vector, got " ++ countText cols ++ " columns"
  | lengths labels scores => "Y has " ++ countText labels ++ " rows, P has " ++ countText scores
  | elementwise leftRows leftCols rightRows rightCols =>
    "cannot combine " ++ countText leftRows ++ "x" ++ countText leftCols ++ " with "
      ++ countText rightRows ++ "x" ++ countText rightCols
  | rowCounts left right => "row counts " ++ countText left ++ " and " ++ countText right ++ " differ"
  | columnCounts left right => "column counts " ++ countText left ++ " and " ++ countText right ++ " differ"
  | noExactRule => "no exact metadata rule"
  | described reason => reason

/-- A graph, a matrix or a script that breaks a rule.  A context is given by its place. -/
inductive ValidationError where
  | contextMismatch (node : UInt64) (expected actual : Nat)
  | shapeMismatch (operation : String) (fault : ShapeFault)
  | missingInput (operation name : String)
  | unexpectedInput (operation name : String)
  | invalidIdentifier (field value : String)
  | denseValueCount (rows cols expected actual : UInt64)
  | missingField (field : String)
  deriving DecidableEq, Repr

/-- The wording of an error, contexts being called as `contextName` says. -/
def ValidationError.message (contextName : Nat → String) : ValidationError → String
  | contextMismatch node expected actual =>
    "Node " ++ countText node ++ " belongs to context " ++ contextName actual ++ ", expected " ++ contextName expected
  | shapeMismatch operation fault => "Shape mismatch in '" ++ operation ++ "': " ++ fault.reason
  | missingInput operation name => "Operation '" ++ operation ++ "' is missing required input '" ++ name ++ "'"
  | unexpectedInput operation name => "Operation '" ++ operation ++ "' received unexpected input '" ++ name ++ "'"
  | invalidIdentifier field value => "Field '" ++ field ++ "' is not a valid identifier: '" ++ value ++ "'"
  | denseValueCount rows cols expected actual =>
    "Dense matrix " ++ countText rows ++ "x" ++ countText cols ++ " requires " ++ countText expected
      ++ " values, got " ++ countText actual
  | missingField field => "Required field '" ++ field ++ "' is missing"

/-- What an engine reports instead of a value. -/
inductive ExecutionError where
  | engine (message : String)
  | rejected (reason : String)
  | timeout (milliseconds : UInt64)
  | unexpectedOutput (expected actual : String)
  deriving DecidableEq, Repr

def ExecutionError.message : ExecutionError → String
  | engine message => "Engine error: " ++ message
  | rejected reason => "Script rejected by engine: " ++ reason
  | timeout milliseconds => "Execution timed out after " ++ countText milliseconds ++ "ms"
  | unexpectedOutput expected actual => "Expected " ++ expected ++ " output, engine returned " ++ actual

inductive GraphError where
  | nodeLimitExceeded (limit : UInt64)
  /-- The registry can no longer be used.  No operation of this library raises it. -/
  | poisonedRegistry
  deriving DecidableEq, Repr

def GraphError.message : GraphError → String
  | nodeLimitExceeded limit => "Context node limit of " ++ countText limit ++ " exceeded"
  | poisonedRegistry => "Node registry lock poisoned"

inductive PlanError where
  | validation (cause : ValidationError)
  | execution (cause : ExecutionError)
  | graph (cause : GraphError)
  | internal (message : String)
  deriving DecidableEq, Repr

namespace PlanError

def message (contextName : Nat → String) : PlanError → String
  | validation cause => "Validation error: " ++ cause.message contextName
  | execution cause => "Execution error: " ++ cause.message
  | graph cause => "Graph error: " ++ cause.message
  | internal message => "Internal error: " ++ message

def isValidation : PlanError → Bool
  | validation _ => true
  | _ => false

def isExecution : PlanError → Bool
  | execution _ => true
  | _ => false

def isGraph : PlanError → Bool
  | graph _ => true
  | _ => false

def isInternal : PlanError → Bool
  | internal _ => true
  | _ => false

/-- Whether the same script may succeed when it is submitted again. -/
def isRetryable : PlanError → Bool
  | execution (.timeout _) | execution (.engine _) => true
  | _ => false

end PlanError
end MatrixPlan
