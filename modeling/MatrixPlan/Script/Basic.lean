import MatrixPlan.Digest.Blake3
import MatrixPlan.Graph.Literal
import MatrixPlan.Stamp.Timestamp
import MatrixPlan.Stamp.Uuid
import MatrixPlan.Text.Identifier
/-!
# Script — straight-line programs for an engine

A script is a list of assignments and the variable that holds the result.  Its text, one statement a line, and the
output variable make up its fingerprint; identifier, time and context do not.
-/
namespace MatrixPlan

structure ContextId where
  uuid : Uuid
  deriving DecidableEq, Repr

def ContextId.text (c : ContextId) : String := c.uuid.text

/-- What tells two scripts of one content apart. -/
structure Stamp where
  id : Uuid
  time : Timestamp
  deriving DecidableEq, Repr

structure Script where
  version : String
  scriptId : Uuid
  createdAt : Timestamp
  contextId : ContextId
  /-- The assignments, in the order of execution. -/
  statements : List String
  output : String
  outputType : OutputType
  deriving DecidableEq, Repr

namespace Script

def currentVersion : String := "1.0"

def make (stamp : Stamp) (context : ContextId) (statements : List String) (output : String)
    (outputType : OutputType) : Script where
  version := currentVersion
  scriptId := stamp.id
  createdAt := stamp.time
  contextId := context
  statements := statements
  output := output
  outputType := outputType

/-- The program, one statement a line. -/
def text (s : Script) : String := "\n".intercalate s.statements ++ "\n"

def content (s : Script) : ByteArray := (s.text ++ s.output).toUTF8

/-- The digest of the content, in base sixteen. -/
def fingerprint (s : Script) : String :=
  String.ofList ((Blake3.digest s.content.toList).toList.flatMap fun w =>
    (Blake3.bytesOf w).flatMap fun b => Text.hex 2 b.toNat)

theorem fingerprint_congr {s s' : Script} (hs : s.statements = s'.statements) (ho : s.output = s'.output) :
    s.fingerprint = s'.fingerprint := by
  have hc : s.content = s'.content := by rw [content, content, text, text, hs, ho]
  rw [fingerprint, fingerprint, hc]

/-- The first thing a script lacks to be run: a version, a statement, an identifier to hold the result. -/
def fault? (s : Script) : Option ValidationError :=
  if Text.allBlank s.version.toList then some (.missingField "version")
  else if s.statements.isEmpty then some (.missingField "statements")
  else if !Text.isIdentifier s.output.toList then some (.invalidIdentifier "output" s.output)
  else none

end Script
end MatrixPlan
