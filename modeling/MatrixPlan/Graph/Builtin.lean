import MatrixPlan.Graph.Literal
/-!
# Builtin — functions of the engine with fixed parameters

A call of a builtin passes its parameters by name.  Validation compares the names of a call with the signature here.
-/
namespace MatrixPlan

structure Builtin where
  name : String
  /-- The named parameters, in order of declaration. -/
  params : List String
  output : OutputType
  deriving DecidableEq, Repr

namespace Builtin

/-- The area under the curve of true against false positives, from labels `Y` and scores `P`. -/
def auc : Builtin := ⟨"auc", ["Y", "P"], .scalar⟩

def all : List Builtin := [auc]

def lookup? (name : String) : Option Builtin := all.find? fun b => b.name == name

end Builtin
end MatrixPlan
