import MatrixPlan.Matrix.Dense
/-!
# Value — what an engine returns for the output of a script

A script asks for a value of one kind.  A value of another kind is an error that names both.
-/
namespace MatrixPlan

inductive EngineValue where
  | scalar (value : Float)
  | matrix (value : Dense)
  /-- The script had no output. -/
  | empty

namespace EngineValue

def kind : EngineValue → String
  | scalar _ => "scalar"
  | matrix _ => "matrix"
  | empty => "empty"

def toScalar : EngineValue → Except ExecutionError Float
  | scalar x => .ok x
  | v => .error (.unexpectedOutput "scalar" v.kind)

def toMatrix : EngineValue → Except ExecutionError Dense
  | matrix m => .ok m
  | v => .error (.unexpectedOutput "matrix" v.kind)

end EngineValue

/-- What an engine answers to a script. -/
abbrev Reply := Except ExecutionError EngineValue

end MatrixPlan
