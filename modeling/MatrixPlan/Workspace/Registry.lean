import Std.Data.HashMap
import MatrixPlan.Error
/-!
# Registry — the living nodes of a context, counted

A context counts its registered nodes, all together and by operation, and takes no more than a given number of them.
A node beyond the limit is built all the same and carries the error; it was never counted and is never uncounted.
-/
namespace MatrixPlan

structure Registry where
  registered : Nat := 0
  /-- Their number by operation; an operation without any is not listed. -/
  perOperation : Std.HashMap String Nat := {}

namespace Registry

def countOf (r : Registry) (operation : String) : Nat := r.perOperation.getD operation 0

/-- Why no further node is taken, if it is not. -/
def fault? (r : Registry) (limit : UInt64) : Option GraphError :=
  if limit.toNat ≤ r.registered then some (.nodeLimitExceeded limit) else none

def enter (r : Registry) (operation : String) : Registry where
  registered := r.registered + 1
  perOperation := r.perOperation.insert operation (r.countOf operation + 1)

def leave (r : Registry) (operation : String) : Registry where
  registered := r.registered - 1
  perOperation := match r.perOperation[operation]? with
    | some n => if n - 1 = 0 then r.perOperation.erase operation else r.perOperation.insert operation (n - 1)
    | none => r.perOperation

end Registry
end MatrixPlan
