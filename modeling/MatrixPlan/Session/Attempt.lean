import MatrixPlan.Session.Run
/-!
# Attempt — runs that may be stopped

A step that makes the product of two matrices that are written out may ask for more words than can be had.  The program
is stopped there, and the run has no answers.  A run that is not stopped is as `runAll` has it.
-/
namespace MatrixPlan
namespace Session

/-- Why a step other than a repetition stops the program, if it does. -/
def overflow? (s : Session) : Step → Option Overflow
  | .apply _ application => match application.mapM s.matrixNode with
    | .ok placed => placed.overflow? s.workspace.graph
    | .error _ => none
  | _ => none

mutual

def attempt (s : Session) : Step → Except Overflow (Answer × Session)
  | .rounds n steps => do
    let (answers, s) ← n.repeat (fun r => r.bind fun r => attemptAll r.2 steps) (.ok ([], s))
    return (.answers answers, s)
  | step => unlessStopped (s.overflow? step) fun _ => s.settle (s.act step)

def attemptAll (s : Session) : List Step → Except Overflow (List Answer × Session)
  | [] => .ok ([], s)
  | step :: steps => do
    let (answer, s) ← attempt s step
    let (answers, s) ← attemptAll s steps
    return (answer :: answers, s)

end

end Session
end MatrixPlan
