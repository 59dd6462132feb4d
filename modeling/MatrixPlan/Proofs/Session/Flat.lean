import MatrixPlan.Session.Run
/-!
# Flat — a run as single steps

The rounds of a step can be written out (`flat`), so what a run does to a session follows from what single steps do
(`next`), one after another.
-/
namespace MatrixPlan
namespace Session

/-- The session after a step other than a repetition. -/
def next (s : Session) (step : Step) : Session := (s.settle (s.act step)).2

mutual

/-- A step with its rounds written out. -/
def flat : Step → List Step
  | .rounds n steps => (List.replicate n (flatAll steps)).flatten
  | step => [step]

def flatAll : List Step → List Step
  | [] => []
  | step :: steps => flat step ++ flatAll steps

end

variable {s s' : Session} {a : Answer} {step : Step}

theorem next_of_ok (h : s.act step = .ok (a, s')) : s.next step = s' := by
  rw [next, h]
  rfl

theorem next_of_error {field : String} (h : s.act step = .error field) : s.next step = s := by
  rw [next, h]
  rfl

theorem foldl_repeat_flatten (n : Nat) (steps : List Step) (s : Session) :
    (List.replicate n steps).flatten.foldl next s = n.repeat (fun t => steps.foldl next t) s := by
  induction n generalizing s with
  | zero => rfl
  | succ n ih =>
    rw [List.replicate_succ', List.flatten_append, List.foldl_append, ih, List.flatten_singleton]
    rfl

mutual

/-- **A step leads where its single steps lead.** -/
theorem run_snd (step : Step) (s : Session) : (s.run step).2 = (flat step).foldl next s := by
  cases step with
  | rounds n steps =>
    have hround := runAll_snd steps
    have hall : ∀ n : Nat, (n.repeat (fun r => Session.runAll r.2 steps) (([] : List Answer), s)).2 =
        n.repeat (fun t => (flatAll steps).foldl next t) s := by
      intro n
      induction n with
      | zero => rfl
      | succ n ih =>
        change (Session.runAll _ steps).2 = _
        rw [hround, ih]
        rfl
    rw [flat, foldl_repeat_flatten, ← hall n]
    rfl
  | _ => rfl

/-- **A run leads where its single steps lead.** -/
theorem runAll_snd (steps : List Step) (s : Session) : (s.runAll steps).2 = (flatAll steps).foldl next s := by
  cases steps with
  | nil => rfl
  | cons step steps =>
    rw [flatAll, List.foldl_append, ← run_snd step s, ← runAll_snd steps]
    rfl

end

end Session
end MatrixPlan
