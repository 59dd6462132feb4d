import MatrixPlan.Proofs.Script.Emission
/-!
# Evaluation — a script computes what its graph denotes

A node stands for a function of the values of its inputs.  A graph denotes a value at each node by recursion on what the
node uses; a script computes values one after another, each from values stored at the places its statement names.
-/
namespace MatrixPlan

/-- **The value of a node**, when each node stands for a function of its inputs' values. -/
def Graph.denote {α : Type} (g : Graph) (meaning : Nat → List α → α) (r : Nat) : α :=
  meaning r ((g.inputs r).attach.map fun i => g.denote meaning i.1)
termination_by r
decreasing_by exact lt_of_mem_inputs i.2

theorem Graph.denote_eq {α : Type} (g : Graph) (meaning : Nat → List α → α) (r : Nat) :
    g.denote meaning r = meaning r ((g.inputs r).map (g.denote meaning)) := by
  rw [denote]
  simp

namespace Lowering

/-- **Runs the statement of a node** on the values stored so far, its inputs taken from the places it names. -/
def evaluateOne {α : Type} (g : Graph) (meaning : Nat → List α → α) (order : List Nat) (store : List α) (r : Nat) :
    Option (List α) := do
  let arguments ← (g.inputs r).mapM fun i => store[order.idxOf i]?
  return store ++ [meaning r arguments]

def evaluate {α : Type} (g : Graph) (meaning : Nat → List α → α) (order : List Nat) : Option (List α) :=
  order.foldlM (evaluateOne g meaning order) []

variable {α : Type} {g : Graph} {order : List Nat}

theorem mapM_eq_some_map {f : Nat → Option α} {f' : Nat → α} :
    ∀ {refs : List Nat}, (∀ i ∈ refs, f i = some (f' i)) → refs.mapM f = some (refs.map f')
  | [], _ => rfl
  | i :: refs, h => by
    rw [List.mapM_cons, h i List.mem_cons_self, mapM_eq_some_map fun q hq => h q (List.mem_cons_of_mem i hq)]
    rfl

theorem evaluateOne_eq (h : InputsFirst g order) (meaning : Nat → List α → α) {done rest : List Nat} {r : Nat}
    (hsplit : order = done ++ r :: rest) :
    evaluateOne g meaning order (done.map (g.denote meaning)) r = some ((done ++ [r]).map (g.denote meaning)) := by
  have hin : ∀ i ∈ g.inputs r, (done.map (g.denote meaning))[order.idxOf i]? = some (g.denote meaning i) := by
    intro i hi
    obtain ⟨j, hj, hji⟩ := h done.length r (by rw [hsplit]; simp) i hi
    have hmem : i ∈ done := by
      rw [hsplit, List.getElem?_append_left hj] at hji
      exact List.mem_of_getElem? hji
    rw [hsplit, List.idxOf_append_of_mem hmem, List.getElem?_map, List.getElem?_idxOf hmem]
    rfl
  rw [evaluateOne, mapM_eq_some_map hin, List.map_append, List.map_singleton, g.denote_eq meaning r]
  rfl

/-- **Running all statements stores the value of each emitted node at its place.** -/
theorem evaluate_eq (h : InputsFirst g order) (meaning : Nat → List α → α) :
    evaluate g meaning order = some (order.map (g.denote meaning)) := by
  have hfrom : ∀ rest done : List Nat, order = done ++ rest →
      rest.foldlM (evaluateOne g meaning order) (done.map (g.denote meaning)) = some (order.map (g.denote meaning)) := by
    intro rest
    induction rest with
    | nil => intro done hsplit; rw [hsplit, List.append_nil]; rfl
    | cons r rest ih =>
      intro done hsplit
      rw [List.foldlM_cons, evaluateOne_eq h meaning hsplit]
      exact ih (done ++ [r]) (by rw [hsplit, List.append_assoc]; rfl)
  exact hfrom order [] rfl

end Lowering
end MatrixPlan
