/-!
# Chunks — a list in pieces of one length

The last piece may be shorter.  Nothing is lost: the pieces in a row are the list.
-/
namespace MatrixPlan

/-- A list in pieces of `n + 1`. -/
def chunks (n : Nat) : List α → List (List α)
  | [] => []
  | x :: xs => (x :: xs.take n) :: chunks n (xs.drop n)
termination_by xs => xs.length
decreasing_by simp only [List.length_drop, List.length_cons]; omega

theorem flatten_chunks (n : Nat) (xs : List α) : (chunks n xs).flatten = xs := by
  fun_induction chunks n xs with
  | case1 => rfl
  | case2 x xs ih => simp [ih]

end MatrixPlan
