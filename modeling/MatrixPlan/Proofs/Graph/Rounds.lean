import Mathlib.Algebra.Order.BigOperators.Group.Finset
import MatrixPlan.Proofs.Graph.Survey
/-!
# Rounds — how often a walk over a graph goes round its loop

A walk works off a stack.  In each round it takes one entry from it and puts some on it, so there are at most as many rounds
as entries were ever on it (`Loop.length_le`).  A validation puts the inputs of a node on the stack when it checks this
node, and checks no node twice, whatever the number of paths to it.
-/
namespace MatrixPlan
namespace Graph

/-- One round: the state before it, what it takes from the stack, and what it puts there. -/
structure Round (σ α : Type) where
  before : σ
  popped : α
  pushed : List α

/-- **The rounds of a loop that works off a stack**, from a state to the answer.  The loop ends when there is nothing on the
stack, or in the middle of a round. -/
inductive Loop {σ α ω : Type} (stack : σ → List α) (step : σ → Progress ω σ) : σ → List (Round σ α) → ω → Prop where
  | finish {s : σ} {answer : ω} (hs : stack s = []) (h : step s = .done answer) : Loop stack step s [] answer
  | leave {s : σ} {entry : α} {rest : List α} {answer : ω} (hs : stack s = entry :: rest) (h : step s = .done answer) :
      Loop stack step s [⟨s, entry, []⟩] answer
  | again {s next : σ} {entry : α} {rest pushed : List α} {rounds : List (Round σ α)} {answer : ω}
      (hs : stack s = entry :: rest) (h : step s = .going next) (hnext : stack next = pushed ++ rest)
      (more : Loop stack step next rounds answer) : Loop stack step s (⟨s, entry, pushed⟩ :: rounds) answer

/-- All that is put on the stack. -/
def pushes {σ α : Type} (rounds : List (Round σ α)) : List α := rounds.flatMap Round.pushed

theorem pushes_cons {σ α : Type} (before : σ) (popped : α) (pushed : List α) (rounds : List (Round σ α)) :
    pushes (⟨before, popped, pushed⟩ :: rounds) = pushed ++ pushes rounds := List.flatMap_cons

namespace Loop

variable {σ α ω : Type} {stack : σ → List α} {step : σ → Progress ω σ} {s : σ} {rounds : List (Round σ α)} {answer : ω}

/-- A loop gives the answer of a function that follows its steps. -/
theorem answer_eq (h : Loop stack step s rounds answer) {f : σ → ω}
    (hdone : ∀ s answer, step s = .done answer → f s = answer) (hgoing : ∀ s next, step s = .going next → f s = f next) :
    answer = f s := by
  induction h with
  | finish _ h => exact (hdone _ _ h).symm
  | leave _ h => exact (hdone _ _ h).symm
  | again _ h _ _ ih => rw [ih, hgoing _ _ h]

/-- **There are at most as many rounds as entries** on the stack, from the beginning or later. -/
theorem length_le (h : Loop stack step s rounds answer) : rounds.length ≤ (stack s).length + (pushes rounds).length := by
  induction h with
  | finish => exact Nat.zero_le _
  | leave hs =>
    rw [hs, List.length_singleton, List.length_cons]
    omega
  | @again s next entry rest pushed rounds answer hs _ hnext _ ih =>
    rw [hnext, List.length_append] at ih
    rw [hs, pushes_cons, List.length_cons, List.length_cons, List.length_append]
    omega

end Loop

/-! ## What is below a root -/

open Classical in
/-- The nodes that a root reaches, the root among them. -/
noncomputable def below (g : Graph) (root : Nat) : Finset Nat := (Finset.range (root + 1)).filter (g.Reaches root)

/-- How often the nodes that a root reaches use a node. -/
noncomputable def references (g : Graph) (root : Nat) : Nat := ∑ r ∈ g.below root, (g.inputs r).length

variable {g : Graph} {expected root r : Nat} {done order : List Nat} {v next : Visit} {rounds : List (Round Visit Nat)}
  {answer : Except PlanError Unit}

theorem mem_below : r ∈ g.below root ↔ g.Reaches root r := by
  classical
  rw [below, Finset.mem_filter, Finset.mem_range, and_iff_right_iff_imp]
  exact fun hr => Nat.lt_succ_of_le hr.le

/-- What nodes below a root add up to, each taken once, all of them add up to at least. -/
theorem sum_map_le (hnodup : order.Nodup) (hbelow : ∀ r ∈ order, g.Reaches root r) (f : Nat → Nat) :
    (order.map f).sum ≤ ∑ r ∈ g.below root, f r := by
  rw [← List.sum_toFinset f hnodup]
  exact Finset.sum_le_sum_of_subset fun r hr => mem_below.2 (hbelow r (List.mem_toFinset.1 hr))

/-! ## Validation -/

/-- Whether a round of a validation checks its node, which it does if it has not seen it. -/
def checks (g : Graph) (round : Round Visit Nat) : Bool :=
  (g.node? round.popped).any fun n => !round.before.seen.contains n.name

/-- **The nodes that a validation checks**, in order and as often as it checks them. -/
def checked (g : Graph) (rounds : List (Round Visit Nat)) : List Nat := (rounds.filter g.checks).map Round.popped

theorem exists_pushed (h : g.visit expected v = .going next) :
    ∃ r rest pushed, v.stack = r :: rest ∧ next.stack = pushed ++ rest := by
  unfold visit at h
  split at h
  · cases h
  · rename_i r rest hs
    refine ⟨r, rest, ?_⟩
    split at h
    · cases h
      exact ⟨[], hs, rfl⟩
    · split at h
      · cases h
        exact ⟨[], hs, rfl⟩
      · split at h
        · cases h
        · cases h
          exact ⟨_, hs, rfl⟩

/-- **A validation ends**, with its answer. -/
theorem exists_rounds_visitAll (g : Graph) (expected : Nat) (v : Visit) :
    ∃ rounds, Loop Visit.stack (g.visit expected) v rounds (g.visitAll expected v) := by
  fun_induction visitAll g expected v with
  | case1 v answer hdone =>
    cases hs : v.stack with
    | nil => exact ⟨[], .finish hs hdone⟩
    | cons r rest => exact ⟨_, .leave hs hdone⟩
  | case2 v next hgoing ih =>
    obtain ⟨rounds, h⟩ := ih
    obtain ⟨r, rest, pushed, hs, hnext⟩ := exists_pushed hgoing
    exact ⟨_, .again hs hgoing hnext h⟩

theorem visitAll_of_done (h : g.visit expected v = .done answer) : g.visitAll expected v = answer := by
  rw [visitAll]
  split
  · rename_i heq
    cases heq.symm.trans h
    rfl
  · rename_i heq
    cases heq.symm.trans h

theorem visitAll_of_going (h : g.visit expected v = .going next) : g.visitAll expected v = g.visitAll expected next := by
  rw [visitAll]
  split
  · rename_i heq
    cases heq.symm.trans h
  · rename_i heq
    cases heq.symm.trans h
    rfl

theorem checks_iff {n : Node} (hn : g.node? r = some n) (pushed : List Nat) :
    g.checks ⟨v, r, pushed⟩ = true ↔ ¬ v.seen.contains n.name = true := by
  rw [checks, hn, Option.any_some, Bool.not_eq_true', Bool.not_eq_true]

theorem checked_cons (round : Round Visit Nat) (rounds : List (Round Visit Nat)) :
    g.checked (round :: rounds) = if g.checks round = true then round.popped :: g.checked rounds else g.checked rounds := by
  rw [checked, List.filter_cons]
  split <;> rfl

/-- **A validation checks a node once**, when it has not seen its name, and puts the inputs of the checked nodes on the
stack and nothing else. -/
theorem checked_once (hroot : root < g.size) (hsaw : ∀ r ∈ done, v.Saw g r) (hnodup : done.Nodup)
    (hreach : ∀ r ∈ v.stack, g.Reaches root r) (h : Loop Visit.stack (g.visit expected) v rounds answer) :
    (done ++ g.checked rounds).Nodup ∧ (∀ r ∈ g.checked rounds, g.Reaches root r) ∧
      (pushes rounds).length ≤ ((g.checked rounds).map fun r => (g.inputs r).length).sum := by
  -- a node that is checked goes on to those that have been, so the hypothesis is used at more of them
  induction h generalizing done with
  | finish => exact ⟨by simpa [checked] using hnodup, by simp [checked], Nat.zero_le _⟩
  | @leave v r stack answer hs hdone =>
    rw [hs, List.forall_mem_cons] at hreach
    obtain ⟨n, hn⟩ := exists_node? (hreach.1.lt_size hroot)
    obtain ⟨-, hstep⟩ | ⟨hc, e, -, hstep⟩ | ⟨-, -, hstep⟩ := visit_cases hs hn <;> cases hstep.symm.trans hdone
    have hnew : r ∉ done := fun hr => hc ((Visit.saw_iff hn).1 (hsaw r hr))
    rw [checked_cons, if_pos ((checks_iff hn []).2 hc)]
    exact ⟨List.concat_eq_append ▸ hnodup.concat hnew, by simpa [checked] using hreach.1, Nat.zero_le _⟩
  | @again v next r stack pushed rounds answer hs hgoing hnext _ ih =>
    rw [hs, List.forall_mem_cons] at hreach
    obtain ⟨n, hn⟩ := exists_node? (hreach.1.lt_size hroot)
    obtain ⟨hc, hstep⟩ | ⟨-, e, -, hstep⟩ | ⟨hc, -, hstep⟩ := visit_cases hs hn <;> cases hstep.symm.trans hgoing
    · obtain rfl : pushed = [] := List.self_eq_append_left.1 hnext
      rw [checked_cons, if_neg fun h => (checks_iff hn []).1 h hc, pushes_cons]
      exact ih hsaw hnodup hreach.2
    · obtain rfl : n.inputNodes.reverse = pushed := List.append_cancel_right hnext
      have hnew : r ∉ done := fun hr => hc ((Visit.saw_iff hn).1 (hsaw r hr))
      have hstack : ∀ q ∈ n.inputNodes.reverse ++ stack, g.Reaches root q := by
        intro q hq
        rcases List.mem_append.1 hq with hq | hq
        · rw [List.mem_reverse, ← inputs_of_node? hn] at hq
          exact hreach.1.input hq
        · exact hreach.2 q hq
      have hseen : ∀ q ∈ done ++ [r], Visit.Saw g ⟨n.inputNodes.reverse ++ stack, v.seen.insert n.name⟩ q := by
        intro q hq
        rcases List.mem_append.1 hq with hq | hq
        · exact (hsaw q hq).insert _ n.name
        · rw [List.mem_singleton.1 hq, Visit.saw_iff hn]
          exact Std.HashSet.contains_insert_self
      obtain ⟨hall, hbelow, hlength⟩ := ih hseen (List.concat_eq_append ▸ hnodup.concat hnew) hstack
      rw [checked_cons, if_pos ((checks_iff hn _).2 hc), pushes_cons]
      refine ⟨by rwa [List.append_assoc] at hall, List.forall_mem_cons.2 ⟨hreach.1, hbelow⟩, ?_⟩
      rw [List.length_append, List.length_reverse, List.map_cons, List.sum_cons, inputs_of_node? hn]
      exact Nat.add_le_add_left hlength _

/-- **What the loop of a validation does**: it gives the answer, checks nodes below the root only and each at most once, and
goes round at most once more than nodes are used there. -/
structure ChecksOnce (g : Graph) (root : Nat) (rounds : List (Round Visit Nat)) (answer : Except PlanError Unit) : Prop where
  answer_eq : answer = g.validate root
  nodup : (g.checked rounds).Nodup
  below : ∀ r ∈ g.checked rounds, r ∈ g.below root
  length_le : rounds.length ≤ 1 + g.references root

theorem checksOnce {top : Node} (hroot : g.node? root = some top)
    (h : Loop Visit.stack (g.visit top.context) ⟨[root], {}⟩ rounds answer) : g.ChecksOnce root rounds answer := by
  have hsaw : ∀ r ∈ [], Visit.Saw g ⟨[root], {}⟩ r := by simp
  have hstart : ∀ r ∈ [root], g.Reaches root r := by simp [Reaches.refl]
  obtain ⟨hnodup, hreach, hlength⟩ := checked_once (lt_of_node? hroot) hsaw List.nodup_nil hstart h
  rw [List.nil_append] at hnodup
  refine ⟨?_, hnodup, fun r hr => mem_below.2 (hreach r hr), h.length_le.trans ?_⟩
  · rw [validate, hroot]
    exact h.answer_eq (fun _ _ => visitAll_of_done) fun _ _ => visitAll_of_going
  · exact Nat.add_le_add_left (hlength.trans (sum_map_le hnodup hreach _)) 1

end Graph
end MatrixPlan
