import MatrixPlan.Proofs.Script.Rounds
/-!
# Doubling — walks go round once for each node and each use, not for each path

The number of paths in a graph can be exponential in its size: each time that a matrix is added to its transpose, there are
twice as many ways down from the sum (`doubling`).  Neither a lowering nor a validation takes them one by one.
-/
namespace MatrixPlan
namespace Graph

/-- How many ways lead down from a node to one without inputs. -/
def paths (g : Graph) (r : Nat) : Nat :=
  if g.inputs r = [] then 1 else ((g.inputs r).attach.map fun i => g.paths i.1).sum
termination_by r
decreasing_by exact lt_of_mem_inputs i.2

/-- A graph in which a matrix is added to its transpose, and the sum to its own, and so on. -/
structure Doubles (g : Graph) (n : Nat) : Prop where
  size : g.size = 2 * n + 1
  source : g.inputs 0 = []
  transpose : ∀ k < n, g.inputs (2 * k + 1) = [2 * k]
  sum : ∀ k < n, g.inputs (2 * k + 2) = [2 * k + 1, 2 * k]

variable {g : Graph} {n k r : Nat}

theorem paths_of_nil (h : g.inputs r = []) : g.paths r = 1 := by rw [paths, if_pos h]

theorem paths_of_ne_nil (h : g.inputs r ≠ []) : g.paths r = ((g.inputs r).map g.paths).sum := by
  rw [paths, if_neg h, List.attach_map_val (f := g.paths)]

namespace Doubles

/-- **Each sum has twice as many ways down** as the matrix that is added to its transpose. -/
theorem paths_eq (h : g.Doubles n) (hk : k ≤ n) : g.paths (2 * k) = 2 ^ k := by
  induction k with
  | zero => exact paths_of_nil h.source
  | succ k ih =>
    have ht : g.paths (2 * k + 1) = g.paths (2 * k) := by
      rw [paths_of_ne_nil (by simp [h.transpose k hk]), h.transpose k hk]
      simp
    have hs : g.paths (2 * k + 2) = g.paths (2 * k + 1) + g.paths (2 * k) := by
      rw [paths_of_ne_nil (by simp [h.sum k hk]), h.sum k hk]
      simp
    rw [Nat.mul_succ, hs, ht, ih (Nat.le_of_succ_le hk), Nat.pow_succ]
    omega

/-- A sum uses all that was there before it. -/
theorem reaches (h : g.Doubles n) (hk : k ≤ n) (hr : r ≤ 2 * k) : g.Reaches (2 * k) r := by
  induction k with
  | zero =>
    obtain rfl : r = 0 := by omega
    exact .refl g _
  | succ k ih =>
    have htop : g.Reaches (2 * k + 2) (2 * k + 2) := .refl g _
    have hsum := h.sum k hk
    obtain rfl | rfl | hr : r = 2 * k + 2 ∨ r = 2 * k + 1 ∨ r ≤ 2 * k := by omega
    · exact htop
    · exact htop.input (by rw [hsum]; exact List.mem_cons_self)
    · have hbefore : g.Reaches (2 * k + 2) (2 * k) := htop.input (by rw [hsum]; simp)
      exact Relation.ReflTransGen.trans hbefore (ih (Nat.le_of_succ_le hk) hr)

theorem below_eq (h : g.Doubles n) : g.below (2 * n) = Finset.range (2 * n + 1) := by
  ext r
  rw [mem_below, Finset.mem_range, Nat.lt_succ_iff]
  exact ⟨fun hr => hr.le, h.reaches (Nat.le_refl n)⟩

theorem references_eq (h : g.Doubles n) : g.references (2 * n) = 3 * n := by
  have hsum : ∀ k ≤ n, ∑ r ∈ Finset.range (2 * k + 1), (g.inputs r).length = 3 * k := by
    intro k hk
    induction k with
    | zero => simp [h.source]
    | succ k ih =>
      rw [Nat.mul_succ, Finset.sum_range_succ, Finset.sum_range_succ, ih (Nat.le_of_succ_le hk), h.transpose k hk,
        h.sum k hk]
      rfl
  rw [references, h.below_eq, hsum n (Nat.le_refl n)]

/-- A graph goes on to double when a transpose and a sum are added to it. -/
theorem add (h : g.Doubles n) {g' g'' : Graph} {t s : Node} {ht : ∀ i ∈ t.inputNodes, i < g.size}
    {hs : ∀ i ∈ s.inputNodes, i < g'.size} (hg' : g' = g.add t ht) (hg'' : g'' = g'.add s hs)
    (htranspose : t.inputNodes = [2 * n]) (hsum : s.inputNodes = [2 * n + 1, 2 * n]) : g''.Doubles (n + 1) := by
  subst hg' hg''
  have hsize : (g.add t ht).size = 2 * n + 2 := by rw [size_add, h.size]
  have hold : ∀ r < 2 * n + 1, ((g.add t ht).add s hs).inputs r = g.inputs r := fun r hr => by
    rw [inputs_add_of_lt hs (by omega), inputs_add_of_lt ht (by rw [h.size]; exact hr)]
  have ht' := inputs_add_size ht
  have hs' := inputs_add_size hs
  rw [h.size] at ht'
  rw [hsize] at hs'
  refine ⟨by rw [size_add, hsize]; omega, by rw [hold 0 (by omega), h.source], fun k hk => ?_, fun k hk => ?_⟩
  · rcases Nat.lt_succ_iff_lt_or_eq.1 hk with hk | rfl
    · rw [hold _ (by omega), h.transpose k hk]
    · rw [inputs_add_of_lt hs (by omega), ht', htranspose]
  · rcases Nat.lt_succ_iff_lt_or_eq.1 hk with hk | rfl
    · rw [hold _ (by omega), h.sum k hk]
    · rw [hs', hsum]

end Doubles
end Graph

namespace Workspace

open MatrixPlan.Graph (Loop Doubles)
open Lowering (State step start ofRoot MarksOnce)

/-- A matrix that is added to its transpose so many times. -/
def doubling : Nat → Workspace
  | 0 => ((({} : Workspace).addContext ⟨Uuid.ofNat 0⟩ 0 {}).2.addSource 0 (.read "x.csv" (.ofShape 64 64))).2
  | n + 1 => (((doubling n).apply (.transpose (2 * n))).2.apply (.add (2 * n + 1) (2 * n))).2

/-- **A matrix can be added to its transpose any number of times**, and the graph doubles each time. -/
theorem doubling_doubles (n : Nat) :
    (∃ held, Reachable offered (doubling n) held ∧ 2 * n ∈ held) ∧ (doubling n).graph.Doubles n := by
  induction n with
  | zero =>
    have h : Reachable offered _ _ := .single (.context _ _ ⟨Uuid.ofNat 0⟩ 0 {})
    refine ⟨⟨_, h.addSource (c := 0) (by decide) (.read "x.csv" (.ofShape 64 64)), Multiset.mem_cons_self _ _⟩, ?_⟩
    exact ⟨rfl, by decide, fun k hk => absurd hk (Nat.not_lt_zero k), fun k hk => absurd hk (Nat.not_lt_zero k)⟩
  | succ n ih =>
    obtain ⟨⟨held, hreach, hmem⟩, hdoubles⟩ := ih
    -- the transpose uses the last node, the sum both
    have hops : ∀ i ∈ (Application.transpose (2 * n)).operands, i ∈ (doubling n).heap.living := fun i hi => by
      rw [List.mem_singleton.1 hi]
      exact hreach.sound.owned.mem_living hmem
    have htreach := hreach.apply hops
    obtain ⟨htplace, _, t, ht, htspec, htgraph⟩ := hreach.sound.apply_graph fun i hi =>
      Heap.lt_size_of_mem_living (hops i hi)
    rw [htplace, hdoubles.size] at htreach
    have hops' : ∀ i ∈ (Application.add (2 * n + 1) (2 * n)).operands,
        i ∈ ((doubling n).apply (.transpose (2 * n))).2.heap.living := by
      refine fun i hi => htreach.sound.owned.mem_living ?_
      rcases List.mem_cons.1 hi with rfl | hi
      · exact Multiset.mem_cons_self _ _
      · rw [List.mem_singleton.1 hi]
        exact Multiset.mem_cons_of_mem hmem
    have hsreach := htreach.apply hops'
    obtain ⟨hsplace, _, s, hs, hsspec, hsgraph⟩ := htreach.sound.apply_graph fun i hi =>
      Heap.lt_size_of_mem_living (hops' i hi)
    have hnext := hdoubles.add htgraph hsgraph (by rw [htspec, Application.inputNodes_spec]; rfl)
      (by rw [hsspec, Application.inputNodes_spec]; rfl)
    refine ⟨⟨_, hsreach, ?_⟩, hnext⟩
    rw [hsplace, htgraph, Graph.size_add, hdoubles.size]
    exact Multiset.mem_cons_self _ _

/-- **Walks over a graph end without taking a node twice.**  The loop of a lowering ends in the finished walk; it marks no
node twice, marks each that the root reaches if their names tell nodes apart, and goes round at most as often as there are
nodes and uses of nodes, and once more.  The loop of a validation ends with its answer; it checks no node twice, and goes
round at most as often as nodes are used, and once more.  So it is where there are exponentially many paths: a matrix that
has been added to its transpose `n` times has `2 ^ n` of them, in `2 * n + 1` nodes that are used `3 * n` times. -/
theorem walks_once :
    (∀ (g : Graph) (root : Nat) (top : Node), g.node? root = some top →
      (∃ rounds, Loop State.stack (step g) (start root) rounds (ofRoot g root)) ∧
      (∀ rounds answer, Loop State.stack (step g) (start root) rounds answer → MarksOnce g root rounds answer) ∧
      (∃ rounds, Loop Graph.Visit.stack (g.visit top.context) ⟨[root], {}⟩ rounds (g.validate root)) ∧
      ∀ rounds answer, Loop Graph.Visit.stack (g.visit top.context) ⟨[root], {}⟩ rounds answer →
        g.ChecksOnce root rounds answer) ∧
    ∀ n, (∃ held, Reachable offered (doubling n) held) ∧ (doubling n).graph.paths (2 * n) = 2 ^ n ∧
      ((doubling n).graph.below (2 * n)).card = 2 * n + 1 ∧ (doubling n).graph.references (2 * n) = 3 * n := by
  refine ⟨fun g root top hroot => ⟨Lowering.exists_rounds_run g _, fun rounds answer h => ?_, ?_,
    fun rounds answer h => ?_⟩, fun n => ?_⟩
  · exact Lowering.marksOnce (Graph.lt_of_node? hroot) h
  · rw [Graph.validate, hroot]
    exact g.exists_rounds_visitAll _ _
  · exact Graph.checksOnce hroot h
  · obtain ⟨⟨held, hreach, -⟩, hdoubles⟩ := doubling_doubles n
    refine ⟨⟨held, hreach⟩, hdoubles.paths_eq (Nat.le_refl n), ?_, hdoubles.references_eq⟩
    rw [hdoubles.below_eq, Finset.card_range]

/-- A thousand sums have more paths than could be walked, and are lowered and validated in a few thousand rounds, with each
node marked once. -/
theorem walks_once_thousand : (doubling 1000).graph.DistinctNames ∧
    (∃ top, (doubling 1000).graph.node? 2000 = some top) ∧ (doubling 1000).graph.paths 2000 = 2 ^ 1000 ∧
    (∃ rounds, Loop State.stack (step (doubling 1000).graph) (start 2000) rounds (ofRoot (doubling 1000).graph 2000) ∧
      rounds.length ≤ 5002 ∧ ∀ r ≤ 2000, (Graph.pushes rounds).count (r, true) = 1) ∧
    ∃ top rounds, Loop Graph.Visit.stack ((doubling 1000).graph.visit top) ⟨[2000], {}⟩ rounds
      ((doubling 1000).graph.validate 2000) ∧ rounds.length ≤ 3001 := by
  obtain ⟨hwalks, hdoubling⟩ := walks_once
  obtain ⟨⟨held, hreach⟩, hpaths, hnodes, hreferences⟩ := hdoubling 1000
  simp only [Nat.reduceMul, Nat.reduceAdd] at hpaths hnodes hreferences
  have hdoubles : (doubling 1000).graph.Doubles 1000 := (doubling_doubles 1000).2
  have hsize : (doubling 1000).graph.size = 2001 := hdoubles.size
  have hd : (doubling 1000).graph.DistinctNames := hreach.sound.numbered.distinctNames fun c => by
    have := (doubling 1000).graph.builtIn_le_size c
    omega
  obtain ⟨top, htop⟩ := Graph.exists_node? (g := (doubling 1000).graph) (r := 2000) (by omega)
  obtain ⟨⟨rounds, hrounds⟩, hmarks, ⟨rounds', hrounds'⟩, hchecks⟩ := hwalks _ 2000 top htop
  have honce : ∀ r ≤ 2000, (Graph.pushes rounds).count (r, true) = 1 := fun r hr =>
    (hmarks _ _ hrounds).all hd r (Graph.mem_below.2 (hdoubles.reaches (Nat.le_refl 1000) hr))
  have hlowers := (hmarks _ _ hrounds).length_le
  have hvalidates := (hchecks _ _ hrounds').length_le
  rw [hnodes, hreferences] at hlowers
  rw [hreferences] at hvalidates
  exact ⟨hd, ⟨top, htop⟩, hpaths, ⟨rounds, hrounds, hlowers, honce⟩, top.context, rounds', hrounds', hvalidates⟩

end Workspace
end MatrixPlan
