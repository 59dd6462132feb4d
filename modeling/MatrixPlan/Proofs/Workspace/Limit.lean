import MatrixPlan.Proofs.Workspace.Moves
/-!
# Limit — registries are exact in every workspace that moves lead to

What a context reports is what lives: the counters of its registry, all together and by operation, are those of its
living nodes without an error, and never more than the limit.  A node beyond the limit is built with the error and is
counted neither when it is built nor when it dies.
-/
namespace MatrixPlan
namespace Workspace

/-- **The counters of a context are those of its living nodes** without an error. -/
structure Accounts (w : Workspace) (c : Nat) (x : Context) : Prop where
  nodes : w.nodeCount c = (w.graph.registered w.heap.living c).card
  operations : ∀ op, w.operationCount c op =
    ((w.graph.registered w.heap.living c).filter fun n => n.operation = op).card
  sum : (x.registry.perOperation.toList.map (·.2)).sum = w.nodeCount c
  limited : w.nodeCount c ≤ x.config.maxNodes.toNat

/-- **A build counts its node unless the registry is full**; then the node carries the error and nothing is counted. -/
structure BuildCounts (w : Workspace) (c : Nat) (x : Context) (spec : NodeSpec) : Prop where
  node : ∃ n, (w.build c spec).2.node? (w.build c spec).1 = some n ∧ n.toNodeSpec = spec ∧ n.context = c ∧
    n.registration = if x.config.maxNodes.toNat ≤ w.nodeCount c then some (.nodeLimitExceeded x.config.maxNodes) else none
  full : x.config.maxNodes.toNat ≤ w.nodeCount c → ∀ d, (w.build c spec).2.nodeCount d = w.nodeCount d ∧
    ∀ op, (w.build c spec).2.operationCount d op = w.operationCount d op

/-- **A death uncounts the node if it was counted**: it finds a total above zero, and an entry above zero for the
operation.  A node with an error leaves all contexts as they are. -/
def DeathCounts (g : Graph) (contexts : Array Context) (r : Nat) : Prop :=
  ∃ n, g.node? r = some n ∧ (n.registration ≠ none → uncount g contexts r = contexts) ∧
    (n.registration = none → ∃ x, contexts[n.context]? = some x ∧ 0 < x.registry.registered ∧
      ∃ k, x.registry.perOperation[n.operation]? = some (k + 1))

variable {w : Workspace} {held : Multiset Nat} {c r : Nat} {x : Context} {spec : NodeSpec}

theorem nodeCount_eq (hx : w.context? c = some x) : w.nodeCount c = x.registry.registered := by
  rw [nodeCount, hx, Option.elim_some]

theorem operationCount_eq (hx : w.context? c = some x) (op : String) :
    w.operationCount c op = x.registry.countOf op := by
  rw [operationCount, hx, Option.elim_some]

theorem Sound.accounts (h : Sound w held) (hx : w.context? c = some x) : Accounts w c x := by
  have ht := h.counted c x hx
  refine ⟨?_, fun op => ?_, ?_, ?_⟩
  · rw [nodeCount_eq hx, ht.registered, Multiset.card_map]
  · rw [operationCount_eq hx, ht.countOf, Multiset.count_map]
    congr 1
    exact Multiset.filter_congr fun n _ => eq_comm
  · rw [nodeCount_eq hx, ht.sum_perOperation]
  · rw [nodeCount_eq hx]
    exact h.limited c x hx

theorem Sound.buildCounts (hx : w.context? c = some x) (hin : ∀ i ∈ spec.inputNodes, i ∈ w.heap.living) :
    BuildCounts w c x spec := by
  have hlt : ∀ i ∈ (x.nodeOf c spec).inputNodes, i < w.graph.size := fun i hi =>
    Heap.lt_size_of_mem_living (hin i hi)
  obtain ⟨hplace, hgraph⟩ := build_graph hx hlt
  constructor
  · refine ⟨x.nodeOf c spec, ?_, rfl, rfl, ?_⟩
    · rw [node?, hplace, hgraph, Graph.node?_add_size]
    · rw [nodeCount_eq hx]
      rfl
  · intro hfull
    rw [nodeCount_eq hx] at hfull
    have hsame : ∀ d, ((w.build c spec).2.context? d).map (·.registry) = (w.context? d).map (·.registry) := by
      intro d
      rw [build_eq hx]
      change ((w.contexts.setIfInBounds c _)[d]?).map _ = _
      rw [getElem?_setContext hx]
      by_cases hd : c = d
      · subst hd
        rw [if_pos rfl, hx]
        simp only [Option.map_some, Context.next, if_pos hfull]
      · rw [if_neg hd]
        rfl
    intro d
    have := hsame d
    unfold nodeCount operationCount
    cases h₁ : (w.build c spec).2.context? d <;> cases h₂ : w.context? d <;> simp_all

/-- **Every death in the end of a handle** is counted as it should be. -/
theorem Sound.deathCounts (h : Sound w held) (hr : r ∈ held) {before after : List Nat} {q : Nat}
    (hsplit : (w.heap.release r).2 = before ++ q :: after) :
    DeathCounts w.graph (before.foldl (uncount w.graph) w.contexts) q := by
  obtain ⟨-, -, hliving⟩ := h.owned.release hr
  have hq : q ∈ w.heap.living := by
    rw [hliving, hsplit]
    simp
  obtain ⟨n, hn⟩ := Graph.exists_node? (Heap.lt_size_of_mem_living hq)
  have hc := h.counted
  rw [hliving, hsplit, ← Multiset.coe_add, Multiset.add_assoc] at hc
  have hc := hc.foldl_uncount
  rw [← Multiset.cons_coe, Multiset.cons_add] at hc
  refine ⟨n, hn, fun hreg => ?_, fun hreg => ?_⟩
  · obtain ⟨e, he⟩ := Option.ne_none_iff_exists'.1 hreg
    unfold uncount
    rw [show w.graph.node? q = some n from hn]
    simp only [he, Option.isNone_some, Bool.false_eq_true, if_false]
  · have hplace := h.numbered.placed q n hn
    rw [← size_foldl_uncount w.graph before w.contexts] at hplace
    obtain ⟨hpos, hentry⟩ := hc.found hn hreg (Array.getElem?_eq_getElem hplace)
    exact ⟨_, Array.getElem?_eq_getElem hplace, hpos, hentry⟩

/-- **Registries are exact** whatever has been built, cloned, dropped and computed: living are the nodes that held
handles reach, each context counts its living nodes without an error, a build meets the limit exactly when the count
has reached it, and a death takes away what was counted. -/
theorem Reachable.registries_exact {permit : Workspace → Nat → NodeSpec → Prop} (h : Reachable permit w held) :
    (∀ r, r ∈ w.heap.living ↔ ∃ q ∈ held, w.graph.Reaches q r) ∧
    (∀ c x, w.context? c = some x → Accounts w c x) ∧
    (∀ c x spec, w.context? c = some x → (∀ i ∈ spec.inputNodes, i ∈ w.heap.living) → BuildCounts w c x spec) ∧
    (∀ r ∈ held, w.heap.living = (w.heap.release r).2 + (w.drop r).heap.living ∧
      (w.drop r).contexts = (w.heap.release r).2.foldl (uncount w.graph) w.contexts ∧
      ∀ before q after, (w.heap.release r).2 = before ++ q :: after →
        DeathCounts w.graph (before.foldl (uncount w.graph) w.contexts) q) := by
  have hs := h.sound
  refine ⟨fun r => hs.owned.mem_living_iff, fun c x hx => hs.accounts hx, fun c x spec hx hin => Sound.buildCounts hx hin,
    fun r hr => ⟨(hs.owned.release hr).2.2, by rw [drop_eq hs.owned hr], fun before q after => hs.deathCounts hr⟩⟩

/-- Two of the three nodes are counted, and the third is not. -/
theorem registries_exact_crowded : Reachable anything crowded {2, 1, 0} ∧ crowded.nodeCount 0 = 2 ∧
    (crowded.graph.registered crowded.heap.living 0).card = 2 ∧ 2 ∈ crowded.heap.living ∧
    ∃ x, crowded.context? 0 = some x ∧ Accounts crowded 0 x := by
  have h := reachable_crowded.registries_exact
  have hx : crowded.context? 0 = some crowded.contexts[0] := rfl
  have ha := h.2.1 0 _ hx
  have hcount : crowded.nodeCount 0 = 2 := by decide
  refine ⟨reachable_crowded, hcount, by rw [← ha.nodes, hcount], (h.1 2).2 ⟨2, by simp, .refl _ _⟩, _, hx, ha⟩

end Workspace
end MatrixPlan
