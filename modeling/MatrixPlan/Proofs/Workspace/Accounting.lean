import MatrixPlan.Workspace.Basic
import MatrixPlan.Proofs.Workspace.Ownership
import MatrixPlan.Proofs.Workspace.Tally
/-!
# Accounting — registries count the living nodes of their contexts

The registry of each context counts the living nodes of this context that carry no error (`Counted`).  A new node
enters unless its registry is full, and each node that dies is taken away once, by the context it belongs to.
-/
namespace MatrixPlan

/-- **The nodes that the registry of a context counts** among those at some places. -/
def Graph.registered (g : Graph) (living : Multiset Nat) (c : Nat) : Multiset Node :=
  (living.filterMap g.node?).filter fun n => n.context = c ∧ n.registration = none

theorem Graph.registered_cons {g : Graph} {r : Nat} {n : Node} (hn : g.node? r = some n) (living : Multiset Nat)
    (c : Nat) : g.registered (r ::ₘ living) c =
      if n.context = c ∧ n.registration = none then n ::ₘ g.registered living c else g.registered living c := by
  rw [registered, Multiset.filterMap_cons_some _ _ _ hn, Multiset.filter_cons, registered]
  split <;> simp

theorem Graph.registered_cons_none {g : Graph} {r : Nat} (hn : g.node? r = none) (living : Multiset Nat) (c : Nat) :
    g.registered (r ::ₘ living) c = g.registered living c := by
  rw [registered, Multiset.filterMap_cons_none _ _ hn, registered]

theorem Graph.registered_congr {g g' : Graph} {living : Multiset Nat} (h : ∀ r ∈ living, g'.node? r = g.node? r)
    (c : Nat) : g'.registered living c = g.registered living c := by
  induction living using Multiset.induction_on with
  | empty => rfl
  | cons r living ih =>
    have hr := h r (Multiset.mem_cons_self r living)
    have hrest := ih fun q hq => h q (Multiset.mem_cons_of_mem hq)
    cases hn : g.node? r with
    | some n => rw [registered_cons hn, registered_cons (hr.trans hn), hrest]
    | none => rw [registered_cons_none hn, registered_cons_none (hr.trans hn), hrest]

/-- What a context becomes when it has given a number to a node of an operation. -/
def Context.next (x : Context) (operation : String) : Context :=
  { x with
    nextNode := x.nextNode + 1
    registry := if x.config.maxNodes.toNat ≤ x.registry.registered then x.registry else x.registry.enter operation }

/-- The node that a context makes at a place. -/
def Context.nodeOf (x : Context) (c : Nat) (spec : NodeSpec) : Node :=
  { spec with context := c, id := x.nextNode, registration := x.registry.fault? x.config.maxNodes }

theorem Context.register_eq (x : Context) (operation : String) :
    x.register operation = (x.nextNode, x.registry.fault? x.config.maxNodes, x.next operation) := by
  unfold Context.register Context.next Registry.fault?
  by_cases hfull : x.config.maxNodes.toNat ≤ x.registry.registered
  · simp only [if_pos hfull]
  · simp only [if_neg hfull]

theorem Registry.fault?_eq_none_iff {r : Registry} {limit : UInt64} :
    r.fault? limit = none ↔ r.registered < limit.toNat := by
  unfold fault?
  split <;> simp <;> omega

namespace Workspace

/-- **The registries count the registered nodes** at some places. -/
def Counted (g : Graph) (contexts : Array Context) (living : Multiset Nat) : Prop :=
  ∀ (c : Nat) (x : Context), contexts[c]? = some x → x.registry.Tallies ((g.registered living c).map fun n => n.operation)

variable {w : Workspace} {g : Graph} {contexts : Array Context} {living : Multiset Nat} {c r : Nat} {x : Context}
  {n : Node}

theorem getElem?_setContext (hx : contexts[c]? = some x) (x' : Context) (d : Nat) :
    (contexts.setIfInBounds c x')[d]? = if c = d then some x' else contexts[d]? := by
  rw [Array.getElem?_setIfInBounds]
  by_cases hd : c = d
  · subst hd
    rw [if_pos rfl, if_pos rfl, if_pos (Array.getElem?_eq_some_iff.1 hx).1]
  · rw [if_neg hd, if_neg hd]

theorem build_eq (hx : w.context? c = some x) (spec : NodeSpec) :
    w.build c spec = (w.graph.size, { w with
      heap := w.heap.add (x.nodeOf c spec), contexts := w.contexts.setIfInBounds c (x.next spec.operation) }) := by
  rw [build, hx]
  dsimp only
  rw [Context.register_eq]
  rfl

/-- **A new node is counted** by its context if it is registered, and by no other. -/
theorem Counted.build (hc : Counted g contexts living) (hx : contexts[c]? = some x) {spec : NodeSpec}
    (hin : ∀ i ∈ (x.nodeOf c spec).inputNodes, i < g.size) (hlt : ∀ r ∈ living, r < g.size) :
    Counted (g.add (x.nodeOf c spec) hin) (contexts.setIfInBounds c (x.next spec.operation)) (g.size ::ₘ living) := by
  intro c' x' hx'
  rw [Graph.registered_cons (Graph.node?_add_size hin),
    Graph.registered_congr fun r hr => Graph.node?_add_of_lt hin (hlt r hr)]
  have hfault : x.registry.fault? x.config.maxNodes = none ↔ _ := Registry.fault?_eq_none_iff
  rw [getElem?_setContext hx] at hx'
  by_cases heq : c = c'
  · subst heq
    rw [if_pos rfl] at hx'
    cases hx'
    by_cases hfull : x.config.maxNodes.toNat ≤ x.registry.registered
    · rw [if_neg fun h => by have := hfault.1 h.2; omega]
      simpa only [Context.next, if_pos hfull] using hc c x hx
    · rw [if_pos ⟨rfl, hfault.2 (by omega)⟩, Multiset.map_cons]
      have hop : (x.nodeOf c spec).operation = spec.operation := rfl
      simpa only [hop, Context.next, if_neg hfull] using (hc c x hx).enter spec.operation
  · rw [if_neg heq] at hx'
    rw [if_neg fun h => heq h.1]
    exact hc c' x' hx'

/-- **The death of a node is counted once**: by its context if it was registered, else by none. -/
theorem Counted.uncount (hc : Counted g contexts (r ::ₘ living)) : Counted g (uncount g contexts r) living := by
  unfold Workspace.uncount
  cases hn : g.node? r with
  | none =>
    intro c x hx
    have := hc c x hx
    rwa [Graph.registered_cons_none hn] at this
  | some n =>
    dsimp only
    have hcons : ∀ c, g.registered (r ::ₘ living) c = _ := Graph.registered_cons hn living
    by_cases hreg : n.registration = none
    · rw [hreg, Option.isNone_none, if_pos rfl]
      intro c x hx
      rw [Array.getElem?_modify] at hx
      by_cases heq : n.context = c
      · rw [if_pos heq] at hx
        obtain ⟨x, hx0, rfl⟩ := Option.map_eq_some_iff.1 hx
        have := hc c x hx0
        rw [hcons, if_pos ⟨heq, hreg⟩, Multiset.map_cons] at this
        have := this.leave (Multiset.mem_cons_self n.operation _)
        rwa [Multiset.erase_cons_head] at this
      · rw [if_neg heq] at hx
        have := hc c x hx
        rwa [hcons, if_neg fun h => heq h.1] at this
    · have hsome : n.registration.isNone = false := by
        rw [← Bool.not_eq_true, Option.isNone_iff_eq_none]
        exact hreg
      rw [hsome, if_neg (by simp)]
      intro c x hx
      have := hc c x hx
      rwa [hcons, if_neg fun h => hreg h.2] at this

theorem Counted.foldl_uncount {freed : List Nat} (hc : Counted g contexts (freed + living)) :
    Counted g (freed.foldl (Workspace.uncount g) contexts) living := by
  induction freed generalizing contexts with
  | nil => simpa using hc
  | cons r freed ih =>
    rw [← Multiset.cons_coe, Multiset.cons_add] at hc
    exact ih hc.uncount

/-- **A release finds what it takes away**: a total above zero, and an entry for the operation above zero. -/
theorem Counted.found (hc : Counted g contexts (r ::ₘ living)) (hn : g.node? r = some n)
    (hreg : n.registration = none) (hx : contexts[n.context]? = some x) :
    0 < x.registry.registered ∧ ∃ k, x.registry.perOperation[n.operation]? = some (k + 1) := by
  refine (hc n.context x hx).counted ?_
  rw [Graph.registered_cons hn, if_pos ⟨rfl, hreg⟩, Multiset.map_cons]
  exact Multiset.mem_cons_self n.operation _

/-- The release of a node changes no context but in its registry, whose total does not grow. -/
theorem uncount_context {c : Nat} {x' : Context} (hx : (uncount g contexts r)[c]? = some x') :
    ∃ x, contexts[c]? = some x ∧ x' = { x with registry := x'.registry } ∧
      x'.registry.registered ≤ x.registry.registered := by
  unfold uncount at hx
  split at hx
  · rename_i n hn
    split at hx
    · rw [Array.getElem?_modify] at hx
      split at hx
      · obtain ⟨x, hx0, rfl⟩ := Option.map_eq_some_iff.1 hx
        exact ⟨x, hx0, rfl, Nat.sub_le _ _⟩
      · exact ⟨x', hx, rfl, Nat.le_refl _⟩
    · exact ⟨x', hx, rfl, Nat.le_refl _⟩
  · exact ⟨x', hx, rfl, Nat.le_refl _⟩

theorem foldl_uncount_context {freed : List Nat} {x' : Context}
    (hx : (freed.foldl (uncount g) contexts)[c]? = some x') :
    ∃ x, contexts[c]? = some x ∧ x' = { x with registry := x'.registry } ∧
      x'.registry.registered ≤ x.registry.registered := by
  induction freed generalizing contexts with
  | nil => exact ⟨x', hx, rfl, Nat.le_refl _⟩
  | cons r freed ih =>
    obtain ⟨y, hy, heq, hle⟩ := ih hx
    obtain ⟨x, hx0, heq', hle'⟩ := uncount_context hy
    exact ⟨x, hx0, by rw [heq, heq'], Nat.le_trans hle hle'⟩

theorem size_uncount (g : Graph) (contexts : Array Context) (r : Nat) : (uncount g contexts r).size = contexts.size := by
  unfold uncount
  split
  · split
    · exact Array.size_modify
    · rfl
  · rfl

theorem size_foldl_uncount (g : Graph) (freed : List Nat) (contexts : Array Context) :
    (freed.foldl (uncount g) contexts).size = contexts.size := by
  induction freed generalizing contexts with
  | nil => rfl
  | cons r freed ih => rw [List.foldl_cons, ih, size_uncount]

end Workspace
end MatrixPlan
