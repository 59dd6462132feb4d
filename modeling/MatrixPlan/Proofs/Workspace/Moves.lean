import Mathlib.Logic.Relation
import MatrixPlan.Workspace.Submit
import MatrixPlan.Proofs.Workspace.Naming
/-!
# Moves — what can happen to a workspace

A workspace comes with the handles that are held on its nodes, each as often as it is held.  It changes by single moves
(`Move`), and what a move keeps (`Sound`) holds of every workspace that moves lead to (`Reachable`).
-/
namespace MatrixPlan
namespace Workspace

/-- **One change of a workspace and of the handles on it.**  Nodes are built from living nodes as `permit` allows, and a
handle can be had on any living node. -/
inductive Move (permit : Workspace → Nat → NodeSpec → Prop) :
    Workspace × Multiset Nat → Workspace × Multiset Nat → Prop where
  | engines (w : Workspace) (held : Multiset Nat) (engines : Array Recorder) :
      Move permit (w, held) ({ w with engines }, held)
  | context (w : Workspace) (held : Multiset Nat) (id : ContextId) (engine : Nat) (config : Config) :
      Move permit (w, held) ((w.addContext id engine config).2, held)
  | build (w : Workspace) (held : Multiset Nat) (c : Nat) (spec : NodeSpec) (hc : c < w.contexts.size)
      (hin : ∀ i ∈ spec.inputNodes, i ∈ w.heap.living) (hp : permit w c spec) :
      Move permit (w, held) ((w.build c spec).2, (w.build c spec).1 ::ₘ held)
  | clone (w : Workspace) (held : Multiset Nat) (r : Nat) (hr : r ∈ w.heap.living) :
      Move permit (w, held) (w.retain r, r ::ₘ held)
  | drop (w : Workspace) (held : Multiset Nat) (r : Nat) (hr : r ∈ held) :
      Move permit (w, held) (w.drop r, held.erase r)
  | submit (w : Workspace) (held : Multiset Nat) (stamp : Stamp) (root : Nat) :
      Move permit (w, held) ((w.submit stamp root).2, held)

/-- **The workspaces that moves lead to from the empty one**, each with the handles held then. -/
def Reachable (permit : Workspace → Nat → NodeSpec → Prop) (w : Workspace) (held : Multiset Nat) : Prop :=
  Relation.ReflTransGen (Move permit) ({}, 0) (w, held)

def anything : Workspace → Nat → NodeSpec → Prop := fun _ _ _ => True

/-- **What every move keeps.** -/
structure Sound (w : Workspace) (held : Multiset Nat) : Prop where
  owned : w.heap.OwnedBy held
  counted : Counted w.graph w.contexts w.heap.living
  limited : ∀ (c : Nat) (x : Context), w.contexts[c]? = some x → x.registry.registered ≤ x.config.maxNodes.toNat
  numbered : Numbered w.graph w.contexts

variable {w w' : Workspace} {held held' : Multiset Nat} {c r : Nat} {x : Context} {spec : NodeSpec}
  {permit : Workspace → Nat → NodeSpec → Prop}

theorem sound_empty : Sound {} 0 where
  owned := Heap.ownedBy_empty
  counted := by intro c x h; simp at h
  limited := by intro c x h; simp at h
  numbered := Numbered.empty

theorem Sound.congr (h : Sound w held) (hheap : w'.heap = w.heap) (hctx : w'.contexts = w.contexts) : Sound w' held where
  owned := by rw [hheap]; exact h.owned
  counted := by rw [graph, hheap, hctx]; exact h.counted
  limited := by rw [hctx]; exact h.limited
  numbered := by rw [graph, hheap, hctx]; exact h.numbered

theorem submit_snd (w : Workspace) (stamp : Stamp) (root : Nat) :
    (w.submit stamp root).2.heap = w.heap ∧ (w.submit stamp root).2.contexts = w.contexts := by
  unfold submit
  split
  · exact ⟨rfl, rfl⟩
  · dsimp only
    split
    · exact ⟨rfl, rfl⟩
    · unfold execute
      split <;> exact ⟨rfl, rfl⟩

theorem size_contexts_build (w : Workspace) (c : Nat) (spec : NodeSpec) :
    (w.build c spec).2.contexts.size = w.contexts.size := by
  unfold build
  split
  · rfl
  · exact Array.size_setIfInBounds

theorem Sound.addContext (h : Sound w held) (id : ContextId) (engine : Nat) (config : Config) :
    Sound (w.addContext id engine config).2 held where
  owned := h.owned
  counted c x hx := by
    change (w.contexts.push _)[c]? = _ at hx
    rw [Array.getElem?_push] at hx
    split at hx
    · rename_i hc
      cases hx
      -- no node belongs to a context that is not there yet
      have hnone : w.graph.registered w.heap.living c = 0 := by
        refine Multiset.filter_eq_nil.2 fun n hn hreg => ?_
        obtain ⟨r, -, hr⟩ := (Multiset.mem_filterMap _ _).1 hn
        have := h.numbered.placed r n hr
        omega
      change Registry.Tallies {} ((w.graph.registered w.heap.living c).map _)
      rw [hnone]
      exact Registry.tallies_empty
    · exact h.counted c x hx
  limited c x hx := by
    change (w.contexts.push _)[c]? = _ at hx
    rw [Array.getElem?_push] at hx
    split at hx
    · cases hx
      exact Nat.zero_le _
    · exact h.limited c x hx
  numbered := h.numbered.push rfl

theorem Sound.build (h : Sound w held) (hx : w.context? c = some x) (hin : ∀ i ∈ spec.inputNodes, i ∈ w.heap.living) :
    Sound (w.build c spec).2 ((w.build c spec).1 ::ₘ held) := by
  have hlt : ∀ i ∈ (x.nodeOf c spec).inputNodes, i < w.heap.graph.size := fun i hi =>
    Heap.lt_size_of_mem_living (hin i hi)
  rw [build_eq hx]
  refine ⟨h.owned.add hin, ?_, fun d y hy => ?_, ?_⟩
  · change Counted (w.heap.add (x.nodeOf c spec)).graph _ (w.heap.add (x.nodeOf c spec)).living
    rw [Heap.graph_add hlt, Heap.living_add hin]
    exact h.counted.build hx hlt fun q hq => Heap.lt_size_of_mem_living hq
  · rw [getElem?_setContext hx] at hy
    by_cases hd : c = d
    · subst hd
      rw [if_pos rfl] at hy
      cases hy
      have hold := h.limited c x hx
      by_cases hfull : x.config.maxNodes.toNat ≤ x.registry.registered
      · simpa only [Context.next, if_pos hfull] using hold
      · simp only [Context.next, if_neg hfull, Registry.enter]
        omega
    · rw [if_neg hd] at hy
      exact h.limited d y hy
  · change Numbered (w.heap.add (x.nodeOf c spec)).graph _
    rw [Heap.graph_add hlt]
    exact h.numbered.add hx rfl rfl hlt rfl

theorem Sound.retain (h : Sound w held) (hr : r ∈ w.heap.living) : Sound (w.retain r) (r ::ₘ held) where
  owned := h.owned.retain hr
  counted := by
    change Counted w.graph w.contexts (w.heap.retain r).living
    rw [Heap.living_retain hr]
    exact h.counted
  limited := h.limited
  numbered := h.numbered

/-- **The end of a handle**: the nodes that die of it are uncounted one after another. -/
theorem drop_eq (ho : w.heap.OwnedBy held) (hr : r ∈ held) :
    w.drop r = { w with
      heap := (w.heap.release r).1, contexts := (w.heap.release r).2.foldl (uncount w.graph) w.contexts } := by
  obtain ⟨hg, -, -⟩ := ho.release hr
  change ({ w with
      heap := (w.heap.release r).1
      contexts := (w.heap.release r).2.foldl (uncount (w.heap.release r).1.graph) w.contexts } : Workspace) = _
  rw [hg]
  rfl

theorem Sound.drop (h : Sound w held) (hr : r ∈ held) : Sound (w.drop r) (held.erase r) := by
  obtain ⟨hg, hown, hliving⟩ := h.owned.release hr
  rw [drop_eq h.owned hr]
  refine ⟨hown, ?_, fun c x hx => ?_, ?_⟩
  · have hc := h.counted
    rw [hliving] at hc
    change Counted (w.heap.release r).1.graph _ _
    rw [hg]
    exact hc.foldl_uncount
  · obtain ⟨y, hy, heq, hle⟩ := foldl_uncount_context hx
    have hlim := h.limited c y hy
    have hcfg : x.config = y.config := by rw [heq]
    rw [hcfg]
    omega
  · change Numbered (w.heap.release r).1.graph _
    rw [hg]
    refine h.numbered.congr (size_foldl_uncount _ _ _) fun c x hx => ?_
    obtain ⟨y, hy, heq, -⟩ := foldl_uncount_context hx
    exact ⟨y, hy, by rw [heq]⟩

/-- **A move keeps a workspace sound.** -/
theorem Move.sound {a b : Workspace × Multiset Nat} (hm : Move permit a b) (h : Sound a.1 a.2) : Sound b.1 b.2 := by
  cases hm with
  | engines w held engines => exact h.congr rfl rfl
  | context w held id engine config => exact h.addContext id engine config
  | build w held c spec hc hin hp => exact h.build (Array.getElem?_eq_getElem hc) hin
  | clone w held r hr => exact h.retain hr
  | drop w held r hr => exact h.drop hr
  | submit w held stamp root =>
    obtain ⟨hheap, hctx⟩ := w.submit_snd stamp root
    exact h.congr hheap hctx

theorem Move.mono {permit' : Workspace → Nat → NodeSpec → Prop} {a b : Workspace × Multiset Nat}
    (h : ∀ w c spec, permit w c spec → permit' w c spec) (hm : Move permit a b) : Move permit' a b := by
  cases hm with
  | engines w held engines => exact .engines w held engines
  | context w held id engine config => exact .context w held id engine config
  | build w held c spec hc hin hp => exact .build w held c spec hc hin (h w c spec hp)
  | clone w held r hr => exact .clone w held r hr
  | drop w held r hr => exact .drop w held r hr
  | submit w held stamp root => exact .submit w held stamp root

/-- **Every workspace that moves lead to is sound.** -/
theorem Reachable.sound (h : Reachable permit w held) : Sound w held := by
  have hall : ∀ b, Relation.ReflTransGen (Move permit) ({}, 0) b → Sound b.1 b.2 := by
    intro b hb
    induction hb with
    | refl => exact sound_empty
    | tail _ hm ih => exact hm.sound ih
  exact hall (w, held) h

/-- **A build puts its node at the end of the graph.** -/
theorem build_graph (hx : w.context? c = some x) (hlt : ∀ i ∈ (x.nodeOf c spec).inputNodes, i < w.graph.size) :
    (w.build c spec).1 = w.graph.size ∧ (w.build c spec).2.graph = w.graph.add (x.nodeOf c spec) hlt := by
  rw [build_eq hx]
  exact ⟨rfl, Heap.graph_add hlt⟩

/-- **A move leaves the graph as it is or adds a node to it.** -/
theorem Move.graph {a b : Workspace × Multiset Nat} (hm : Move permit a b) (h : Sound a.1 a.2) :
    b.1.graph = a.1.graph ∨ ∃ (c : Nat) (x : Context) (spec : NodeSpec)
      (hin : ∀ i ∈ (x.nodeOf c spec).inputNodes, i < a.1.graph.size),
      a.1.context? c = some x ∧ permit a.1 c spec ∧ b.1.graph = a.1.graph.add (x.nodeOf c spec) hin := by
  cases hm with
  | engines w held engines => exact .inl rfl
  | context w held id engine config => exact .inl rfl
  | build w held c spec hc hin hp =>
    have hx : w.context? c = some w.contexts[c] := Array.getElem?_eq_getElem hc
    have hlt : ∀ i ∈ (w.contexts[c].nodeOf c spec).inputNodes, i < w.graph.size := fun i hi =>
      Heap.lt_size_of_mem_living (hin i hi)
    exact .inr ⟨c, _, spec, hlt, hx, hp, (build_graph hx hlt).2⟩
  | clone w held r hr => exact .inl rfl
  | drop w held r hr =>
    rw [drop_eq h.owned hr]
    exact .inl (h.owned.release hr).1
  | submit w held stamp root => exact .inl (congrArg Heap.graph (w.submit_snd stamp root).1)

/-- A workspace of one context that takes two nodes and has been given three: a number, its sum with itself, and the sum
of both. -/
def crowded : Workspace :=
  let w : Workspace := (({} : Workspace).addContext ⟨Uuid.ofNat 0⟩ 0 { maxNodes := 2 }).2
  let w := (w.addSource 0 (.scalar 1.0)).2
  let w := (w.apply (.add 0 0)).2
  (w.apply (.add 1 0)).2

theorem reachable_crowded : Reachable anything crowded {2, 1, 0} := by
  refine .tail (.tail (.tail (.single (.context _ _ _ _ _)) (.build _ _ 0 _ ?_ ?_ trivial)) (.build _ _ 0 _ ?_ ?_ trivial))
    (.build _ _ 0 _ ?_ ?_ trivial)
  all_goals decide

theorem builtIn_crowded (c : Nat) : crowded.graph.builtIn c ≤ 2 ^ 64 :=
  (crowded.graph.builtIn_le_size c).trans (by decide)

end Workspace
end MatrixPlan
