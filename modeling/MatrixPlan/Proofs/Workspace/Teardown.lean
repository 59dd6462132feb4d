import MatrixPlan.Proofs.Workspace.Origins
/-!
# Teardown — the end of a handle frees what nothing reaches any more

Whatever the nodes and their sharing, as long as each has the owners it should have: giving up a handle ends, frees the
nodes that only this handle reached, gives each of their slots back once, and leaves all others as they were.
-/
namespace MatrixPlan

/-- The slot that a node holds in the registry of a context: its operation, if it is registered there. -/
def Graph.slotIn? (g : Graph) (c : Nat) (r : Nat) : Option String :=
  (g.node? r).bind fun n => if n.context = c ∧ n.registration = none then some n.operation else none

namespace Workspace

variable {w : Workspace} {g : Graph} {contexts : Array Context} {held : Multiset Nat} {r : Nat}

/-- A context after some slots of its registry have been given back, one after another. -/
def givenBack (x : Context) (slots : List String) : Context :=
  { x with registry := slots.foldl Registry.leave x.registry }

/-- The death of a node gives back its slot in the registry of its own context, and nothing else. -/
theorem getElem?_uncount (c : Nat) :
    (uncount g contexts r)[c]? = contexts[c]?.map fun x => givenBack x (g.slotIn? c r).toList := by
  have hsame : contexts[c]? = contexts[c]?.map fun x => givenBack x [] := by cases contexts[c]? <;> rfl
  unfold uncount Graph.slotIn?
  cases hn : g.node? r with
  | none => exact hsame
  | some n =>
    dsimp only [Option.bind_some]
    by_cases hreg : n.registration = none
    · rw [hreg, Option.isNone_none, if_pos rfl, Array.getElem?_modify]
      by_cases hc : n.context = c
      · rw [if_pos hc, if_pos ⟨hc, rfl⟩]
        rfl
      · rw [if_neg hc, if_neg fun h => hc h.1]
        exact hsame
    · rw [Option.isNone_eq_false_iff.2 (Option.isSome_iff_ne_none.2 hreg), if_neg Bool.false_ne_true,
        if_neg fun h => hreg h.2]
      exact hsame

/-- **The deaths of nodes give back their slots**, in the order of the deaths. -/
theorem getElem?_foldl_uncount (freed : List Nat) (c : Nat) :
    (freed.foldl (uncount g) contexts)[c]? =
      contexts[c]?.map fun x => givenBack x (freed.filterMap (g.slotIn? c)) := by
  induction freed generalizing contexts with
  | nil => cases h : contexts[c]? <;> simp [h, givenBack]
  | cons r freed ih =>
    rw [List.foldl_cons, ih, getElem?_uncount, Option.map_map, List.filterMap_cons]
    congr 1
    funext x
    cases g.slotIn? c r <;> rfl

/-- **What is freed by the end of a handle on a node**: what that handle reached and no other handle does, each node
once. -/
structure FreedBy (w : Workspace) (held : Multiset Nat) (r : Nat) (freed : List Nat) : Prop where
  nodup : freed.Nodup
  mem_iff : ∀ q, q ∈ freed ↔ w.graph.Reaches r q ∧ ∀ p ∈ held.erase r, ¬ w.graph.Reaches p q

theorem freedBy_release (ho : w.heap.OwnedBy held) (hr : r ∈ held) : w.FreedBy held r (w.heap.release r).2 := by
  obtain ⟨hg, hown, hliving⟩ := ho.release hr
  have hnodup := w.heap.nodup_living
  rw [hliving, Multiset.nodup_add] at hnodup
  refine ⟨Multiset.coe_nodup.1 hnodup.1, fun q => ?_⟩
  have hlives : q ∈ w.heap.living ↔ q ∈ (w.heap.release r).2 ∨ q ∈ (w.heap.release r).1.living := by
    rw [hliving, Multiset.mem_add, Multiset.mem_coe]
  have hdead : q ∈ (w.heap.release r).2 → q ∉ (w.heap.release r).1.living := fun hq hlive =>
    Multiset.disjoint_left.1 hnodup.2.2 (Multiset.mem_coe.2 hq) hlive
  rw [ho.mem_living_iff, hown.mem_living_iff, hg] at hlives
  rw [hown.mem_living_iff, hg] at hdead
  constructor
  · intro hq
    have hnone : ∀ p ∈ held.erase r, ¬ w.graph.Reaches p q := fun p hp hreach => hdead hq ⟨p, hp, hreach⟩
    obtain ⟨p, hp, hreach⟩ := hlives.2 (.inl hq)
    -- a handle that reaches what is freed is not among those that stay
    rcases eq_or_ne p r with rfl | hne
    · exact ⟨hreach, hnone⟩
    · exact absurd hreach (hnone p ((Multiset.mem_erase_of_ne hne).2 hp))
  · rintro ⟨hreach, hnone⟩
    rcases hlives.1 ⟨r, hr, hreach⟩ with hq | ⟨p, hp, hreach⟩
    · exact hq
    · exact absurd hreach (hnone p hp)

/-- **The end of a handle frees exactly what nothing reaches any more.**  In any workspace whose nodes have an owner for
each handle and each use, the nodes that live on are those that the other handles reach, with their owners and inputs as
they should be.  Each node that is freed gives back its slot once if it is registered, and none if it is not; so
registries that counted the living nodes still do. -/
theorem drop_exact (ho : w.heap.OwnedBy held) (hr : r ∈ held) :
    (∀ q, q ∈ (w.drop r).heap.living ↔ ∃ p ∈ held.erase r, w.graph.Reaches p q) ∧
    (w.drop r).graph = w.graph ∧ (w.drop r).heap.OwnedBy (held.erase r) ∧
    (∃ freed, w.FreedBy held r freed ∧ ∀ c, (w.drop r).context? c =
      (w.context? c).map fun x => givenBack x (freed.filterMap (w.graph.slotIn? c))) ∧
    (Counted w.graph w.contexts w.heap.living →
      Counted (w.drop r).graph (w.drop r).contexts (w.drop r).heap.living) := by
  obtain ⟨hg, hown, hliving⟩ := ho.release hr
  rw [drop_eq ho hr]
  refine ⟨fun q => ?_, hg, hown, ⟨_, freedBy_release ho hr, fun c => getElem?_foldl_uncount _ c⟩, fun hc => ?_⟩
  · rw [hown.mem_living_iff, hg]
    rfl
  · rw [hliving] at hc
    change Counted (w.heap.release r).1.graph _ _
    rw [hg]
    exact hc.foldl_uncount

/-- Two contexts, the second of which takes one node.  A matrix of the first is used twice by its sum with itself; that
sum and a matrix of the second are bound side by side. -/
def entwined : Workspace :=
  let w : Workspace := (({} : Workspace).addContext ⟨Uuid.ofNat 0⟩ 0 {}).2
  let w := (w.addContext ⟨Uuid.ofNat 1⟩ 0 { maxNodes := 1 }).2
  let w := (w.addSource 0 (.read "x.csv" .unknown)).2
  let w := (w.apply (.add 0 0)).2
  let w := (w.addSource 1 (.read "y.csv" .unknown)).2
  (w.apply (.cbind 2 1)).2

theorem reachable_entwined : Reachable offered entwined {3, 2, 1, 0} := by
  have h : Reachable offered _ _ := .tail (.single (.context _ _ ⟨Uuid.ofNat 0⟩ 0 {})) (.context _ _ ⟨Uuid.ofNat 1⟩ 0
    { maxNodes := 1 })
  have h := h.addSource (c := 0) (by decide) (.read "x.csv" .unknown)
  have h := h.apply (a := .add 0 0) (by decide)
  have h := h.addSource (c := 1) (by decide) (.read "y.csv" .unknown)
  exact h.apply (a := .cbind 2 1) (by decide)

/-- Without its last handle the matrix of both contexts takes the sum and the matrix beside it along. -/
theorem drop_exact_entwined : ((entwined.drop 1).drop 2).heap.OwnedBy {3, 0} ∧ 3 ∈ ({3, 0} : Multiset Nat) ∧
    (∀ q, q ∈ (((entwined.drop 1).drop 2).drop 3).heap.living ↔ q = 0) ∧
    ∃ freed, ((entwined.drop 1).drop 2).FreedBy {3, 0} 3 freed := by
  have h1 : Sound (entwined.drop 1) {3, 2, 0} := reachable_entwined.sound.drop (r := 1) (by decide)
  have h2 : Sound ((entwined.drop 1).drop 2) {3, 0} := h1.drop (r := 2) (by decide)
  have ho := h2.owned
  have hr : 3 ∈ ({3, 0} : Multiset Nat) := by decide
  obtain ⟨hliving, -, -, ⟨freed, hfreed, -⟩, -⟩ := drop_exact ho hr
  refine ⟨ho, hr, fun q => ?_, freed, hfreed⟩
  rw [hliving]
  constructor
  · rintro ⟨p, hp, hreach⟩
    have hp : p = 0 := by simpa using hp
    have := hreach.le
    omega
  · rintro rfl
    exact ⟨0, by decide, .refl _ 0⟩

end Workspace
end MatrixPlan
