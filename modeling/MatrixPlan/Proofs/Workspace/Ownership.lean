import Mathlib.Data.Multiset.Bind
import Mathlib.Data.Multiset.Range
import MatrixPlan.Workspace.Heap
import MatrixPlan.Proofs.Graph.Reach
/-!
# Ownership — who owns a node, and which nodes die

A heap is owned by a collection of handles when each node has one owner for each handle on it and one for each time a
living node uses it (`Heap.OwnedBy`).  Giving up handles keeps this: what is listed as dead is what has left the living,
each node once.
-/
namespace MatrixPlan
namespace Heap

/-- The places of the living nodes. -/
def living (h : Heap) : Multiset Nat := (Multiset.range h.graph.size).filter fun r => h.isAlive r

/-- The inputs of the living nodes, as often as they are used. -/
def slots (h : Heap) : Multiset Nat := h.living.bind fun r => (h.graph.inputs r : Multiset Nat)

/-- **Each node has an owner for each handle held on it and for each use by a living node.** -/
def OwnedBy (h : Heap) (held : Multiset Nat) : Prop := ∀ r, h.ownersOf r = (held + h.slots).count r

variable {h : Heap} {held : Multiset Nat} {r : Nat}

theorem ownersOf_eq_zero (hr : h.graph.size ≤ r) : h.ownersOf r = 0 := by
  rw [ownersOf, Array.getD_eq_getD_getElem?, Array.getElem?_eq_none (by rw [h.owners_size]; exact hr)]
  rfl

theorem ownersOf_of_lt (hr : r < h.owners.size) : h.ownersOf r = h.owners[r] := by
  rw [ownersOf, Array.getD_eq_getD_getElem?, Array.getElem?_eq_getElem hr]
  rfl

theorem mem_living : r ∈ h.living ↔ 0 < h.ownersOf r := by
  rw [living, Multiset.mem_filter, Multiset.mem_range, isAlive, decide_eq_true_iff]
  refine ⟨fun hr => hr.2, fun hr => ⟨?_, hr⟩⟩
  by_contra hlt
  rw [ownersOf_eq_zero (Nat.le_of_not_lt hlt)] at hr
  exact Nat.lt_irrefl 0 hr

theorem lt_size_of_mem_living (hr : r ∈ h.living) : r < h.graph.size :=
  Multiset.mem_range.1 (Multiset.mem_filter.1 hr).1

theorem nodup_living (h : Heap) : h.living.Nodup := (Multiset.nodup_range _).filter _

theorem living_congr {h' : Heap} (hg : h'.graph = h.graph) (ho : ∀ r, 0 < h'.ownersOf r ↔ 0 < h.ownersOf r) :
    h'.living = h.living := by
  rw [living, living, hg]
  refine Multiset.filter_congr fun r _ => ?_
  simp [isAlive, ho r]

theorem slots_congr {h' : Heap} (hg : h'.graph = h.graph) (hl : h'.living = h.living) : h'.slots = h.slots := by
  rw [slots, slots, hg, hl]

theorem OwnedBy.mem_living (ho : h.OwnedBy held) (hr : r ∈ held) : r ∈ h.living := by
  rw [Heap.mem_living, ho r]
  exact Multiset.count_pos.2 (Multiset.mem_add.2 (.inl hr))

theorem OwnedBy.inputs_mem_living (ho : h.OwnedBy held) (hr : r ∈ h.living) {i : Nat} (hi : i ∈ h.graph.inputs r) :
    i ∈ h.living := by
  rw [Heap.mem_living, ho i]
  exact Multiset.count_pos.2 (Multiset.mem_add.2 (.inr (Multiset.mem_bind.2 ⟨r, hr, hi⟩)))

/-- **The living nodes are those that a held handle reaches.** -/
theorem OwnedBy.mem_living_iff (ho : h.OwnedBy held) : r ∈ h.living ↔ ∃ q ∈ held, h.graph.Reaches q r := by
  constructor
  · -- by induction from the end of the table, since a node is used by later ones
    induction hk : h.graph.size - r using Nat.strongRecOn generalizing r with
    | ind k ih =>
      intro hr
      have hpos := Heap.mem_living.1 hr
      rw [ho r, Multiset.count_pos, Multiset.mem_add] at hpos
      rcases hpos with hheld | hslot
      · exact ⟨r, hheld, .refl _ r⟩
      · obtain ⟨p, hp, hin⟩ := Multiset.mem_bind.1 hslot
        have hlt := Graph.lt_of_mem_inputs (Multiset.mem_coe.1 hin)
        have hsize := lt_size_of_mem_living hp
        obtain ⟨q, hq, hreach⟩ := ih (h.graph.size - p) (by omega) rfl hp
        exact ⟨q, hq, hreach.input (Multiset.mem_coe.1 hin)⟩
  · rintro ⟨q, hq, hreach⟩
    exact hreach.mem_of_closed (S := (· ∈ h.living)) (ho.mem_living hq) fun p hp i hi => ho.inputs_mem_living hp hi

theorem ownedBy_empty : empty.OwnedBy 0 := by
  intro r
  simp [ownersOf, slots, living, empty, Graph.empty, Graph.size]

theorem ownersOf_retain (hr : r < h.graph.size) (q : Nat) :
    (h.retain r).ownersOf q = h.ownersOf q + if q = r then 1 else 0 := by
  rw [ownersOf, ownersOf, Array.getD_eq_getD_getElem?, Array.getD_eq_getD_getElem?]
  change ((h.owners.modify r (· + 1))[q]?).getD 0 = _
  rw [Array.getElem?_modify]
  by_cases hq : q = r
  · subst hq
    rw [if_pos rfl, if_pos rfl, Array.getElem?_eq_getElem (by rw [h.owners_size]; exact hr)]
    rfl
  · rw [if_neg fun heq => hq heq.symm, if_neg hq, Nat.add_zero]

theorem ownersOf_retainAll {refs : List Nat} (hr : ∀ i ∈ refs, i < h.graph.size) (q : Nat) :
    (h.retainAll refs).ownersOf q = h.ownersOf q + refs.count q := by
  induction refs generalizing h with
  | nil => rfl
  | cons i refs ih =>
    change ((h.retain i).retainAll refs).ownersOf q = _
    rw [ih (h := h.retain i) fun j hj => hr j (List.mem_cons_of_mem i hj), ownersOf_retain (hr i List.mem_cons_self),
      List.count_cons]
    by_cases hq : q = i
    · subst hq
      simp only [if_pos, beq_self_eq_true]
      omega
    · have hne : (i == q) = false := beq_eq_false_iff_ne.2 fun heq => hq heq.symm
      simp [hq, hne]

theorem living_retain (hr : r ∈ h.living) : (h.retain r).living = h.living :=
  living_congr rfl fun q => by
    have hpos := Heap.mem_living.1 hr
    rw [ownersOf_retain (lt_size_of_mem_living hr)]
    by_cases hq : q = r
    · subst hq; simp [hpos]
    · simp [hq]

theorem OwnedBy.retain (ho : h.OwnedBy held) (hr : r ∈ h.living) : (h.retain r).OwnedBy (r ::ₘ held) := by
  have hlt := lt_size_of_mem_living hr
  have hl := living_retain hr
  have hs : (h.retain r).slots = h.slots := slots_congr rfl hl
  intro q
  rw [ownersOf_retain hlt, ho q, hs, Multiset.cons_add, Multiset.count_cons]

theorem graph_add {n : Node} (hn : ∀ i ∈ n.inputNodes, i < h.graph.size) : (h.add n).graph = h.graph.add n hn := by
  rw [add, dif_pos hn]

theorem ownersOf_add {n : Node} (hn : ∀ i ∈ n.inputNodes, i < h.graph.size) (q : Nat) :
    (h.add n).ownersOf q = h.ownersOf q + n.inputNodes.count q + if q = h.graph.size then 1 else 0 := by
  have hsize : (h.retainAll n.inputNodes).owners.size = h.graph.size := by
    rw [(h.retainAll n.inputNodes).owners_size, graph_retainAll]
  have hpush : (h.add n).ownersOf q = (((h.retainAll n.inputNodes).owners.push 1)[q]?).getD 0 := by
    rw [ownersOf, Array.getD_eq_getD_getElem?, add, dif_pos hn]
  have hold := ownersOf_retainAll hn q
  rw [hpush, Array.getElem?_push, hsize]
  by_cases hq : q = h.graph.size
  · rw [if_pos hq, if_pos hq, ownersOf_eq_zero (Nat.le_of_eq hq.symm), List.count_eq_zero.2]
    · rfl
    · exact fun hin => Nat.lt_irrefl _ (hq ▸ hn q hin)
  · rw [if_neg hq, if_neg hq, Nat.add_zero, ← hold, ownersOf, Array.getD_eq_getD_getElem?]

/-- **A new node joins the living** when what it uses is alive. -/
theorem living_add {n : Node} (hn : ∀ i ∈ n.inputNodes, i ∈ h.living) : (h.add n).living = h.graph.size ::ₘ h.living := by
  have hlt : ∀ i ∈ n.inputNodes, i < h.graph.size := fun i hi => lt_size_of_mem_living (hn i hi)
  have hself : (h.add n).isAlive h.graph.size = true := by
    rw [isAlive, ownersOf_add hlt, if_pos rfl]
    simp
  rw [living, graph_add hlt, Graph.size_add, Multiset.range_succ,
    Multiset.filter_cons_of_pos (p := fun r => (h.add n).isAlive r = true) _ hself, living]
  congr 1
  refine Multiset.filter_congr fun q hq => ?_
  rw [isAlive, isAlive, ownersOf_add hlt, if_neg (Nat.ne_of_lt (Multiset.mem_range.1 hq)), Nat.add_zero]
  by_cases hin : q ∈ n.inputNodes
  · have := Heap.mem_living.1 (hn q hin)
    simp only [decide_eq_true_eq]
    omega
  · rw [List.count_eq_zero.2 hin, Nat.add_zero]

theorem slots_add {n : Node} (hn : ∀ i ∈ n.inputNodes, i ∈ h.living) :
    (h.add n).slots = (n.inputNodes : Multiset Nat) + h.slots := by
  have hlt : ∀ i ∈ n.inputNodes, i < h.graph.size := fun i hi => lt_size_of_mem_living (hn i hi)
  rw [slots, living_add hn, Multiset.cons_bind, graph_add hlt, Graph.inputs_add_size, slots]
  congr 1
  refine Multiset.bind_congr fun q hq => ?_
  rw [Graph.inputs_add_of_lt hlt (lt_size_of_mem_living hq)]

/-- **A new node has one handle on it, and owns what it uses.** -/
theorem OwnedBy.add (ho : h.OwnedBy held) {n : Node} (hn : ∀ i ∈ n.inputNodes, i ∈ h.living) :
    (h.add n).OwnedBy (h.graph.size ::ₘ held) := by
  intro q
  rw [ownersOf_add fun i hi => lt_size_of_mem_living (hn i hi), ho q, slots_add hn, Multiset.cons_add,
    Multiset.count_cons, Multiset.count_add, Multiset.count_add, Multiset.count_add, Multiset.coe_count]
  omega

theorem ownersOf_setOwners (k : Nat) (hr : r < h.owners.size) (q : Nat) :
    (h.setOwners r k hr).ownersOf q = if q = r then k else h.ownersOf q := by
  rw [ownersOf, Array.getD_eq_getD_getElem?, setOwners]
  dsimp only
  rw [Array.getElem?_set]
  by_cases hq : q = r
  · subst hq
    rw [if_pos rfl, if_pos rfl]
    rfl
  · rw [if_neg fun heq => hq heq.symm, if_neg hq, ownersOf, Array.getD_eq_getD_getElem?]

/-- A node with several owners loses one. -/
theorem OwnedBy.setOwners_pred {pending : Multiset Nat} (ho : h.OwnedBy (held + r ::ₘ pending)) (hr : r < h.owners.size)
    (hmany : 1 < h.owners[r]) :
    (h.setOwners r (h.owners[r] - 1) hr).OwnedBy (held + pending) ∧
      (h.setOwners r (h.owners[r] - 1) hr).living = h.living := by
  have hown := ownersOf_of_lt hr
  have hl : (h.setOwners r (h.owners[r] - 1) hr).living = h.living := living_congr rfl fun q => by
    rw [ownersOf_setOwners]
    by_cases hq : q = r
    · subst hq
      rw [if_pos rfl]
      omega
    · rw [if_neg hq]
  have hs : (h.setOwners r (h.owners[r] - 1) hr).slots = h.slots := slots_congr rfl hl
  refine ⟨fun q => ?_, hl⟩
  have hq := ho q
  rw [ownersOf_setOwners, hs]
  simp only [Multiset.count_add, Multiset.count_cons] at hq ⊢
  by_cases heq : q = r
  · subst heq
    simp only [if_pos] at hq ⊢
    omega
  · simp only [if_neg heq, Nat.add_zero] at hq ⊢
    exact hq

/-- **A node with one owner dies** and gives up what it uses. -/
theorem OwnedBy.setOwners_zero {pending : Multiset Nat} (ho : h.OwnedBy (held + r ::ₘ pending)) (hr : r < h.owners.size)
    (hone : h.owners[r] = 1) :
    (h.setOwners r 0 hr).OwnedBy (held + (h.graph.inputs r + pending)) ∧
      h.living = r ::ₘ (h.setOwners r 0 hr).living := by
  have hown := ownersOf_of_lt hr
  have halive : r ∈ h.living := by
    rw [Heap.mem_living]
    omega
  have hl : (h.setOwners r 0 hr).living = h.living.erase r := by
    rw [h.nodup_living.erase_eq_filter, living, living, Multiset.filter_filter]
    refine Multiset.filter_congr fun q _ => ?_
    rw [isAlive, ownersOf_setOwners]
    by_cases hq : q = r
    · subst hq; simp
    · simp [hq, isAlive]
  have hcons : h.living = r ::ₘ (h.setOwners r 0 hr).living := by rw [hl, Multiset.cons_erase halive]
  have hslots : h.slots = h.graph.inputs r + (h.setOwners r 0 hr).slots := by
    rw [slots, hcons, Multiset.cons_bind]
    rfl
  refine ⟨fun q => ?_, hcons⟩
  have hq := ho q
  rw [hslots] at hq
  rw [ownersOf_setOwners]
  simp only [Multiset.count_add, Multiset.count_cons] at hq ⊢
  by_cases heq : q = r
  · subst heq
    simp only [if_pos] at hq ⊢
    omega
  · simp only [if_neg heq, Nat.add_zero] at hq ⊢
    omega

/-- **Giving up owners**: the graph stays, the held handles own what is left, and the dead are those that lived before
and live no longer. -/
theorem giveUp_spec (h : Heap) (pending freed : List Nat) (ho : h.OwnedBy (held + pending)) :
    (h.giveUp pending freed).1.graph = h.graph ∧ (h.giveUp pending freed).1.OwnedBy held ∧
      ∃ dead : List Nat, (h.giveUp pending freed).2 = freed.reverse ++ dead ∧
        h.living = dead + (h.giveUp pending freed).1.living := by
  fun_induction giveUp h pending freed with
  | case1 h freed => exact ⟨rfl, by simpa using ho, [], by simp, by simp⟩
  | case2 h freed r rest hr hzero ih =>
    -- a node that is still to be given up has an owner
    have hq := ho r
    rw [ownersOf_of_lt hr, hzero, ← Multiset.cons_coe] at hq
    simp only [Multiset.count_add, Multiset.count_cons_self] at hq
    omega
  | case3 h freed r rest hr hzero hone ih =>
    rw [← Multiset.cons_coe] at ho
    obtain ⟨hown, hliving⟩ := ho.setOwners_zero hr hone
    obtain ⟨hg, ho', dead, hfreed, hdead⟩ := ih (by rwa [← Multiset.coe_add, Multiset.coe_reverse])
    exact ⟨hg, ho', r :: dead, by simp [hfreed], by rw [hliving, hdead, ← Multiset.cons_coe, Multiset.cons_add]⟩
  | case4 h freed r rest hr hzero hone ih =>
    rw [← Multiset.cons_coe] at ho
    obtain ⟨hown, hliving⟩ := ho.setOwners_pred hr (by omega)
    obtain ⟨hg, ho', dead, hfreed, hdead⟩ := ih hown
    exact ⟨hg, ho', dead, hfreed, by rw [← hdead, hliving]⟩
  | case5 h freed r rest hr ih =>
    have hq := ho r
    rw [ownersOf_eq_zero (by rw [← h.owners_size]; omega), ← Multiset.cons_coe] at hq
    simp only [Multiset.count_add, Multiset.count_cons_self] at hq
    omega

theorem OwnedBy.release (ho : h.OwnedBy held) (hr : r ∈ held) :
    (h.release r).1.graph = h.graph ∧ (h.release r).1.OwnedBy (held.erase r) ∧
      h.living = ((h.release r).2 : Multiset Nat) + (h.release r).1.living := by
  have ho' : h.OwnedBy (held.erase r + [r]) := by
    rwa [Multiset.coe_singleton, Multiset.add_comm, Multiset.singleton_add, Multiset.cons_erase hr]
  obtain ⟨hg, hown, dead, hfreed, hliving⟩ := giveUp_spec h [r] [] ho'
  exact ⟨hg, hown, by rw [Heap.release, hfreed, hliving]; rfl⟩

end Heap
end MatrixPlan
