import Mathlib.Algebra.BigOperators.Group.Finset.Basic
import MatrixPlan.Number.Natural
import MatrixPlan.Workspace.Registry
/-!
# Tally — a registry as a collection of operation names

A registry stands for the operations of the nodes it counts, each as often as it is counted (`Registry.Tallies`).
Entering a node adds its operation and leaving takes one away; leaving an operation that is in the collection finds an
entry to lower and a total above zero.
-/
namespace MatrixPlan
namespace Registry

/-- **A registry counts a collection of operations.** -/
structure Tallies (r : Registry) (ops : Multiset String) : Prop where
  registered : r.registered = ops.card
  perOperation : ∀ op, r.perOperation[op]? = if op ∈ ops then some (ops.count op) else none

variable {r : Registry} {ops : Multiset String} {op : String}

theorem tallies_empty : Tallies {} 0 where
  registered := rfl
  perOperation := by simp

theorem Tallies.countOf (h : r.Tallies ops) (op : String) : r.countOf op = ops.count op := by
  rw [Registry.countOf, Std.HashMap.getD_eq_getD_getElem?, h.perOperation op]
  split
  · rfl
  · rename_i hop
    rw [Option.getD_none, Multiset.count_eq_zero_of_notMem hop]

theorem Tallies.enter (h : r.Tallies ops) (op : String) : (r.enter op).Tallies (op ::ₘ ops) where
  registered := by rw [Registry.enter, h.registered, Multiset.card_cons]
  perOperation q := by
    rw [Registry.enter, Std.HashMap.getElem?_insert, h.countOf, h.perOperation q]
    by_cases hq : q = op
    · subst hq
      simp
    · have hne : (op == q) = false := beq_eq_false_iff_ne.2 fun heq => hq heq.symm
      simp [hne, hq, Multiset.count_cons_of_ne hq]

/-- **A release of a counted operation finds it**: the total is above zero and there is an entry above zero. -/
theorem Tallies.counted (h : r.Tallies ops) (hop : op ∈ ops) :
    0 < r.registered ∧ ∃ k, r.perOperation[op]? = some (k + 1) := by
  have hpos := Multiset.count_pos.2 hop
  refine ⟨?_, ops.count op - 1, ?_⟩
  · rw [h.registered]
    exact Multiset.card_pos.2 fun h0 => by simp [h0] at hop
  · rw [h.perOperation op, if_pos hop, Nat.sub_add_cancel hpos]

theorem Tallies.leave (h : r.Tallies ops) (hop : op ∈ ops) : (r.leave op).Tallies (ops.erase op) where
  registered := by rw [Registry.leave, h.registered, Multiset.card_erase_of_mem hop]; rfl
  perOperation q := by
    have hself : (ops.erase op).count op = ops.count op - 1 := Multiset.count_erase_self op ops
    have hmem : op ∈ ops.erase op ↔ ops.count op - 1 ≠ 0 := by rw [← Multiset.count_ne_zero, hself]
    have hother : ∀ p, p ≠ op → (p ∈ ops.erase op ↔ p ∈ ops) := fun p hp => Multiset.mem_erase_of_ne hp
    simp only [Registry.leave, h.perOperation op, if_pos hop]
    by_cases hq : q = op
    · subst hq
      split
      · rename_i h0
        rw [Std.HashMap.getElem?_erase_self, if_neg (by rw [hmem]; simp [h0])]
      · rename_i h0
        rw [Std.HashMap.getElem?_insert_self, if_pos (hmem.2 h0), hself]
    · have hne : (op == q) = false := beq_eq_false_iff_ne.2 fun heq => hq heq.symm
      split
      · simp [Std.HashMap.getElem?_erase, hne, h.perOperation q, hother q hq, Multiset.count_erase_of_ne hq]
      · simp [Std.HashMap.getElem?_insert, hne, h.perOperation q, hother q hq, Multiset.count_erase_of_ne hq]

/-- **The counts by operation add up to the total.** -/
theorem Tallies.sum_perOperation (h : r.Tallies ops) : (r.perOperation.toList.map (·.2)).sum = r.registered := by
  have hnodup : (r.perOperation.toList.map (·.1)).Nodup := by
    rw [Std.HashMap.map_fst_toList_eq_keys]
    exact Std.HashMap.nodup_keys
  have hcount : r.perOperation.toList.map (·.2) = (r.perOperation.toList.map (·.1)).map fun op => ops.count op := by
    rw [List.map_map]
    refine List.map_congr_left fun p hp => ?_
    have := Std.HashMap.mem_toList_iff_getElem?_eq_some.1 hp
    rw [h.perOperation p.1] at this
    split at this
    · simpa using this.symm
    · cases this
  have hkeys : (r.perOperation.toList.map (·.1)).toFinset = ops.toFinset := by
    ext q
    rw [List.mem_toFinset, Multiset.mem_toFinset, List.mem_map]
    constructor
    · rintro ⟨p, hp, rfl⟩
      have := Std.HashMap.mem_toList_iff_getElem?_eq_some.1 hp
      rw [h.perOperation p.1] at this
      by_contra hnot
      rw [if_neg hnot] at this
      cases this
    · intro hq
      exact ⟨(q, ops.count q), Std.HashMap.mem_toList_iff_getElem?_eq_some.2 (by rw [h.perOperation q, if_pos hq]), rfl⟩
  rw [hcount, ← List.sum_toFinset _ hnodup, hkeys, Multiset.toFinset_sum_count_eq, h.registered]

end Registry
end MatrixPlan
