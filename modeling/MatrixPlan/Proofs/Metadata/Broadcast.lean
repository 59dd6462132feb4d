import Mathlib.Data.UInt
import MatrixPlan.Proofs.Metadata.Given
import MatrixPlan.Workspace.Submit
/-!
# Broadcast — the extents of cell-by-cell results

By the rule of broadcasting equal extents stay, and a side of extent one takes the other side's (`Broadcasts`).  An
estimate takes the greater extent.  For operands that combine this is the rule, but where an empty side meets a side of
extent one (`EmptyMeetsOne`): there the result has one row or column instead of none.  For the same reason an extent
of zero that is estimated from the left operand alone is not kept when the right one turns out to be one.
-/
namespace MatrixPlan

/-- **The rule of broadcasting in one dimension**: equal extents stay, and where exactly one side has extent one, the
other side's is taken. -/
def Broadcasts (x y z : Nat) : Prop := (x = y → z = x) ∧ (x = 1 → y ≠ 1 → z = y) ∧ (y = 1 → x ≠ 1 → z = x)

/-- An empty side meets a side of extent one. -/
def EmptyMeetsOne (x y : Nat) : Prop := (x = 0 ∧ y = 1) ∨ (x = 1 ∧ y = 0)

/-- **How an estimate treats one dimension** of operands with extents `x` and `y`, giving `z`.  Of the operands as far
as they are known, `right` is the right extent and `known` the one estimated. -/
structure EstimatesExtent (x y z : Nat) (right known : Option UInt64) : Prop where
  broadcasts : Broadcasts x y z ↔ ¬ EmptyMeetsOne x y
  emptyMeetsOne : EmptyMeetsOne x y → z = 1
  /-- What is known beforehand is kept, but for an empty left side whose right side is found to have extent one. -/
  kept : ∀ k, known = some k → (k.toNat = z ↔ ¬ (k = 0 ∧ right = none ∧ y = 1))

variable {x y : Nat}

theorem broadcasts_max_iff (x y : Nat) : Broadcasts x y (max x y) ↔ ¬ EmptyMeetsOne x y := by
  unfold Broadcasts EmptyMeetsOne
  omega

/-- **One dimension of an estimate**, made of all that there is to know of the operands, and of a part of it. -/
theorem estimatesExtent {p q p' q' : Option UInt64} (hp : Knows p x) (hq : Knows q y)
    (hp' : p'.map UInt64.toNat = some x) (hq' : q'.map UInt64.toNat = some y) (h : x = y ∨ x = 1 ∨ y = 1) :
    (broadcastExtent p' q').map UInt64.toNat = some (max x y) ∧
      EstimatesExtent x y (max x y) q (broadcastExtent p q) := by
  obtain ⟨i', rfl, hi'⟩ := Option.map_eq_some_iff.1 hp'
  obtain ⟨j', rfl, hj'⟩ := Option.map_eq_some_iff.1 hq'
  refine ⟨?_, broadcasts_max_iff x y, by unfold EmptyMeetsOne; omega, fun k hk => ?_⟩
  · rw [← hi', ← hj', ← UInt64.toNat_max]
    rfl
  · cases p with
    | none => cases hk
    | some i =>
      have hi := hp i rfl
      cases q with
      | some j =>
        have hj := hq j rfl
        cases hk
        rw [UInt64.toNat_max, hi, hj]
        simp
      | none =>
        by_cases hone : i = 1
        · simp [broadcastExtent, hone] at hk
        · have hik : i = k := by simpa [broadcastExtent, hone] using hk
          subst hik
          have hne : i.toNat ≠ 1 := fun heq => hone (UInt64.toNat_inj.1 heq)
          have hzero : i = 0 ↔ i.toNat = 0 := by rw [← UInt64.toNat_inj]; rfl
          rw [hzero]
          simp only [true_and]
          omega

/-- **An extent that is estimated from the left alone is kept exactly if the right one is found to be no greater.** -/
theorem broadcastExtent_kept_iff {i j k : UInt64} (h : broadcastExtent (some i) none = some k) :
    broadcastExtent (some i) (some j) = some k ↔ j ≤ k := by
  obtain ⟨-, rfl⟩ : i ≠ 1 ∧ i = k := by simpa [broadcastExtent] using h
  rw [broadcastExtent, Option.some_inj, ← UInt64.toNat_inj, UInt64.toNat_max, UInt64.le_iff_toNat_le]
  omega

/-- A greater one is accepted while another extent is unknown, since shapes are compared when all of both is known. -/
example : broadcastExtent (some 5) none = some 5 ∧ broadcastExtent (some 5) (some 7) = some 7 ∧
    elementwiseFault? ⟨some 5, none, none⟩ ⟨some 7, some 3, none⟩ = none := by decide

namespace Graph

/-- **A node combines its two operands cell by cell, and no known shape around it is at fault.** -/
structure Combines (g : Graph) (n : NodeSpec) (op : Operation) (a b : Metadata) : Prop where
  operation : (op = .plus ∧ n.operation = "+") ∨ (op = .times ∧ n.operation = "*")
  left : g.positional? n 0 = some a
  right : g.positional? n 1 = some b
  accepted : g.shapeFault? n = none

variable {g : Graph} {n : NodeSpec} {op : Operation} {a b a' b' : Metadata} {e f : Extents}

theorem Combines.fault?_eq_none (h : g.Combines n op a b) : elementwiseFault? a b = none := by
  have haccepted := h.accepted
  rcases h.operation with ⟨-, hop⟩ | ⟨-, hop⟩ <;>
    simpa [shapeFault?, hop, pairFault?, h.left, h.right] using haccepted

/-- The estimate of operands that are combined cell by cell. -/
theorem Combines.estimate (h : g.Combines n op a b) (case : Estimator) (left right : Metadata) :
    ∃ sparsity, case.estimate op left (some right) = .ok (elementwise left right sparsity) := by
  rcases h.operation with ⟨rfl, -⟩ | ⟨rfl, -⟩
  · exact ⟨_, rfl⟩
  · exact ⟨_, rfl⟩

/-- **Estimates broadcast, but for empty sides.**  Operands with known shapes that a node combines have an estimate,
whose extents follow the rule of broadcasting in each dimension exactly if no empty side meets a side of extent one
there; if one does, the extent is one.  What is estimated from a part of these extents is kept, but for a left extent of
zero whose right extent is not known yet and turns out to be one. -/
theorem Combines.broadcast_but_empty (h : g.Combines n op a' b') (case : Estimator) (ha' : a'.Gives e)
    (hb' : b'.Gives f) (ha : a.Describes e) (hb : b.Describes f) :
    ∃ (m m' : Metadata) (z : Extents), case.estimate op a (some b) = .ok m ∧
      case.estimate op a' (some b') = .ok m' ∧ m'.Gives z ∧
      EstimatesExtent e.rows f.rows z.rows b.rows m.rows ∧ EstimatesExtent e.cols f.cols z.cols b.cols m.cols := by
  have hcombines : e.Combines f := Decidable.byContradiction fun hnot =>
    ha'.elementwiseFault?_ne_none hb' hnot h.fault?_eq_none
  obtain ⟨s, hs⟩ := h.estimate case a b
  obtain ⟨s', hs'⟩ := h.estimate case a' b'
  obtain ⟨hrows, hrule⟩ := estimatesExtent ha.rows hb.rows ha'.rows hb'.rows hcombines.rows
  obtain ⟨hcols, hrule'⟩ := estimatesExtent ha.cols hb.cols ha'.cols hb'.cols hcombines.cols
  refine ⟨_, _, ⟨max e.rows f.rows, max e.cols f.cols⟩, hs, hs', ⟨?_, ?_⟩, ?_, ?_⟩
  · rw [elementwise_rows, hrows]
  · rw [elementwise_cols, hcols]
  · rwa [elementwise_rows]
  · rwa [elementwise_cols]

/-- A graph of two matrices with given metadata. -/
def ofOperands (a b : Metadata) : Graph :=
  let w : Workspace := (({} : Workspace).addContext ⟨Uuid.ofNat 0⟩ 0 {}).2
  let w := (w.addSource 0 (.read "a" a)).2
  (w.addSource 0 (.read "b" b)).2.graph

/-- A sum of the two matrices. -/
def sumOfOperands (m : Metadata) : NodeSpec := Application.operatorSpec "+" (.node 0) (.node 1) m

theorem combines_ofOperands (h : elementwiseFault? a b = none) (m : Metadata) :
    (ofOperands a b).Combines (sumOfOperands m) .plus a b where
  operation := .inl ⟨rfl, rfl⟩
  left := rfl
  right := rfl
  accepted := h

/-- A column and a row, of each of which one extent is known at first. -/
theorem broadcast_but_empty_outer :
    (ofOperands (.ofShape 3 1) (.ofShape 1 4)).Combines (sumOfOperands .unknown) .plus (.ofShape 3 1) (.ofShape 1 4) ∧
      ∃ m m', Estimator.average.estimate .plus ⟨some 3, none, none⟩ (some ⟨none, some 4, none⟩) = .ok m ∧
        Estimator.average.estimate .plus (.ofShape 3 1) (some (.ofShape 1 4)) = .ok m' ∧ m'.Gives ⟨3, 4⟩ ∧
        ∀ k, m.rows = some k → k.toNat = 3 := by
  have h : (ofOperands (.ofShape 3 1) (.ofShape 1 4)).Combines (sumOfOperands .unknown) .plus (.ofShape 3 1)
      (.ofShape 1 4) := combines_ofOperands rfl .unknown
  obtain ⟨m, m', ⟨rows, cols⟩, hm, hm', hgives, hrows, hcols⟩ := h.broadcast_but_empty .average
    (e := ⟨3, 1⟩) (f := ⟨1, 4⟩) (a := ⟨some 3, none, none⟩) (b := ⟨none, some 4, none⟩) ⟨rfl, rfl⟩ ⟨rfl, rfl⟩
    ⟨knows_some rfl, knows_none 1⟩ ⟨knows_none 1, knows_some rfl⟩
  have hthree : rows = 3 := (hrows.broadcasts.2 (by simp [EmptyMeetsOne])).2.2 rfl (by decide)
  have hfour : cols = 4 := (hcols.broadcasts.2 (by simp [EmptyMeetsOne])).2.1 rfl (by decide)
  subst hthree hfour
  refine ⟨h, m, m', hm, hm', hgives, fun k hk => (hrows.kept k hk).2 ?_⟩
  rintro ⟨rfl, -⟩
  cases hm
  cases hk

/-- **A matrix without rows and a row combine, and are estimated to have a row together**: the rule of broadcasting is
broken, and a number of rows that was estimated as zero has changed. -/
theorem broadcast_of_empty :
    (∃ g n, Combines g n .plus ⟨some 0, some 3, none⟩ ⟨some 1, some 3, none⟩) ∧ ¬ Broadcasts 0 1 1 ∧
      ∀ case : Estimator,
        case.estimate .plus ⟨some 0, some 3, none⟩ (some ⟨some 1, some 3, none⟩) = .ok ⟨some 1, some 3, none⟩ ∧
        case.estimate .plus ⟨some 0, some 3, none⟩ (some ⟨none, some 3, none⟩) = .ok ⟨some 0, some 3, none⟩ := by
  refine ⟨⟨_, _, combines_ofOperands rfl .unknown⟩, by unfold Broadcasts; decide, fun case => ?_⟩
  cases case <;> exact ⟨rfl, rfl⟩

end Graph
end MatrixPlan
