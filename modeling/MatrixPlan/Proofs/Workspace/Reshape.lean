import MatrixPlan.Proofs.Workspace.Agreement
/-!
# Reshape — the shapes that a matrix can be given

A matrix of known shape can be given another shape of as many cells.  Exact metadata and validation both look at counts
that stop at the largest word, so they also let pass, and cannot tell from an equal count, a shape where neither count
fits a word.  They never reject a shape of as many cells.
-/
namespace MatrixPlan

/-- **A word cannot tell the counts of two shapes apart**: they are equal, or neither is below the largest word. -/
def SameCount (r c rows cols : UInt64) : Prop :=
  r.toNat * c.toNat = rows.toNat * cols.toNat ∨ maxCount ≤ r.toNat * c.toNat ∧ maxCount ≤ rows.toNat * cols.toNat

variable {r c rows cols : UInt64}

/-- Counts are equal where one of them is below the largest word. -/
theorem sameCount_iff_of_lt (h : r.toNat * c.toNat < maxCount ∨ rows.toNat * cols.toNat < maxCount) :
    SameCount r c rows cols ↔ r.toNat * c.toNat = rows.toNat * cols.toNat := by
  refine ⟨fun hs => ?_, .inl⟩
  rcases hs with heq | ⟨hfrom, hto⟩
  · exact heq
  · omega

theorem satMul_eq_satMul_iff : satMul r c = satMul rows cols ↔ SameCount r c rows cols := by
  rw [← UInt64.toNat_inj, toNat_satMul, toNat_satMul, SameCount]
  omega

namespace Metadata

variable {m : Metadata}

/-- **Exact metadata is given to a shape of the same count**, with the non-zero cells that there were. -/
theorem exactMetadata_reshape (hr : m.rows = some r) (hc : m.cols = some c) (h : SameCount r c rows cols) :
    exactMetadata (.reshape rows cols) m none = .ok ⟨some rows, some cols, m.nnz⟩ := by
  change m.reshape rows cols = _
  unfold reshape
  rw [cells_of_shape hr hc]
  exact if_pos (satMul_eq_satMul_iff.2 h)

theorem exactMetadata_reshape_error (hr : m.rows = some r) (hc : m.cols = some c) (h : ¬SameCount r c rows cols) :
    exactMetadata (.reshape rows cols) m none =
      .error (.incompatible (.reshape rows cols) (.reshapeTo (satMul r c) rows cols)) := by
  change m.reshape rows cols = _
  unfold reshape
  rw [cells_of_shape hr hc]
  exact if_neg fun heq => h (satMul_eq_satMul_iff.1 heq)

end Metadata

namespace Application

variable {g g' : Graph} {case : Estimator} {a : Nat} {x n : Node}

/-- **The node of a reshaped matrix breaks no rule of shapes for the same count**, in any graph that has the matrix. -/
theorem shapeFault?_reshape_of_shape (hn : n.toNodeSpec = (reshape a rows cols).spec g case) (ha : g.node? a = some x)
    (ha' : g'.node? a = some x) (hr : x.metadata.rows = some r) (hc : x.metadata.cols = some c) :
    (SameCount r c rows cols → g'.shapeFault? n.toNodeSpec = none) ∧
      (¬SameCount r c rows cols →
        g'.shapeFault? n.toNodeSpec = some (.cellCounts (satMul r c) (satMul rows cols))) := by
  rw [shapeFault?_reshape hn ha ha', Metadata.cells_of_shape hr hc, Option.bind_some]
  exact ⟨fun h => if_pos (satMul_eq_satMul_iff.2 h), fun h => if_neg fun heq => h (satMul_eq_satMul_iff.1 heq)⟩

end Application

namespace Workspace

variable {w : Workspace} {held : Multiset Nat} {permit : Workspace → Nat → NodeSpec → Prop}

/-- **What becomes of a matrix `x` of shape `r` by `c` that is reshaped**: exact metadata is given to it, and its node
`n` keeps the rule of shapes in each graph that has the matrix, exactly if the counts are the same. -/
structure ReshapedBy (a : Nat) (x n : Node) (r c rows cols : UInt64) : Prop where
  accepted : (∃ m, exactMetadata (.reshape rows cols) x.metadata none = .ok m) ↔ SameCount r c rows cols
  given : SameCount r c rows cols →
    exactMetadata (.reshape rows cols) x.metadata none = .ok ⟨some rows, some cols, x.metadata.nnz⟩
  kept : ∀ g : Graph, g.node? a = some x → (g.shapeFault? n.toNodeSpec = none ↔ SameCount r c rows cols)
  /-- The new shape, also of a node that will be rejected. -/
  shape : n.metadata.rows = some rows ∧ n.metadata.cols = some cols

/-- **A matrix of known shape can be given each shape of as many cells, and, where one of the counts is below the
largest word, no other**: exact metadata and validation agree on what they accept. -/
theorem Reachable.reshapes_same_count (h : Reachable permit w held) {a : Nat} {x : Node} (ha : w.node? a = some x)
    {r c : UInt64} (hr : x.metadata.rows = some r) (hc : x.metadata.cols = some c) (rows cols : UInt64) :
    ∃ n, (w.apply (.reshape a rows cols)).2.node? (w.apply (.reshape a rows cols)).1 = some n ∧
      (w.apply (.reshape a rows cols)).2.node? a = some x ∧
      ReshapedBy a x n r c rows cols ∧
      (r.toNat * c.toNat = rows.toNat * cols.toNat → SameCount r c rows cols) ∧
      (r.toNat * c.toNat < maxCount ∨ rows.toNat * cols.toNat < maxCount →
        (SameCount r c rows cols ↔ r.toNat * c.toNat = rows.toNat * cols.toNat)) := by
  have hlt : a < w.graph.size := Graph.lt_of_node? ha
  have hops : ∀ i ∈ (Application.reshape a rows cols).operands, i < w.graph.size := by
    simp [Application.operands, hlt]
  obtain ⟨own, n, hn, hspec, hold⟩ := h.sound.apply_node hops
  refine ⟨n, hn, (hold a hlt).trans ha, ⟨⟨?_, ?_⟩, ?_, fun g hg => ⟨?_, ?_⟩, ?_⟩, .inl, sameCount_iff_of_lt⟩
  · rintro ⟨m, hm⟩
    by_contra hne
    cases hm.symm.trans (Metadata.exactMetadata_reshape_error hr hc hne)
  · exact fun hs => ⟨_, Metadata.exactMetadata_reshape hr hc hs⟩
  · exact Metadata.exactMetadata_reshape hr hc
  · intro hnone
    by_contra hne
    cases hnone.symm.trans ((Application.shapeFault?_reshape_of_shape hspec ha hg hr hc).2 hne)
  · exact (Application.shapeFault?_reshape_of_shape hspec ha hg hr hc).1
  · rw [Application.metadata_reshape hspec ha]
    exact own.shape_reshapeTo x.metadata rows cols

/-- A matrix of as many rows and columns as given. -/
def square (extent : UInt64) : Workspace :=
  ((({} : Workspace).addContext ⟨Uuid.ofNat 0⟩ 0 {}).2.addSource 0 (.read "a" (.ofShape extent extent))).2

theorem reachable_square (extent : UInt64) : ∃ held, Reachable offered (square extent) held :=
  have h : Reachable offered _ _ := .single (.context _ _ ⟨Uuid.ofNat 0⟩ 0 {})
  ⟨_, h.addSource (by decide) (.read "a" (.ofShape extent extent))⟩

theorem node?_square (extent : UInt64) : ∃ x, (square extent).node? 0 = some x ∧
    x.metadata = .ofShape extent extent := ⟨_, rfl, rfl⟩

/-- Six rows of six become four of nine, and not five of seven. -/
theorem reshapes_same_count_square : ∃ x n n', (square 6).node? 0 = some x ∧
    ((square 6).apply (.reshape 0 4 9)).2.node? ((square 6).apply (.reshape 0 4 9)).1 = some n ∧
    ((square 6).apply (.reshape 0 4 9)).2.graph.shapeFault? n.toNodeSpec = none ∧
    exactMetadata (.reshape 4 9) x.metadata none = .ok (.ofShape 4 9) ∧
    ((square 6).apply (.reshape 0 5 7)).2.node? ((square 6).apply (.reshape 0 5 7)).1 = some n' ∧
    ((square 6).apply (.reshape 0 5 7)).2.graph.shapeFault? n'.toNodeSpec ≠ none ∧
    ∀ m, exactMetadata (.reshape 5 7) x.metadata none ≠ .ok m := by
  obtain ⟨held, h⟩ := reachable_square 6
  obtain ⟨x, hx, hm⟩ := node?_square 6
  have hr : x.metadata.rows = some 6 := by rw [hm]; rfl
  have hc : x.metadata.cols = some 6 := by rw [hm]; rfl
  obtain ⟨n, hn, ha, hrule, hsame, -⟩ := h.reshapes_same_count hx hr hc 4 9
  obtain ⟨n', hn', ha', hrule', -, hfits⟩ := h.reshapes_same_count hx hr hc 5 7
  have hother : ¬SameCount 6 6 5 7 := fun hs => absurd ((hfits (.inl (by decide))).1 hs) (by decide)
  refine ⟨x, n, n', hx, hn, (hrule.kept _ ha).2 (hsame (by decide)), ?_, hn', ?_, ?_⟩
  · rw [hrule.given (hsame (by decide)), hm]
    rfl
  · exact fun hnone => hother ((hrule'.kept _ ha').1 hnone)
  · exact fun m hok => hother (hrule'.accepted.1 ⟨m, hok⟩)

/-- **Of more cells than a word can count, a matrix can be given another number**: `2 ^ 66` of them become `2 ^ 68`. -/
theorem reshape_accepts_other_count : (∃ held, Reachable offered (square 8589934592) held) ∧
    ∃ x n, (square 8589934592).node? 0 = some x ∧ x.metadata = .ofShape 8589934592 8589934592 ∧
      ((square 8589934592).apply (.reshape 0 17179869184 17179869184)).2.node? 1 = some n ∧
      exactMetadata (.reshape 17179869184 17179869184) x.metadata none = .ok (.ofShape 17179869184 17179869184) ∧
      ((square 8589934592).apply (.reshape 0 17179869184 17179869184)).2.graph.shapeFault? n.toNodeSpec = none ∧
      (8589934592 : UInt64).toNat * (8589934592 : UInt64).toNat ≠
        (17179869184 : UInt64).toNat * (17179869184 : UInt64).toNat := by
  refine ⟨reachable_square _, _, _, rfl, rfl, rfl, ?_, ?_, by decide⟩
  · exact Metadata.exactMetadata_reshape rfl rfl (.inr (by decide))
  · decide

end Workspace
end MatrixPlan
