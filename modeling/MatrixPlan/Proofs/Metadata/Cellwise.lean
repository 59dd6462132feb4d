import MatrixPlan.Proofs.Matrix.Grid
import MatrixPlan.Proofs.Matrix.Product
import MatrixPlan.Proofs.Metadata.Given
/-!
# Cellwise — exact metadata is that of the cells

Metadata counts a grid when it knows the grid's extents and its number of non-zero cells.  The rules of `exactMetadata`
keep this: from metadata that counts the operands they make metadata that counts what the operation does cell by cell.
The diagonal of a square matrix alone has a bound in place of a count.
-/
namespace MatrixPlan

/-- **Metadata counts a grid** when it knows its extents and its number of non-zero cells. -/
structure Metadata.Counts (m : Metadata) (x : Grid) : Prop extends m.Gives ⟨x.rows, x.cols⟩ where
  nnz : m.nnz.map UInt64.toNat = some x.nonzeros

/-- **Metadata bounds a grid** when it knows its extents and a number that its non-zero cells do not exceed. -/
structure Metadata.Bounds (m : Metadata) (x : Grid) : Prop extends m.Gives ⟨x.rows, x.cols⟩ where
  nnz : ∃ k, m.nnz = some k ∧ x.nonzeros ≤ k.toNat

/-- What an operation does cell by cell, to operands that it is for. -/
def Operation.onGrids? (op : Operation) (x : Grid) (right : Option Grid) : Option Grid :=
  match op, right with
  | .eqZero, none => some x.eqZero
  | .neqZero, none => some x.neqZero
  | .transpose, none => some x.transpose
  | .diag, none => if x.cols = 1 ∨ x.rows = x.cols then some x.diag else none
  | .reshape rows cols, none =>
    if x.rows * x.cols = rows.toNat * cols.toNat then some (x.reshape rows.toNat cols.toNat) else none
  | .cbind, some y => if x.rows = y.rows then some (x.cbind y) else none
  | .rbind, some y => if x.cols = y.cols then some (x.rbind y) else none
  | _, _ => none

namespace Metadata

variable {m a b : Metadata} {x y : Grid} {i j k : UInt64}

theorem counts_exact (hi : i.toNat = x.rows) (hj : j.toNat = x.cols) (hk : k.toNat = x.nonzeros) :
    (exact i j k).Counts x where
  rows := congrArg some hi
  cols := congrArg some hj
  nnz := congrArg some hk

theorem counts_dense (d : Dense) : d.metadata.Counts d.grid := counts_exact rfl rfl d.nonzeros_grid.symm

namespace Counts

theorem exists_exact (h : m.Counts x) :
    ∃ i j k, m = exact i j k ∧ i.toNat = x.rows ∧ j.toNat = x.cols ∧ k.toNat = x.nonzeros := by
  obtain ⟨i, j, hi, hj, hr, hc⟩ := h.toGives.extents
  obtain ⟨k, hk, hn⟩ := Option.map_eq_some_iff.1 h.nnz
  obtain ⟨rows, cols, nnz⟩ := m
  cases hi
  cases hj
  cases hk
  exact ⟨i, j, k, rfl, hr, hc, hn⟩

theorem bounds (h : m.Counts x) : m.Bounds x where
  toGives := h.toGives
  nnz := by
    obtain ⟨k, hk, hn⟩ := Option.map_eq_some_iff.1 h.nnz
    exact ⟨k, hk, Nat.le_of_eq hn.symm⟩

/-- **Metadata that counts a grid is that of its cells written out.** -/
theorem eq_metadata (h : m.Counts x) {d : Dense} (hd : d.grid.Agrees x) : m = d.metadata := by
  obtain ⟨i, j, k, rfl, hi, hj, hk⟩ := h.exists_exact
  have hrows : i = d.rows := UInt64.toNat_inj.1 (hi.trans hd.rows.symm)
  have hcols : j = d.cols := UInt64.toNat_inj.1 (hj.trans hd.cols.symm)
  have hnnz : k = d.nnz := UInt64.toNat_inj.1 (by rw [hk, ← hd.nonzeros, d.nonzeros_grid])
  rw [hrows, hcols, hnnz]
  rfl

theorem eqZero (h : m.Counts x) (hlt : x.rows * x.cols < 2 ^ 64) : m.eqZero.Counts x.eqZero := by
  obtain ⟨i, j, k, rfl, hi, hj, hk⟩ := h.exists_exact
  refine counts_exact hi hj ?_
  rw [← hi, ← hj] at hlt
  rw [toNat_satSub, toNat_satMul_of_lt hlt, hi, hj, hk, ← x.nonzeros_eqZero_add, Nat.add_sub_cancel]

theorem neqZero (h : m.Counts x) : m.Counts x.neqZero := by
  obtain ⟨i, j, k, rfl, hi, hj, hk⟩ := h.exists_exact
  exact counts_exact hi hj (by rw [x.nonzeros_neqZero, hk])

theorem transpose (h : m.Counts x) : m.transpose.Counts x.transpose := by
  obtain ⟨i, j, k, rfl, hi, hj, hk⟩ := h.exists_exact
  exact counts_exact hj hi (by rw [x.nonzeros_transpose, hk])

theorem diag_column (h : m.Counts x) (hx : x.cols = 1) : m.diag.Counts x.diag := by
  obtain ⟨i, j, k, rfl, hi, hj, hk⟩ := h.exists_exact
  have hone : j = 1 := UInt64.toNat_inj.1 (hj.trans hx)
  have hdiag : (exact i j k).diag = exact i i k := if_pos hone
  have hgrid : x.diag.rows = x.rows ∧ x.diag.cols = x.rows := by
    rw [Grid.diag, if_pos hx]
    exact ⟨rfl, rfl⟩
  rw [hdiag]
  exact counts_exact (hi.trans hgrid.1.symm) (hi.trans hgrid.2.symm) (by rw [Grid.nonzeros_diag_column hx, hk])

/-- **The diagonal of a square** is bounded by its length and by the non-zero cells of the square; without cells it is
counted. -/
theorem diag_square (h : m.Counts x) (hsquare : x.rows = x.cols) (hx : x.cols ≠ 1) :
    m.diag.Bounds x.diag ∧ (x.cols = 0 → m.diag.Counts x.diag) := by
  obtain ⟨i, j, k, rfl, hi, hj, hk⟩ := h.exists_exact
  have hone : ¬ j = 1 := fun hj' => hx (by rw [← hj, hj']; rfl)
  have hdiag : (exact i j k).diag = exact i 1 (min i k) := if_neg hone
  have hgrid : x.diag.rows = x.rows ∧ x.diag.cols = 1 := by
    rw [Grid.diag, if_neg hx]
    exact ⟨rfl, rfl⟩
  have hmin : (min i k).toNat = min x.rows x.nonzeros := by
    rw [← hi, ← hk]
    exact UInt64.toNat_min i k
  have hle : x.diag.nonzeros ≤ (min i k).toNat := hmin ▸ Grid.nonzeros_diag_le hsquare hx
  rw [hdiag]
  refine ⟨⟨⟨congrArg some (hi.trans hgrid.1.symm), congrArg some hgrid.2.symm⟩, _, rfl, hle⟩, fun hzero => ?_⟩
  exact counts_exact (hi.trans hgrid.1.symm) hgrid.2.symm (by omega)

theorem cbind (ha : a.Counts x) (hb : b.Counts y) (hxy : x.rows = y.rows) (hcols : x.cols + y.cols < 2 ^ 64)
    (hnnz : x.nonzeros + y.nonzeros < 2 ^ 64) : (a.cbind b).Counts (x.cbind y) := by
  obtain ⟨i, j, k, rfl, hi, hj, hk⟩ := ha.exists_exact
  obtain ⟨i', j', k', rfl, -, hj', hk'⟩ := hb.exists_exact
  refine counts_exact (j := satAdd j j') (k := satAdd k k') hi ?_ ?_
  · rw [toNat_satAdd_of_lt (by rwa [hj, hj']), hj, hj']
    rfl
  · rw [toNat_satAdd_of_lt (by rwa [hk, hk']), hk, hk', Grid.nonzeros_cbind hxy]

theorem rbind (ha : a.Counts x) (hb : b.Counts y) (hxy : x.cols = y.cols) (hrows : x.rows + y.rows < 2 ^ 64)
    (hnnz : x.nonzeros + y.nonzeros < 2 ^ 64) : (a.rbind b).Counts (x.rbind y) := by
  obtain ⟨i, j, k, rfl, hi, hj, hk⟩ := ha.exists_exact
  obtain ⟨i', j', k', rfl, hi', -, hk'⟩ := hb.exists_exact
  refine counts_exact (i := satAdd i i') (k := satAdd k k') ?_ hj ?_
  · rw [toNat_satAdd_of_lt (by rwa [hi, hi']), hi, hi']
    rfl
  · rw [toNat_satAdd_of_lt (by rwa [hk, hk']), hk, hk', Grid.nonzeros_rbind hxy]

theorem reshape (h : m.Counts x) {rows cols : UInt64} (hcells : x.rows * x.cols = rows.toNat * cols.toNat) :
    ∃ m', m.reshape rows cols = .ok m' ∧ m'.Counts (x.reshape rows.toNat cols.toNat) := by
  obtain ⟨i, j, k, rfl, hi, hj, hk⟩ := h.exists_exact
  have hsat : satMul i j = satMul rows cols := by
    rw [← UInt64.toNat_inj, toNat_satMul, toNat_satMul, hi, hj, hcells]
  exact ⟨exact rows cols k, if_pos hsat, counts_exact rfl rfl (by rw [Grid.nonzeros_reshape hcells, hk])⟩

end Counts
end Metadata

/-- The cells of a dense matrix are fewer than `2^63`, so those of two of them can be counted in a word. -/
theorem Dense.cells_grid_lt (d : Dense) : d.grid.rows * d.grid.cols < 2 ^ 63 := by
  have hlt := d.size_lt
  rwa [d.size_eq_mul] at hlt

theorem Dense.nonzeros_grid_lt (d : Dense) : d.grid.nonzeros < 2 ^ 63 :=
  Nat.lt_of_le_of_lt d.grid.nonzeros_le d.cells_grid_lt

/-- **Exact metadata is that of the cells.**  Whatever an operation makes of the cells of dense matrices, if the extents
fit in a word then the rules answer with the extents of the result and with its number of non-zero cells, which is the
metadata of the result where it is written out; for the diagonal of a square of several columns the number is a bound.
A cell is zero when it is one of the two zeros. -/
theorem exactMetadata_cellwise {op : Operation} {a : Dense} {right : Option Dense} {z : Grid}
    (hz : op.onGrids? a.grid (right.map Dense.grid) = some z) (hrows : z.rows < 2 ^ 64) (hcols : z.cols < 2 ^ 64) :
    ∃ m, exactMetadata op a.metadata (right.map Dense.metadata) = .ok m ∧ m.Bounds z ∧
      (op ≠ .diag ∨ a.cols ≤ 1 → m.Counts z ∧ ∀ d : Dense, d.grid.Agrees z → m = d.metadata) := by
  have ha := Metadata.counts_dense a
  have hcells := a.cells_grid_lt
  have hexact : ∀ {m : Metadata}, m.Counts z → m.Counts z ∧ ∀ d : Dense, d.grid.Agrees z → m = d.metadata :=
    fun h => ⟨h, fun _ hd => h.eq_metadata hd⟩
  -- one operand leaves what is unary, two leave what binds
  cases right with
  | none =>
    cases op with
    | eqZero =>
      cases hz
      have h := ha.eqZero (by omega)
      exact ⟨_, rfl, h.bounds, fun _ => hexact h⟩
    | neqZero =>
      cases hz
      exact ⟨_, rfl, ha.neqZero.bounds, fun _ => hexact ha.neqZero⟩
    | transpose =>
      cases hz
      exact ⟨_, rfl, ha.transpose.bounds, fun _ => hexact ha.transpose⟩
    | reshape rows cols =>
      obtain ⟨heq, hz⟩ := Option.ite_none_right_eq_some.1 hz
      cases hz
      obtain ⟨m, hm, h⟩ := ha.reshape heq
      exact ⟨m, hm, h.bounds, fun _ => hexact h⟩
    | diag =>
      obtain ⟨hshape, hz⟩ := Option.ite_none_right_eq_some.1 hz
      cases hz
      by_cases hone : a.grid.cols = 1
      · have h := ha.diag_column hone
        exact ⟨_, rfl, h.bounds, fun _ => hexact h⟩
      · obtain ⟨hbounds, hempty⟩ := ha.diag_square (hshape.resolve_left hone) hone
        refine ⟨_, rfl, hbounds, fun hsmall => hexact (hempty ?_)⟩
        have hle : a.grid.cols ≤ 1 := UInt64.le_iff_toNat_le.1 (hsmall.resolve_left fun h => h rfl)
        omega
    | product | times | plus | cbind | rbind => cases hz
  | some b =>
    have hb := Metadata.counts_dense b
    have hnnz : a.grid.nonzeros + b.grid.nonzeros < 2 ^ 64 := by
      have := a.nonzeros_grid_lt
      have := b.nonzeros_grid_lt
      omega
    cases op with
    | cbind =>
      obtain ⟨heq, hz⟩ := Option.ite_none_right_eq_some.1 hz
      cases hz
      have h := ha.cbind hb heq hcols hnnz
      exact ⟨_, rfl, h.bounds, fun _ => hexact h⟩
    | rbind =>
      obtain ⟨heq, hz⟩ := Option.ite_none_right_eq_some.1 hz
      cases hz
      have h := ha.rbind hb heq hrows hnnz
      exact ⟨_, rfl, h.bounds, fun _ => hexact h⟩
    | product | times | plus | eqZero | neqZero | diag | transpose | reshape rows cols => cases hz

open BitMatrix (mixed) in
/-- What is no number is not zero, minus zero is. -/
theorem exactMetadata_cellwise_mixed : mixed.grid.eqZero.nonzeros = 2 ∧ mixed.grid.diag.nonzeros ≤ 2 ∧
    (mixed.grid.cbind mixed.grid).nonzeros = 4 := by
  obtain ⟨m, hm, -, hzeros⟩ := @exactMetadata_cellwise .eqZero mixed none _ rfl (by decide) (by decide)
  obtain ⟨m', hm', hdiag, -⟩ := @exactMetadata_cellwise .diag mixed none _ rfl (by decide) (by decide)
  obtain ⟨m'', hm'', -, hboth⟩ := @exactMetadata_cellwise .cbind mixed (some mixed) _ rfl (by decide) (by decide)
  cases hm
  cases hm'
  cases hm''
  obtain ⟨k, hk, hle⟩ := hdiag.nnz
  cases hk
  exact ⟨Option.some.inj (hzeros (.inl Operation.noConfusion)).1.nnz.symm, hle,
    Option.some.inj (hboth (.inl Operation.noConfusion)).1.nnz.symm⟩

end MatrixPlan
