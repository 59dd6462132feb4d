import MatrixPlan.Graph.Rules
import MatrixPlan.Proofs.Metadata.Extents
/-!
# Given — metadata that knows a shape

Metadata that knows both extents decides every rule for shapes: operands that break one have a fault.  Apart from
products, every rule for metadata knows the result's extents when it knows the operands'.
-/
namespace MatrixPlan

/-- **Metadata gives a shape** when it knows both extents and they are those of the shape. -/
structure Metadata.Gives (m : Metadata) (e : Extents) : Prop where
  rows : m.rows.map UInt64.toNat = some e.rows
  cols : m.cols.map UInt64.toNat = some e.cols

namespace Metadata

variable {m a b : Metadata} {x y : Extents}

theorem hasShape_iff : m.hasShape = true ↔ m.rows.isSome = true ∧ m.cols.isSome = true := Bool.and_eq_true_iff

theorem Gives.describes (h : m.Gives x) : m.Describes x where
  rows k hk := by simpa [hk] using h.rows
  cols k hk := by simpa [hk] using h.cols

theorem Gives.hasShape (h : m.Gives x) : m.hasShape = true := by
  obtain ⟨i, hi, -⟩ := Option.map_eq_some_iff.1 h.rows
  obtain ⟨j, hj, -⟩ := Option.map_eq_some_iff.1 h.cols
  simp [hasShape_iff, hi, hj]

theorem Describes.gives (h : m.Describes x) (hs : m.hasShape = true) : m.Gives x := by
  obtain ⟨hr, hc⟩ := hasShape_iff.1 hs
  obtain ⟨i, hi⟩ := Option.isSome_iff_exists.1 hr
  obtain ⟨j, hj⟩ := Option.isSome_iff_exists.1 hc
  exact ⟨by rw [hi, Option.map_some, h.rows i hi], by rw [hj, Option.map_some, h.cols j hj]⟩

/-- The extents of metadata that gives a shape, as the rules read them. -/
theorem Gives.extents (h : m.Gives x) :
    ∃ i j, m.rows = some i ∧ m.cols = some j ∧ i.toNat = x.rows ∧ j.toNat = x.cols := by
  obtain ⟨i, hi, hr⟩ := Option.map_eq_some_iff.1 h.rows
  obtain ⟨j, hj, hc⟩ := Option.map_eq_some_iff.1 h.cols
  exact ⟨i, j, hi, hj, hr, hc⟩

theorem Gives.cells (h : m.Gives x) (hlt : x.cells < 2 ^ 64) : ∃ k, m.cells = some k ∧ k.toNat = x.cells := by
  obtain ⟨i, j, hi, hj, hr, hc⟩ := h.extents
  refine ⟨satMul i j, by simp [Metadata.cells, hi, hj], ?_⟩
  rw [Extents.cells, ← hr, ← hc] at hlt ⊢
  exact toNat_satMul_of_lt hlt

namespace Gives

variable (ha : a.Gives x) (hb : b.Gives y)
include ha hb

theorem productFault?_ne_none (hne : x.cols ≠ y.rows) : productFault? a b ≠ none := by
  obtain ⟨-, k, -, hk, -, hx⟩ := ha.extents
  obtain ⟨l, -, hl, -, hy, -⟩ := hb.extents
  simp only [productFault?, hk, hl]
  rw [if_neg fun heq => hne (by rw [← hx, ← hy, heq])]
  exact Option.some_ne_none _

theorem elementwiseFault?_ne_none (hne : ¬ x.Combines y) : elementwiseFault? a b ≠ none := by
  obtain ⟨ar, ac, har, hac, hxr, hxc⟩ := ha.extents
  obtain ⟨br, bc, hbr, hbc, hyr, hyc⟩ := hb.extents
  have hone : (1 : UInt64).toNat = 1 := rfl
  simp only [elementwiseFault?, har, hac, hbr, hbc]
  rw [if_neg fun hcomb => hne ?_]
  · exact Option.some_ne_none _
  · simp only [combines, Bool.or_eq_true, Bool.and_eq_true, beq_iff_eq, ← UInt64.toNat_inj, hone, hxr, hxc, hyr,
      hyc] at hcomb
    obtain ⟨xr, xc⟩ := x
    obtain ⟨yr, yc⟩ := y
    simp only [Extents.Combines, Extents.mk.injEq] at hcomb ⊢
    omega

theorem cbindFault?_ne_none (hne : x.rows ≠ y.rows) : cbindFault? a b ≠ none := by
  obtain ⟨k, -, hk, -, hx, -⟩ := ha.extents
  obtain ⟨l, -, hl, -, hy, -⟩ := hb.extents
  simp only [cbindFault?, hk, hl]
  rw [if_neg fun heq => hne (by rw [← hx, ← hy, heq])]
  exact Option.some_ne_none _

theorem rbindFault?_ne_none (hne : x.cols ≠ y.cols) : rbindFault? a b ≠ none := by
  obtain ⟨-, k, -, hk, -, hx⟩ := ha.extents
  obtain ⟨-, l, -, hl, -, hy⟩ := hb.extents
  simp only [rbindFault?, hk, hl]
  rw [if_neg fun heq => hne (by rw [← hx, ← hy, heq])]
  exact Option.some_ne_none _

theorem reshapeFault?_ne_none (hx : x.cells < 2 ^ 64) (hy : y.cells < 2 ^ 64) (hne : x.cells ≠ y.cells) :
    reshapeFault? a b ≠ none := by
  obtain ⟨k, hk, hkx⟩ := ha.cells hx
  obtain ⟨l, hl, hly⟩ := hb.cells hy
  simp only [reshapeFault?, hk, hl]
  rw [if_neg fun heq => hne (by rw [← hkx, ← hly, heq])]
  exact Option.some_ne_none _

/-- Labels and scores that do not break the rule are columns of one length. -/
theorem columnFault?_ne_none (hne : ¬ (x.cols = 1 ∧ y.cols = 1 ∧ x.rows = y.rows)) : columnFault? a b ≠ none := by
  obtain ⟨ar, ac, har, hac, hxr, hxc⟩ := ha.extents
  obtain ⟨br, bc, hbr, hbc, hyr, hyc⟩ := hb.extents
  unfold columnFault?
  split
  · exact Option.some_ne_none _
  · rename_i hY
    split
    · exact Option.some_ne_none _
    · rename_i hP
      have hxone : ac = 1 := by simpa [isColumn, hac] using hY
      have hyone : bc = 1 := by simpa [isColumn, hbc] using hP
      simp only [har, hbr]
      rw [if_neg fun heq => hne ⟨?_, ?_, ?_⟩]
      · exact Option.some_ne_none _
      · rw [← hxc, hxone]; rfl
      · rw [← hyc, hyone]; rfl
      · rw [← hxr, ← hyr, heq]

end Gives

/-! ### What the rules for metadata know of a result -/

theorem hasShape_elementwise (ha : a.hasShape = true) (hb : b.hasShape = true) (sparsity : Option Float) :
    (elementwise a b sparsity).hasShape = true := by
  obtain ⟨har, hac⟩ := hasShape_iff.1 ha
  obtain ⟨hbr, hbc⟩ := hasShape_iff.1 hb
  have hboth : ∀ p q : Option UInt64, p.isSome = true → q.isSome = true → (broadcastExtent p q).isSome = true := by
    intro p q hp hq
    obtain ⟨i, rfl⟩ := Option.isSome_iff_exists.1 hp
    obtain ⟨j, rfl⟩ := Option.isSome_iff_exists.1 hq
    rfl
  rw [hasShape_iff, elementwise_rows, elementwise_cols]
  exact ⟨hboth _ _ har hbr, hboth _ _ hac hbc⟩

theorem hasShape_diag (h : m.hasShape = true) : m.diag.hasShape = true := by
  obtain ⟨hr, hc⟩ := hasShape_iff.1 h
  obtain ⟨k, hk⟩ := Option.isSome_iff_exists.1 hc
  rw [diag, hk]
  dsimp only
  split
  · exact hasShape_iff.2 ⟨hr, hr⟩
  · exact hasShape_iff.2 ⟨hr, rfl⟩

theorem isSome_addKnown {p q : Option UInt64} (hp : p.isSome = true) (hq : q.isSome = true) :
    (addKnown p q).isSome = true := by
  obtain ⟨i, rfl⟩ := Option.isSome_iff_exists.1 hp
  obtain ⟨j, rfl⟩ := Option.isSome_iff_exists.1 hq
  rfl

theorem isSome_orElse {p q : Option UInt64} (hp : p.isSome = true) : (p <|> q).isSome = true := by
  obtain ⟨i, rfl⟩ := Option.isSome_iff_exists.1 hp
  rfl

theorem hasShape_cbind (ha : a.hasShape = true) (hb : b.hasShape = true) : (a.cbind b).hasShape = true := by
  obtain ⟨har, hac⟩ := hasShape_iff.1 ha
  exact hasShape_iff.2 ⟨isSome_orElse har, isSome_addKnown hac (hasShape_iff.1 hb).2⟩

theorem hasShape_rbind (ha : a.hasShape = true) (hb : b.hasShape = true) : (a.rbind b).hasShape = true := by
  obtain ⟨har, hac⟩ := hasShape_iff.1 ha
  exact hasShape_iff.2 ⟨isSome_addKnown har (hasShape_iff.1 hb).1, isSome_orElse hac⟩

end Metadata

end MatrixPlan
