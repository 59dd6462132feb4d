import MatrixPlan.Proofs.Metadata.Formula
import MatrixPlan.Proofs.Metadata.Plausible
import MatrixPlan.Proofs.Number.Error
/-!
# Vectors — estimates for a column times a row

Each set cell of a column meets each one of a row, and without rounding both cases count these pairs
(`Arithmetic.productCount_outer`).  In doubles the worst case multiplies the fractions and loses no more than a few
roundings of the count itself.  The average case takes the product of the fractions from one and the rest from one again,
where a fraction of the cells below the unit of doubles is lost: it counts the pairs for matrices of less than `2^49`
cells, and none where they are too few among the cells.
-/
namespace MatrixPlan

open Binary64

variable {x y : Float} {v w : ℚ} {rows cols nnz m n a b : UInt64}

/-! ## Formulas of fractions -/

theorem clampUnit_eq (hx : HasValue x v) (hv : v ≤ 1) : clampUnit x = x := by
  rw [clampUnit, if_neg, if_neg]
  · rw [hasValue_one.lt_iff hx]
    exact not_lt.2 hv
  · rw [hx.lt_iff hasValue_zero]
    exact not_lt.2 hx.nonneg

theorem hasValue_toFloat_one : HasValue (1 : UInt64).toFloat 1 := by
  obtain ⟨v, hv, hrounds⟩ := exists_hasValue_toFloat 1
  have hone : v = (1 : Nat) := Rounds.eq_natural (n := 1) hrounds (by decide)
  rwa [hone, Nat.cast_one] at hv

theorem lesser_times_one (hx : HasValue x v) (hv : v ≤ 1) :
    HasValue (lesser (x * (1 : UInt64).toFloat) 1.0) v := by
  have htimes := hx.times_one hasValue_toFloat_one (hv.trans (by norm_num))
  rwa [lesser, if_neg]
  rw [hasValue_one.lt_iff htimes]
  exact not_lt.2 hv

theorem power_one (x : Float) : power x 1 = 1.0 * x := by
  rw [power, powerFrom]
  rfl

namespace Estimator

/-- **The worst case of a single term** is the product of the fractions, rounded. -/
theorem worst_single (hx : HasValue x v) (hy : HasValue y w) (hv : v ≤ 1) (hw : w ≤ 1) :
    ∃ t, HasValue (worst.productSparsity x y 1) t ∧ Rounds (v * w) t :=
  (lesser_times_one hx hv).mul (lesser_times_one hy hw) ((mul_le_one₀ hv hy.nonneg hw).trans (by norm_num))

/-- **The average case of a single term** takes the rounded product of the fractions from one, and the rest from one. -/
theorem average_single (hx : HasValue x v) (hy : HasValue y w) (hv : v ≤ 1) (hw : w ≤ 1) :
    ∃ t rest s, Rounds (v * w) t ∧ Rounds (1 - t) rest ∧ Rounds (1 - rest) s ∧
      HasValue (average.productSparsity x y 1) s := by
  have hone : (1 : ℚ) ≤ 2 ^ 200 := by norm_num
  have hvw := mul_le_one₀ hv hy.nonneg hw
  obtain ⟨t, ht, hproduct⟩ := hx.mul hy (hvw.trans hone)
  have htone : t ≤ 1 := hproduct.mono hasValue_one.rounds hvw
  obtain ⟨rest, hrest, hsub⟩ := hasValue_one.sub ht htone hone
  have hrestone : rest ≤ 1 := hsub.mono hasValue_one.rounds (sub_le_self 1 ht.nonneg)
  have hpower := hasValue_one.one_times hrest (hrestone.trans hone)
  obtain ⟨s, hs, hsub'⟩ := hasValue_one.sub hpower hrestone hone
  refine ⟨t, rest, s, hproduct, hsub, hsub', ?_⟩
  rwa [← power_one] at hs

end Estimator

/-! ## Fractions of cells and their counts -/

/-- Each of two counts may be rounded, and their quotient is. -/
def fractionRoundings (nnz cells : UInt64) : Nat := roundings nnz.toNat + roundings cells.toNat + 1

theorem moderate_fraction (a b : UInt64) : Moderate 64 (a.toNat / b.toNat : ℚ) := by
  rcases Nat.eq_zero_or_pos a.toNat with ha | ha
  · exact .inl (by rw [ha, Nat.cast_zero, zero_div])
  rcases Nat.eq_zero_or_pos b.toNat with hb | hb
  · exact .inl (by rw [hb, Nat.cast_zero, div_zero])
  · have ha : (1 : ℚ) ≤ a.toNat := by exact_mod_cast ha
    have hb : (0 : ℚ) < b.toNat := by exact_mod_cast hb
    have hword : (b.toNat : ℚ) ≤ 2 ^ 64 := by exact_mod_cast b.toNat_lt.le
    exact .inr (div_le_div₀ (by positivity) ha hb hword)

/-- **The sparsity of a matrix** is the fraction of its cells that are set, but for the rounding of both counts and of the
quotient. -/
theorem exists_sparsity (h : nnz ≤ satMul rows cols) :
    ∃ x v, (Metadata.exact rows cols nnz).sparsity = some x ∧ HasValue x v ∧ v ≤ 1 ∧
      Close (fractionRoundings nnz (satMul rows cols)) v (nnz.toNat / (satMul rows cols).toNat) := by
  have hsparsity : (Metadata.exact rows cols nnz).sparsity =
      some (if satMul rows cols = 0 then 0.0 else clampUnit (nnz.toFloat / (satMul rows cols).toFloat)) := rfl
  rw [hsparsity]
  generalize satMul rows cols = cells at h ⊢
  have hle := UInt64.le_iff_toNat_le.1 h
  split
  · rename_i hzero
    obtain rfl := hzero
    refine ⟨0.0, 0, rfl, hasValue_zero, zero_le_one, ?_⟩
    rw [UInt64.toNat_zero, Nat.cast_zero, div_zero]
    exact (close_refl 0).weaken le_rfl le_rfl (Nat.zero_le _)
  · rename_i hne
    obtain ⟨v, hv, hnnz⟩ := exists_hasValue_toFloat nnz
    obtain ⟨w, hw, hcells⟩ := exists_hasValue_toFloat cells
    have hcount : 0 < cells.toNat := Nat.pos_of_ne_zero fun hzero => hne (UInt64.toNat_inj.1 hzero)
    have hcount : (1 : ℚ) ≤ cells.toNat := by exact_mod_cast hcount
    have hwpos : 0 < w := zero_lt_one.trans_le (hasValue_one.rounds.mono hcells hcount)
    have hvw : v / w ≤ 1 := div_le_one_of_le₀ (hnnz.mono hcells (by exact_mod_cast hle)) hwpos.le
    obtain ⟨p, hp, hquotient⟩ := hv.div hw hwpos (hvw.trans (by norm_num))
    have hpone : p ≤ 1 := hquotient.mono hasValue_one.rounds hvw
    have hclose : Close (roundings nnz.toNat + roundings cells.toNat) (v / w) (nnz.toNat / cells.toNat) := by
      rw [div_eq_mul_inv, div_eq_mul_inv]
      exact hnnz.close_natural.mul (hcells.close_natural.inv hwpos (by linarith)) hv.nonneg (Nat.cast_nonneg _)
        (inv_nonneg.2 hwpos.le) (inv_nonneg.2 (Nat.cast_nonneg _))
    have hfew : roundings nnz.toNat + roundings cells.toNat ≤ 2 := Nat.add_le_add (roundings_le _) (roundings_le _)
    have hmoderate := hclose.moderate (by omega) (div_nonneg hv.nonneg hwpos.le) (moderate_fraction nnz cells)
    refine ⟨_, p, rfl, by rwa [clampUnit_eq hp hpone], hpone, ?_⟩
    rw [fractionRoundings, Nat.add_comm]
    exact (hquotient.close (hmoderate.weaken (by decide))).trans hclose

/-- **A fraction of the cells is counted** after the cells and the product have been rounded. -/
theorem toNat_nnzFor (rows cols : UInt64) (hx : HasValue x v) (hv : v ≤ 1) :
    ∃ c w, Rounds (satMul rows cols).toNat c ∧ Rounds (v * c) w ∧
      (nnzFor rows cols x).toNat = min ⌊w + 1 / 2⌋₊ maxCount := by
  obtain ⟨c, hc, hcells⟩ := exists_hasValue_toFloat (satMul rows cols)
  have hword : ((satMul rows cols).toNat : ℚ) ≤ 2 ^ 64 := by exact_mod_cast (satMul rows cols).toNat_lt.le
  have hsmall : c ≤ 2 ^ 200 := by linarith [hcells.le_double (Nat.cast_nonneg _)]
  obtain ⟨w, hw, hproduct⟩ := hx.mul hc ((mul_le_of_le_one_left hc.nonneg hv).trans hsmall)
  refine ⟨c, w, hcells, hproduct, ?_⟩
  rw [nnzFor, clampUnit_eq hx hv, hw.toNat_roundCount]

/-! ## A column and a row -/

theorem satMul_one (n : UInt64) : satMul n 1 = n := UInt64.toNat_inj.1 (Metadata.toNat_satMul_one n)

/-- The sparsities of a column of `m` cells and a row of `n` cells are fractions of `m` and of `n`. -/
theorem exists_sparsity_column (h : a ≤ m) : ∃ x v, (Metadata.exact m 1 a).sparsity = some x ∧ HasValue x v ∧ v ≤ 1 ∧
    Close (fractionRoundings a m) v (a.toNat / m.toNat) := by
  have hcells := satMul_one m
  have hsparsity := @exists_sparsity m 1 a
  rw [hcells] at hsparsity
  exact hsparsity h

theorem exists_sparsity_row (h : b ≤ n) : ∃ y w, (Metadata.exact 1 n b).sparsity = some y ∧ HasValue y w ∧ w ≤ 1 ∧
    Close (fractionRoundings b n) w (b.toNat / n.toNat) := by
  have hcells : satMul 1 n = n := (satMul_comm 1 n).trans (satMul_one n)
  have hsparsity := @exists_sparsity 1 n b
  rw [hcells] at hsparsity
  exact hsparsity h

/-- The fraction of the cells of the product that pairs of set cells are. -/
def pairFraction (a m b n : UInt64) : ℚ := a.toNat / m.toNat * (b.toNat / n.toNat)

theorem pairFraction_nonneg (a m b n : UInt64) : 0 ≤ pairFraction a m b n := by
  unfold pairFraction
  positivity

theorem pairFraction_mul_cells (ha : a ≤ m) (hb : b ≤ n) :
    pairFraction a m b n * (m.toNat * n.toNat : Nat) = (a.toNat * b.toNat : Nat) := by
  rw [Nat.cast_mul, Nat.cast_mul, ← Arithmetic.mul_density (UInt64.le_iff_toNat_le.1 ha),
    ← Arithmetic.mul_density (UInt64.le_iff_toNat_le.1 hb), pairFraction]
  ring

theorem fractionRoundings_le (a m : UInt64) : fractionRoundings a m ≤ 3 := by
  have := roundings_le a.toNat
  have := roundings_le m.toNat
  unfold fractionRoundings
  omega

/-- **The rounded product of the fractions** is that of the pairs, but for the roundings so far. -/
theorem close_pairFraction {t : ℚ} (hv : Close (fractionRoundings a m) v (a.toNat / m.toNat)) (hvpos : 0 ≤ v)
    (hw : Close (fractionRoundings b n) w (b.toNat / n.toNat)) (hwpos : 0 ≤ w) (ht : Rounds (v * w) t) :
    Close (1 + (fractionRoundings a m + fractionRoundings b n)) t (pairFraction a m b n) := by
  have hfew : fractionRoundings a m + fractionRoundings b n ≤ 6 :=
    Nat.add_le_add (fractionRoundings_le a m) (fractionRoundings_le b n)
  have hclose := hv.mul hw hvpos (by positivity) hwpos (by positivity)
  have hmoderate := hclose.moderate (by omega) (mul_nonneg hvpos hwpos) ((moderate_fraction a m).mul (moderate_fraction b n))
  exact (ht.close (hmoderate.weaken (by decide))).trans hclose

namespace Estimator

/-- **A fraction below the unit of doubles is lost** when it is taken from one. -/
theorem average_lost {t rest s : ℚ} (htpos : 0 ≤ t) (ht : t ≤ 1 / 2 ^ 54) (hrest : Rounds (1 - t) rest)
    (hs : Rounds (1 - rest) s) : s = 0 := by
  obtain rfl := hrest.eq_one (sub_le_sub_left ht 1) (sub_le_self 1 htpos)
  rw [sub_self] at hs
  exact rounds_zero hs

/-- Otherwise the two differences are rounded by no more than a `2^53`-th each. -/
theorem average_near {t rest s : ℚ} (htpos : 0 ≤ t) (hrest : Rounds (1 - t) rest) (hs : Rounds (1 - rest) s) :
    |s - t| ≤ 1 / 2 ^ 52 := by
  have hfirst := hrest.abs_sub_le (i := 0) (by decide) (by rw [zpow_zero]; exact sub_le_self 1 htpos)
  have hsecond := hs.abs_sub_le (i := 0) (by decide) (by rw [zpow_zero]; exact sub_le_self 1 hrest.nonneg)
  rw [abs_le] at hfirst hsecond ⊢
  norm_num at hfirst hsecond ⊢
  constructor <;> linarith

section pairs

variable {t rest s c z : ℚ} (ht : Close (1 + (fractionRoundings a m + fractionRoundings b n)) t (pairFraction a m b n))
  (htpos : 0 ≤ t)
include ht htpos

/-- **The worst case counts the pairs**: up to `2^49` of them are not lost by the roundings. -/
theorem worst_pairs (ha : a ≤ m) (hb : b ≤ n) (hc : Rounds (m.toNat * n.toNat : Nat) c) (hz : Rounds (t * c) z)
    (hfew : a.toNat * b.toNat < 2 ^ 49) : ⌊z + 1 / 2⌋₊ = a.toNat * b.toNat := by
  have hclose := ht.mul hc.close_natural htpos (pairFraction_nonneg a m b n) hc.nonneg (Nat.cast_nonneg _)
  rw [pairFraction_mul_cells ha hb] at hclose
  have hzpos := mul_nonneg htpos hc.nonneg
  refine floor_of_near hz hfew ?_
  have hcells := roundings_le (m.toNat * n.toNat)
  rcases Nat.eq_zero_or_pos (a.toNat * b.toNat) with hzero | hpairs
  · have hab := fractionRoundings_le a m
    have hab' := fractionRoundings_le b n
    have herror := hclose.abs_sub_le (Nat.cast_nonneg _) (by omega)
    rw [hzero, Nat.cast_zero, zero_mul] at herror
    rw [hzero, Nat.cast_zero]
    exact herror.trans_lt (by norm_num)
  · -- the counts of set cells are no more than those of the pairs, so they are doubles
    have hacount := roundings_eq_zero
      ((Nat.le_mul_of_pos_right _ (Nat.pos_of_mul_pos_left hpairs)).trans (hfew.le.trans (by decide)))
    have hbcount := roundings_eq_zero
      ((Nat.le_mul_of_pos_left _ (Nat.pos_of_mul_pos_right hpairs)).trans (hfew.le.trans (by decide)))
    have hmcount := roundings_le m.toNat
    have hncount := roundings_le n.toNat
    have hsix := hclose.weaken (k := 6) hzpos (Nat.cast_nonneg _) (by unfold fractionRoundings; omega)
    have herror := hsix.abs_sub_le (Nat.cast_nonneg _) (by decide)
    have hcount : ((a.toNat * b.toNat : Nat) : ℚ) < 2 ^ 49 := by exact_mod_cast hfew
    refine herror.trans_lt ?_
    norm_num at hcount ⊢
    linarith

/-- **The average case counts no pairs** where they are too few among the cells. -/
theorem average_none (hrest : Rounds (1 - t) rest) (hs : Rounds (1 - rest) s) (hz : Rounds (s * c) z)
    (hmany : a.toNat * b.toNat * 2 ^ 55 ≤ m.toNat * n.toNat) : z = 0 := by
  have hfraction : pairFraction a m b n ≤ 1 / 2 ^ 55 := by
    have hmany : (a.toNat * b.toNat * 2 ^ 55 : ℚ) ≤ m.toNat * n.toNat := by exact_mod_cast hmany
    rw [pairFraction, div_mul_div_comm]
    refine div_le_of_le_mul₀ (by positivity) (by positivity) ?_
    linarith
  have hspread : spread (1 + (fractionRoundings a m + fractionRoundings b n)) ≤ 2 := by
    have hab := fractionRoundings_le a m
    have hab' := fractionRoundings_le b n
    exact spread_le_two (by omega)
  have htsmall : t ≤ 1 / 2 ^ 54 := by
    calc t ≤ pairFraction a m b n * 2 := ht.le.trans (mul_le_mul_of_nonneg_left hspread (pairFraction_nonneg a m b n))
      _ ≤ 1 / 2 ^ 55 * 2 := mul_le_mul_of_nonneg_right hfraction (by norm_num)
      _ = 1 / 2 ^ 54 := by norm_num
  obtain rfl := average_lost htpos htsmall hrest hs
  rw [zero_mul] at hz
  exact rounds_zero hz

/-- **The average case counts the pairs** of a matrix up to `2^49` cells: near one, two differences are rounded by no more
than a `2^53`-th each. -/
theorem average_pairs (ha : a ≤ m) (hb : b ≤ n) (hc : Rounds (m.toNat * n.toNat : Nat) c) (hrest : Rounds (1 - t) rest)
    (hs : Rounds (1 - rest) s) (hz : Rounds (s * c) z) (hfew : m.toNat * n.toNat < 2 ^ 49) :
    ⌊z + 1 / 2⌋₊ = a.toNat * b.toNat := by
  have hle := Nat.mul_le_mul (UInt64.le_iff_toNat_le.1 ha) (UInt64.le_iff_toNat_le.1 hb)
  rcases Nat.eq_zero_or_pos (a.toNat * b.toNat) with hzero | hpairs
  · have hnone := average_none ht htpos hrest hs hz (by rw [hzero, Nat.zero_mul]; exact Nat.zero_le _)
    rw [hnone, hzero]
    norm_num
  refine floor_of_near hz (hle.trans_lt hfew) ?_
  -- no count needs rounding, so the fraction of the pairs is three roundings off
  have hexact : ∀ count, count ≤ m.toNat * n.toNat → roundings count = 0 := fun count hcount =>
    roundings_eq_zero ((hcount.trans hfew.le).trans (by decide))
  have hcells : 0 < m.toNat * n.toNat := hpairs.trans_le hle
  have hm : m.toNat ≤ m.toNat * n.toNat := Nat.le_mul_of_pos_right _ (Nat.pos_of_mul_pos_left hcells)
  have hn : n.toNat ≤ m.toNat * n.toNat := Nat.le_mul_of_pos_left _ (Nat.pos_of_mul_pos_right hcells)
  have hthree : Close 3 t (pairFraction a m b n) := by
    unfold fractionRoundings at ht
    rwa [hexact _ hm, hexact _ hn, hexact _ ((UInt64.le_iff_toNat_le.1 ha).trans hm),
      hexact _ ((UInt64.le_iff_toNat_le.1 hb).trans hn)] at ht
  have hproduct := pairFraction_mul_cells ha hb
  obtain rfl := hc.eq_natural (hfew.le.trans (by decide))
  have hcount : ((m.toNat * n.toNat : Nat) : ℚ) < 2 ^ 49 := by exact_mod_cast hfew
  have hcells : (0 : ℚ) < (m.toNat * n.toNat : Nat) := by exact_mod_cast hcells
  have hle : ((a.toNat * b.toNat : Nat) : ℚ) ≤ (m.toNat * n.toNat : Nat) := by exact_mod_cast hle
  have hfraction : pairFraction a m b n ≤ 1 := by
    rwa [← hproduct, mul_le_iff_le_one_left hcells] at hle
  have hnear : |s - pairFraction a m b n| ≤ 6 / 2 ^ 53 := by
    have hunit := average_near htpos hrest hs
    have hthree := hthree.abs_sub_le (pairFraction_nonneg a m b n) (by decide)
    rw [abs_le] at hunit hthree ⊢
    norm_num at hunit hthree ⊢
    constructor <;> linarith
  rw [← hproduct, ← sub_mul, abs_mul, abs_of_pos hcells]
  calc |s - pairFraction a m b n| * (m.toNat * n.toNat : Nat)
      ≤ 6 / 2 ^ 53 * (m.toNat * n.toNat : Nat) := mul_le_mul_of_nonneg_right hnear hcells.le
    _ < 6 / 2 ^ 53 * 2 ^ 49 := mul_lt_mul_of_pos_left hcount (by norm_num)
    _ ≤ 7 / 16 := by norm_num

end pairs

theorem estimate_single (case : Estimator) {x y : Float} (hx : (Metadata.exact m 1 a).sparsity = some x)
    (hy : (Metadata.exact 1 n b).sparsity = some y) : case.estimate .product (.exact m 1 a) (some (.exact 1 n b)) =
      .ok (.exact m n (nnzFor m n (case.productSparsity x y 1))) := by
  have hproduct : case.product (.exact m 1 a) (.exact 1 n b) = .ofSparsity m n (case.productSparsity x y 1) := by
    unfold product
    rw [hx, hy]
    rfl
  rw [Metadata.ofSparsity] at hproduct
  rw [← hproduct]
  rfl

/-- **A column times a row**: the worst case counts the pairs of set cells, as long as they are less than `2^49`.  The
average case agrees with it for products of less than `2^49` cells, and counts none where there are `2^55` cells for each
pair. -/
theorem outer_product_counts (ha : a ≤ m) (hb : b ≤ n) (hcells : m.toNat * n.toNat < 2 ^ 64) :
    ∃ inAverage atWorst : UInt64,
      average.estimate .product (.exact m 1 a) (some (.exact 1 n b)) = .ok (.exact m n inAverage) ∧
      worst.estimate .product (.exact m 1 a) (some (.exact 1 n b)) = .ok (.exact m n atWorst) ∧
      (a.toNat * b.toNat < 2 ^ 49 → atWorst.toNat = a.toNat * b.toNat) ∧
      (m.toNat * n.toNat < 2 ^ 49 → inAverage = atWorst ∧ inAverage.toNat = a.toNat * b.toNat) ∧
      (a.toNat * b.toNat * 2 ^ 55 ≤ m.toNat * n.toNat → inAverage = 0) := by
  obtain ⟨x, v, hx, hxv, hv, hvclose⟩ := exists_sparsity_column ha
  obtain ⟨y, w, hy, hyw, hw, hwclose⟩ := exists_sparsity_row hb
  have hproduct : (satMul m n).toNat = m.toNat * n.toNat := toNat_satMul_of_lt hcells
  have hle := Nat.mul_le_mul (UInt64.le_iff_toNat_le.1 ha) (UInt64.le_iff_toNat_le.1 hb)
  have hpairs : a.toNat * b.toNat ≤ maxCount := by
    unfold maxCount
    omega
  have hclose := fun t => close_pairFraction (t := t) hvclose hxv.nonneg hwclose hyw.nonneg
  have hvw := mul_le_one₀ hv hyw.nonneg hw
  obtain ⟨t, rest, s, ht, hrest, hs, haverage⟩ := average_single hxv hyw hv hw
  obtain ⟨c, z, hc, hz, hcount⟩ := toNat_nnzFor m n haverage (hs.mono hasValue_one.rounds (sub_le_self 1 hrest.nonneg))
  obtain ⟨t', hworst, ht'⟩ := worst_single hxv hyw hv hw
  obtain ⟨c', z', hc', hz', hcount'⟩ := toNat_nnzFor m n hworst (ht'.mono hasValue_one.rounds hvw)
  rw [hproduct] at hc hc'
  have hatWorst : a.toNat * b.toNat < 2 ^ 49 → (nnzFor m n (worst.productSparsity x y 1)).toNat = a.toNat * b.toNat := by
    intro hfew
    rw [hcount', worst_pairs (hclose t' ht') ht'.nonneg ha hb hc' hz' hfew, Nat.min_eq_left hpairs]
  refine ⟨_, _, average.estimate_single hx hy, worst.estimate_single hx hy, hatWorst, fun hfew => ?_, fun hmany => ?_⟩
  · have hinAverage : (nnzFor m n (average.productSparsity x y 1)).toNat = a.toNat * b.toNat := by
      rw [hcount, average_pairs (hclose t ht) ht.nonneg ha hb hc hrest hs hz hfew, Nat.min_eq_left hpairs]
    exact ⟨UInt64.toNat_inj.1 (hinAverage.trans (hatWorst (hle.trans_lt hfew)).symm), hinAverage⟩
  · have hnone := average_none (hclose t ht) ht.nonneg hrest hs hz hmany
    refine UInt64.toNat_inj.1 ?_
    rw [hcount, hnone]
    norm_num

/-- **Both conditions are met, and the loss too**: 3 by 5 cells with 2 and 3 of the vectors set, and `2^28` by `2^27` cells
with a single pair. -/
theorem outer_product_counts_vectors :
    (∃ inAverage atWorst : UInt64,
      average.estimate .product (.exact 3 1 2) (some (.exact 1 5 3)) = .ok (.exact 3 5 inAverage) ∧
      worst.estimate .product (.exact 3 1 2) (some (.exact 1 5 3)) = .ok (.exact 3 5 atWorst) ∧
      inAverage.toNat = 6 ∧ atWorst.toNat = 6) ∧
    ∃ inAverage atWorst : UInt64,
      average.estimate .product (.exact 268435456 1 1) (some (.exact 1 134217728 1)) =
        .ok (.exact 268435456 134217728 inAverage) ∧
      worst.estimate .product (.exact 268435456 1 1) (some (.exact 1 134217728 1)) =
        .ok (.exact 268435456 134217728 atWorst) ∧
      inAverage = 0 ∧ atWorst.toNat = 1 := by
  refine ⟨?_, ?_⟩
  · obtain ⟨p, q, hp, hq, hworst, haverage, -⟩ :=
      outer_product_counts (m := 3) (n := 5) (a := 2) (b := 3) (by decide) (by decide)
      (by decide)
    exact ⟨p, q, hp, hq, (haverage (by decide)).2, hworst (by decide)⟩
  · obtain ⟨p, q, hp, hq, hworst, -, hnone⟩ := outer_product_counts (m := 268435456) (n := 134217728) (a := 1) (b := 1)
      (by decide) (by decide) (by decide)
    exact ⟨p, q, hp, hq, hnone (by decide), hworst (by decide)⟩

/-- **The cases do not agree on all vectors**: of `2^60` cells the average case counts none, and the worst case the one
that there is. -/
theorem outer_product_lost :
    ¬ (∀ m n a b : UInt64, a ≤ m → b ≤ n → m.toNat * n.toNat < 2 ^ 64 → ∀ case : Estimator,
      case.estimate .product (.exact m 1 a) (some (.exact 1 n b)) = .ok (.exact m n (a * b))) ∧
    average.estimate .product (.exact 1073741824 1 1) (some (.exact 1 1073741824 1)) = .ok (.exact 1073741824 1073741824 0) ∧
    worst.estimate .product (.exact 1073741824 1 1) (some (.exact 1 1073741824 1)) =
      .ok (.exact 1073741824 1073741824 1) := by
  have haverage : average.estimate .product (.exact 1073741824 1 1) (some (.exact 1 1073741824 1)) =
      .ok (.exact 1073741824 1073741824 0) := by decide +kernel
  refine ⟨fun h => ?_, haverage, by decide +kernel⟩
  have hclaim := h 1073741824 1073741824 1 1 (by decide) (by decide) (by decide) .average
  rw [haverage] at hclaim
  exact absurd hclaim (by decide)

end Estimator
end MatrixPlan
