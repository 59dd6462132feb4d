import Mathlib.Tactic.IntervalCases
import MatrixPlan.Proofs.Number.Values
/-!
# Error — how far rounding leads away from a number

A number that is not too small is rounded by at most a `2^53`-th of it, so numbers that are computed from it by products
and quotients stay as close as there are roundings in between (`Close`).  Near one, a difference loses what is left of
small numbers, so there the error is bounded by the unit and not by the number.  A number that is within a half of a count
up to `2^49` still counts as it when it is rounded once more.
-/
namespace MatrixPlan
namespace Binary64

open Shortest (RoundsTo)

variable {m j k : Nat} {e i : Int} {n N : Nat} {q v w x y z : ℚ}

/-! ## One rounding -/

/-- A number is at most two quarters away from the double whose interval it lies in. -/
theorem near_of_roundsTo (h : RoundsTo x m e) : |(m * 2 ^ e : ℚ) - x| ≤ 2 * 2 ^ (e - 2) := by
  have hquarter : (0 : ℚ) < 2 ^ (e - 2) := by positivity
  have hreach := Shortest.reachBelow_cases m e
  have hlow : (4 * m : ℚ) - 2 ≤ (4 * m - Shortest.reachBelow m e : Nat) := by
    have hnat : 4 * m ≤ 4 * m - Shortest.reachBelow m e + 2 := by omega
    have hcast : (4 * m : ℚ) ≤ (4 * m - Shortest.reachBelow m e : Nat) + 2 := by exact_mod_cast hnat
    linarith
  have hlow := mul_le_mul_of_nonneg_right hlow hquarter.le
  have hstart := start_le_of_roundsTo h
  have hend := le_of_roundsTo h
  rw [Shortest.in_quarters m, abs_le]
  constructor <;> linarith

/-- **A number up to a power of two** is rounded by at most half a unit of its mantissas. -/
theorem Rounds.abs_sub_le (h : Rounds q v) (hi : -1022 ≤ i) (hq : q ≤ 2 ^ i) : |v - q| ≤ 2 ^ (i - 53) := by
  obtain ⟨m, e, hc, hrounds, rfl⟩ := h
  have hpower : Canonical (2 ^ 52) (i - 52) := ⟨by decide, by unfold minExponent; omega, .inl (Nat.le_refl _)⟩
  have hpower_value : ((2 ^ 52 : Nat) * 2 ^ (i - 52) : ℚ) = 2 ^ i := by
    rw [zpow_sub₀ (by norm_num)]
    push_cast
    field_simp
  have hle : (m * 2 ^ e : ℚ) ≤ (2 ^ 52 : Nat) * 2 ^ (i - 52) := hrounds.le_of_le hc hpower (by rwa [hpower_value])
  have he : e ≤ i - 52 := by
    by_contra hlt
    exact absurd (hpower.value_lt hc (.inl (by omega))) (not_lt.2 hle)
  refine (near_of_roundsTo hrounds).trans ?_
  calc (2 * 2 ^ (e - 2) : ℚ) = 2 ^ (e - 1) := by
        rw [← zpow_one_add₀ (by norm_num)]
        congr 1
        omega
    _ ≤ 2 ^ (i - 53) := zpow_le_zpow_right₀ (by norm_num) (by omega)

/-- What is this close below one rounds to it. -/
theorem Rounds.eq_one (h : Rounds q v) (hlow : 1 - 1 / 2 ^ 54 ≤ q) (hq : q ≤ 1) : v = 1 := by
  have hone : RoundsTo q (2 ^ 52) (-52) := by
    have hreach : Shortest.reachBelow (2 ^ 52) (-52) = 1 := rfl
    unfold RoundsTo
    rw [hreach]
    dsimp only
    norm_num at hlow ⊢
    constructor <;> linarith
  exact h.unique ⟨2 ^ 52, -52, ⟨by decide, by decide, .inl (Nat.le_refl _)⟩, hone, by norm_num⟩

theorem rounds_zero (h : Rounds 0 v) : v = 0 := h.unique hasValue_zero.rounds

theorem Rounds.eq_natural (h : Rounds n v) (hn : n ≤ 2 ^ 53) : v = n := by
  rcases Nat.eq_zero_or_pos n with rfl | hpos
  · rw [Nat.cast_zero] at h ⊢
    exact rounds_zero h
  · obtain ⟨m, e, hc, hrounds, rfl⟩ := h
    exact value_eq_of_le hc hrounds hpos hn

/-- **A number near a count up to `2^49`** still counts as it when it is rounded. -/
theorem floor_of_near (h : Rounds z v) (hN : N < 2 ^ 49) (hz : |z - N| < 7 / 16) : ⌊v + 1 / 2⌋₊ = N := by
  have hN : (N : ℚ) + 1 ≤ 2 ^ (49 : Int) := by exact_mod_cast hN
  obtain ⟨hlow, hhigh⟩ := abs_lt.1 hz
  have hstep := h.abs_sub_le (by decide : -1022 ≤ (49 : Int)) (by linarith)
  norm_num at hstep
  obtain ⟨hlow', hhigh'⟩ := abs_le.1 hstep
  have hv := h.nonneg
  rw [Nat.floor_eq_iff (by linarith)]
  constructor <;> linarith

/-! ## Several roundings -/

/-- What `k` roundings make of a number at most. -/
def spread (k : Nat) : ℚ := (1 + 1 / 2 ^ 53) ^ k

theorem one_le_spread (k : Nat) : 1 ≤ spread k := one_le_pow₀ (by norm_num)

theorem spread_nonneg (k : Nat) : 0 ≤ spread k := zero_le_one.trans (one_le_spread k)

theorem spread_add (j k : Nat) : spread (j + k) = spread j * spread k := pow_add _ _ _

theorem spread_mono (h : j ≤ k) : spread j ≤ spread k := pow_le_pow_right₀ (by norm_num) h

/-- A few roundings compound to less than one more. -/
theorem spread_le (h : k ≤ 8) : spread k ≤ 1 + (k + 1) / 2 ^ 53 := by
  unfold spread
  interval_cases k <;> norm_num

theorem spread_le_two (h : k ≤ 8) : spread k ≤ 2 := by
  have hk : (k : ℚ) ≤ 8 := by exact_mod_cast h
  linarith [spread_le h]

/-- **Numbers that are `k` roundings apart** at most. -/
structure Close (k : Nat) (x y : ℚ) : Prop where
  le : x ≤ y * spread k
  ge : y ≤ x * spread k

theorem close_refl (x : ℚ) : Close 0 x x := by
  have hone : x * spread 0 = x := by rw [spread, pow_zero, mul_one]
  exact ⟨hone.ge, hone.ge⟩

theorem Close.weaken (h : Close j x y) (hx : 0 ≤ x) (hy : 0 ≤ y) (hle : j ≤ k) : Close k x y :=
  ⟨h.le.trans (mul_le_mul_of_nonneg_left (spread_mono hle) hy), h.ge.trans (mul_le_mul_of_nonneg_left (spread_mono hle) hx)⟩

theorem Close.trans (h : Close j x y) (h' : Close k y z) : Close (j + k) x z := by
  constructor
  · rw [spread_add, mul_comm (spread j), ← mul_assoc]
    exact h.le.trans (mul_le_mul_of_nonneg_right h'.le (spread_nonneg j))
  · rw [spread_add, ← mul_assoc]
    exact h'.ge.trans (mul_le_mul_of_nonneg_right h.ge (spread_nonneg k))

theorem Close.mul (h : Close j x y) (h' : Close k z w) (hx : 0 ≤ x) (hy : 0 ≤ y) (hz : 0 ≤ z) (hw : 0 ≤ w) :
    Close (j + k) (x * z) (y * w) := by
  constructor
  · rw [spread_add, mul_mul_mul_comm]
    exact mul_le_mul h.le h'.le hz (mul_nonneg hy (spread_nonneg j))
  · rw [spread_add, mul_mul_mul_comm]
    exact mul_le_mul h.ge h'.ge hw (mul_nonneg hx (spread_nonneg j))

theorem Close.inv (h : Close k x y) (hx : 0 < x) (hy : 0 < y) : Close k x⁻¹ y⁻¹ := by
  constructor
  · rw [inv_mul_eq_div, inv_le_iff_one_le_mul₀ hx, div_mul_eq_mul_div, mul_comm, le_div_iff₀ hy, one_mul]
    exact h.ge
  · rw [inv_mul_eq_div, inv_le_iff_one_le_mul₀ hy, div_mul_eq_mul_div, mul_comm, le_div_iff₀ hx, one_mul]
    exact h.le

theorem Close.abs_sub_le (h : Close k x y) (hy : 0 ≤ y) (hk : k ≤ 8) : |x - y| ≤ y * ((k + 1) / 2 ^ 53) := by
  have hspread := spread_le hk
  have hone := one_le_spread k
  have hxy : y * spread k ≤ y * (1 + (k + 1) / 2 ^ 53) := mul_le_mul_of_nonneg_left hspread hy
  rw [abs_le]
  constructor
  · rcases le_or_gt y x with hle | hlt
    · have : 0 ≤ y * ((k + 1) / 2 ^ 53) := by positivity
      linarith
    · have hmul : x * (spread k - 1) ≤ y * (spread k - 1) := mul_le_mul_of_nonneg_right hlt.le (by linarith)
      linarith [h.ge]
  · linarith [h.le]

/-! ## Numbers that are not too small -/

/-- Zero, or at least `2^-k`. -/
def Moderate (k : Nat) (x : ℚ) : Prop := x = 0 ∨ 1 / 2 ^ k ≤ x

theorem Moderate.weaken (h : Moderate j x) (hle : j ≤ k) : Moderate k x :=
  h.imp_right fun hx => (one_div_le_one_div_of_le (by positivity) (pow_le_pow_right₀ (by norm_num) hle)).trans hx

theorem Moderate.mul (h : Moderate j x) (h' : Moderate k y) : Moderate (j + k) (x * y) := by
  rcases h with rfl | hx
  · exact .inl (zero_mul y)
  rcases h' with rfl | hy
  · exact .inl (mul_zero x)
  · refine .inr ?_
    have hsplit : (1 / 2 ^ (j + k) : ℚ) = 1 / 2 ^ j * (1 / 2 ^ k) := by
      rw [pow_add]
      field_simp
    have hpos : (0 : ℚ) ≤ 1 / 2 ^ j := by positivity
    rw [hsplit]
    exact mul_le_mul hx hy (by positivity) (hpos.trans hx)

theorem Close.moderate (h : Close k x y) (hk : k ≤ 8) (hx : 0 ≤ x) (hy : Moderate j y) : Moderate (j + 1) x := by
  rcases hy with rfl | hy
  · exact .inl (le_antisymm (by simpa using h.le) hx)
  · have hdouble := h.ge.trans (mul_le_mul_of_nonneg_left (spread_le_two hk) hx)
    refine .inr ?_
    rw [pow_succ, ← div_div]
    linarith

/-- The double nearest to a number that is not too small has more than the least exponent. -/
theorem lt_exponent_of_moderate (hc : Canonical m e) (h : RoundsTo q m e) (hq : 1 / 2 ^ 200 ≤ q) : minExponent < e := by
  by_contra hleast
  have hm : (4 * m + 2 : ℚ) ≤ 2 ^ 55 := by
    have hnat : 4 * m + 2 ≤ 2 ^ 55 := by
      have := hc.mantissa
      omega
    exact_mod_cast hnat
  have hsmall : (2 : ℚ) ^ (e - 2) ≤ 2 ^ (-256 : Int) :=
    zpow_le_zpow_right₀ (by norm_num) (by unfold minExponent at hleast; omega)
  have hle := (le_of_roundsTo h).trans (mul_le_mul hm hsmall (by positivity) (by positivity))
  exact absurd (hq.trans hle) (by norm_num)

/-- **A number that is not too small is rounded by at most a `2^53`-th of it.** -/
theorem Rounds.close (h : Rounds q v) (hq : Moderate 200 q) : Close 1 v q := by
  rcases hq with rfl | hq
  · rw [rounds_zero h]
    exact ⟨by norm_num, by norm_num⟩
  obtain ⟨m, e, hc, hrounds, rfl⟩ := h
  have hquarter : (0 : ℚ) < 2 ^ (e - 2) := by positivity
  have he := lt_exponent_of_moderate hc hrounds hq
  have hm := hc.normal.resolve_right (by omega)
  have hm' : (2 ^ 52 : ℚ) ≤ m := by exact_mod_cast hm
  have hspread : spread 1 = 1 + 1 / 2 ^ 53 := pow_one _
  -- what is rounded up to a mantissa is at most half a unit below it, or a quarter below the least mantissa
  have hlow : (4 * m * 2 ^ (e - 2) : ℚ) ≤ (4 * m - Shortest.reachBelow m e : Nat) * spread 1 * 2 ^ (e - 2) := by
    refine mul_le_mul_of_nonneg_right ?_ hquarter.le
    rw [hspread]
    rcases Shortest.reachBelow_cases m e with ⟨hone, rfl⟩ | ⟨htwo, hne⟩
    · rw [hone]
      norm_num
    · have hnext : (2 ^ 52 + 1 : ℚ) ≤ m := by
        have hnat : 2 ^ 52 + 1 ≤ m := by
          unfold minExponent at he
          omega
        exact_mod_cast hnat
      rw [htwo, Nat.cast_sub (by omega)]
      push_cast
      linarith
  rw [Shortest.in_quarters m]
  constructor
  · refine hlow.trans ?_
    rw [mul_right_comm]
    exact mul_le_mul_of_nonneg_right (start_le_of_roundsTo hrounds) (spread_nonneg 1)
  · refine (le_of_roundsTo hrounds).trans ?_
    rw [mul_right_comm (4 * m : ℚ)]
    refine mul_le_mul_of_nonneg_right ?_ hquarter.le
    rw [hspread]
    linarith

/-- How many roundings a count goes through when it becomes a double. -/
def roundings (n : Nat) : Nat := if n ≤ 2 ^ 53 then 0 else 1

theorem roundings_le (n : Nat) : roundings n ≤ 1 := by
  unfold roundings
  split <;> decide

theorem roundings_eq_zero (h : n ≤ 2 ^ 53) : roundings n = 0 := if_pos h

theorem Rounds.close_natural (h : Rounds n v) : Close (roundings n) v n := by
  unfold roundings
  split
  · rename_i hle
    rw [h.eq_natural hle]
    exact close_refl _
  · rename_i hlarge
    refine h.close (.inr ?_)
    have hone : (1 : ℚ) ≤ n := by exact_mod_cast Nat.one_le_iff_ne_zero.2 (by omega)
    have hsmall : (1 / 2 ^ 200 : ℚ) ≤ 1 := by norm_num
    exact hsmall.trans hone

end Binary64
end MatrixPlan
