import Mathlib.Algebra.Order.Floor.Semifield
import Mathlib.Data.Rat.Floor
import MatrixPlan.Number.Rounding
import MatrixPlan.Proofs.Number.Leading
import MatrixPlan.Proofs.Number.Operations
/-!
# Counting — counts that go through doubles

A count up to `2^53` is a double itself; a greater one may become a double above it, by at most a `2^53`-th of it.  A
product of this double and a fraction counts no more than the double does.
-/
namespace MatrixPlan

open Binary64 (Canonical)
open Shortest (RoundsTo)

variable {m m' n N : Nat} {e e' : Int}

/-- **What rounding to doubles may make of a count** at most: a `2^53`-th more of what it is above one. -/
def withRounding (n : Nat) : Nat := n + (max n 1 - 1) / 2 ^ 53

/-- Nothing is made of nothing. -/
@[simp] theorem withRounding_zero : withRounding 0 = 0 := rfl

theorem le_withRounding (n : Nat) : n ≤ withRounding n := Nat.le_add_right _ _

/-- Up to `2^53` nothing is rounded. -/
theorem withRounding_eq (h : n ≤ 2 ^ 53) : withRounding n = n := by
  unfold withRounding
  omega

theorem withRounding_mono (h : m ≤ n) : withRounding m ≤ withRounding n := by
  unfold withRounding
  omega

/-- What is rounded apart and added is no more than what is added and rounded. -/
theorem withRounding_add (m n : Nat) : withRounding m + withRounding n ≤ withRounding (m + n) := by
  unfold withRounding
  omega

namespace Binary64

/-- A great number is at least a `2^53`-th of the way below the double it rounds to. -/
theorem value_sub_le (hc : Canonical m e) (he : 1 ≤ e) (hx : RoundsTo n m e) : 2 ^ 53 * (m * 2 ^ e - n : ℚ) ≤ n - 1 := by
  have hm : 2 ^ 52 ≤ m := hc.normal.resolve_right (by unfold minExponent; omega)
  have hpos : (0 : ℚ) < 2 ^ (e - 2) := by positivity
  have hhalf : (1 : ℚ) ≤ 2 * 2 ^ (e - 2) := by
    calc (1 : ℚ) = 2 * 2 ^ (-1 : Int) := by norm_num
      _ ≤ 2 * 2 ^ (e - 2) := by
        gcongr
        · norm_num
        · omega
  have hlow := start_le_of_roundsTo hx
  rw [Shortest.in_quarters m]
  generalize (2 : ℚ) ^ (e - 2) = q at *
  rcases Shortest.reachBelow_cases m e with ⟨hone, rfl⟩ | ⟨htwo, hne⟩
  · rw [hone] at hlow
    push_cast at hlow ⊢
    linarith
  · -- the mantissa is not the least, so the number is above the power of two
    have hlt : (2 ^ 52 + 1 : ℚ) ≤ m := by
      have hnat : 2 ^ 52 + 1 ≤ m := by omega
      exact_mod_cast hnat
    have hmul := mul_le_mul_of_nonneg_right hlt hpos.le
    rw [htwo, Nat.cast_sub (by omega)] at hlow
    push_cast at hlow ⊢
    linarith

/-- A double with a whole exponent is a natural number. -/
theorem value_natural (he : 0 ≤ e) : (m * 2 ^ e : ℚ) = (m * 2 ^ e.toNat : Nat) := by
  obtain ⟨k, rfl⟩ := Int.eq_ofNat_of_zero_le he
  rw [Int.toNat_natCast, zpow_natCast]
  push_cast
  rfl

/-- A number beyond `2^53` rounds to a double with a positive exponent. -/
theorem exponent_pos (hc : Canonical m e) (hx : RoundsTo n m e) (hn : 2 ^ 53 < n) : 1 ≤ e := by
  by_contra hsmall
  have hm : (m : ℚ) + 1 ≤ 2 ^ 53 := by exact_mod_cast hc.mantissa
  have hunit : (2 : ℚ) ^ (e - 2) ≤ 2 ^ (-2 : Int) := zpow_le_zpow_right₀ (by norm_num) (by omega)
  have hbelow : (n : ℚ) ≤ (4 * m + 2) * 2 ^ (-2 : Int) :=
    (le_of_roundsTo hx).trans (mul_le_mul_of_nonneg_left hunit (by positivity))
  have hbig : (2 ^ 53 + 1 : ℚ) ≤ n := by exact_mod_cast hn
  norm_num at hbelow
  linarith

/-- A number up to `2^53` rounds to itself. -/
theorem value_eq_of_le (hc : Canonical m e) (hx : RoundsTo n m e) (hn : 0 < n) (hle : n ≤ 2 ^ 53) : (m * 2 ^ e : ℚ) = n := by
  obtain ⟨m', e', heq, hvalue⟩ := nearest_natural false hn hle
  obtain ⟨p, f, hp, hrounds, heq'⟩ := nearest_roundsTo (b := 1) false hn Nat.one_pos
  rw [Nat.cast_one, div_one] at hrounds
  obtain ⟨rfl, rfl⟩ := hx.unique hc hp hrounds
  rw [heq'] at heq
  split at heq
  · cases heq
  · cases heq
    exact hvalue

/-- **A count rounds to a natural number**, up to `2^53` to itself. -/
theorem exists_natural (hc : Canonical m e) (hx : RoundsTo n m e) : ∃ N : Nat, (m * 2 ^ e : ℚ) = N ∧ N ≤ withRounding n := by
  rcases Nat.eq_zero_or_pos n with rfl | hn
  · have hle := value_le_of_roundsTo hx (by simp)
    have hzero : (m * 2 ^ e : ℚ) = 0 := le_antisymm (by simpa using hle) (by positivity)
    exact ⟨0, by rw [hzero, Nat.cast_zero], Nat.zero_le _⟩
  rcases le_or_gt n (2 ^ 53) with hle | hlt
  · exact ⟨n, value_eq_of_le hc hx hn hle, le_withRounding n⟩
  · have he := exponent_pos hc hx hlt
    have hsub := value_sub_le hc he hx
    rw [value_natural (by omega)] at hsub ⊢
    refine ⟨_, rfl, ?_⟩
    generalize m * 2 ^ e.toNat = N at hsub ⊢
    have hnat : 2 ^ 53 * N ≤ 2 ^ 53 * n + (n - 1) := by
      have hq : (2 ^ 53 * N : ℚ) ≤ 2 ^ 53 * n + (n - 1) := by linarith
      have hq' : ((2 ^ 53 * N : Nat) : ℚ) ≤ (2 ^ 53 * n + (n - 1) : Nat) := by
        rw [Nat.cast_add, Nat.cast_sub hn]
        push_cast
        exact hq
      exact_mod_cast hq'
    unfold withRounding
    omega

/-- **A double is counted by the whole number below it and a half.** -/
theorem roundHalfUp_eq (m : Nat) (e : Int) : roundHalfUp m e = ⌊(m * 2 ^ e + 1 / 2 : ℚ)⌋₊ := by
  unfold roundHalfUp
  split
  · rename_i he
    refine ((Nat.floor_eq_iff (by positivity)).2 ?_).symm
    rw [value_natural he]
    constructor <;> linarith
  · rename_i he
    obtain ⟨k, rfl⟩ := Int.exists_eq_neg_ofNat (a := e) (by omega)
    have hcast : (m * 2 ^ (-(k : Int)) + 1 / 2 : ℚ) = ((2 * m + 2 ^ k : Nat) : ℚ) / (2 ^ (k + 1) : Nat) := by
      rw [zpow_neg, zpow_natCast]
      push_cast
      field_simp
      ring
    rw [hcast, Nat.floor_div_eq_div, neg_neg, Int.toNat_natCast]

/-- Greater doubles count no less. -/
theorem roundHalfUp_mono (h : (m * 2 ^ e : ℚ) ≤ m' * 2 ^ e') : roundHalfUp m e ≤ roundHalfUp m' e' := by
  rw [roundHalfUp_eq, roundHalfUp_eq]
  exact Nat.floor_mono (by linarith)

/-- A natural number counts as itself. -/
theorem roundHalfUp_natural (h : (m * 2 ^ e : ℚ) = N) : roundHalfUp m e = N := by
  rw [roundHalfUp_eq, h, Nat.floor_eq_iff (by positivity)]
  constructor <;> linarith

end Binary64

open Binary64

/-- **A count goes through doubles with at most this rounding.** -/
theorem toNat_roundCount_toFloat_le (n : UInt64) : (roundCount n.toFloat).toNat ≤ withRounding n.toNat := by
  obtain ⟨m, e, hc, hx, heq⟩ := ofFloat_toFloat n
  obtain ⟨N, hN, hle⟩ := exists_natural hc hx
  rw [roundCount, heq, toCount, toNat_clampCount]
  rw [roundHalfUp_natural hN]
  exact (Nat.min_le_left _ _).trans hle

/-- **A fraction of a count counts no more than the count**, as far as doubles know it. -/
theorem roundCount_mul_le {x : Float} (hx : ofFloat x = nan ∨ ∃ s m e, ofFloat x = finite s m e ∧ (m * 2 ^ e : ℚ) ≤ 1)
    (n : UInt64) : roundCount (x * n.toFloat) ≤ roundCount n.toFloat := by
  rcases hx with hnan | ⟨s, m, e, hx, hone⟩
  · rw [roundCount, ofFloat_nan_mul _ hnan]
    exact UInt64.zero_le
  · obtain ⟨m', e', hc', hx', heq'⟩ := ofFloat_toFloat n
    obtain ⟨p, f, hp, hrounds, hmul⟩ := ofFloat_mul hx heq'
    have hle : (p * 2 ^ f : ℚ) ≤ m' * 2 ^ e' :=
      hrounds.le_of_le hp hc' (mul_le_of_le_one_left (by positivity) hone)
    have hmax : f ≤ maxExponent := by
      have hword : (n.toNat : ℚ) ≤ 2 ^ 64 := by exact_mod_cast n.toNat_lt.le
      have htwice := value_le_of_roundsTo hx' (by positivity)
      exact hp.le_maxExponent (by linarith)
    rw [if_neg (by omega)] at hmul
    rw [roundCount, hmul, roundCount, heq']
    cases s with
    | true => exact UInt64.zero_le
    | false =>
      change clampCount (roundHalfUp p f) ≤ clampCount (roundHalfUp m' e')
      rw [UInt64.le_iff_toNat_le, toNat_clampCount, toNat_clampCount]
      exact min_le_min_right _ (roundHalfUp_mono hle)

end MatrixPlan
