import Mathlib.Algebra.Order.Field.Power
import Mathlib.Tactic.FieldSimp
import Mathlib.Tactic.Linarith
import Mathlib.Tactic.Positivity
import Mathlib.Tactic.Ring
import MatrixPlan.Number.Binary64
import MatrixPlan.Number.Shortest
/-!
# Intervals — the reals that round to a double

The interval of a double is the one that `Shortest` looks for digits in, here over the rational numbers (`RoundsTo`).
Intervals of different doubles have no number in common (`RoundsTo.unique`), and the digits that are selected lie in the
interval of the double they are selected for, so the value of the digits determines the double.
-/
namespace MatrixPlan

/-- **The mantissa and exponent of a finite double**: 53 bits, or fewer at the least exponent. -/
structure Binary64.Canonical (m : Nat) (e : Int) : Prop where
  mantissa : m < 2 ^ 53
  exponent : minExponent ≤ e
  normal : 2 ^ 52 ≤ m ∨ e = minExponent

namespace Shortest

open Binary64 (Canonical)

variable {m m' d : Nat} {e e' k : Int} {x : ℚ}

def Digits.value (s : Digits) : ℚ := s.digits * 10 ^ s.exponent

/-- Whether a number rounds to `m · 2^e`. -/
def RoundsTo (x : ℚ) (m : Nat) (e : Int) : Prop :=
  let low := ((4 * m - reachBelow m e : Nat) : ℚ) * 2 ^ (e - 2)
  let high := ((4 * m + 2 : Nat) : ℚ) * 2 ^ (e - 2)
  if m % 2 = 0 then low ≤ x ∧ x ≤ high else low < x ∧ x < high

theorem zpow_toNat {b : ℚ} (hb : b ≠ 0) (z : Int) : b ^ z.toNat = b ^ (-z).toNat * b ^ z := by
  rw [← zpow_natCast, ← zpow_natCast, ← zpow_add₀ hb]
  congr 1
  omega

/-- A multiple of `2^e` in quarters, the unit of the bounds of intervals. -/
theorem in_quarters (x : ℚ) (e : Int) : x * 2 ^ e = 4 * x * 2 ^ (e - 2) := by
  rw [zpow_sub₀ (by norm_num)]
  ring

/-- The two factors of a comparison are a quarter of `2^e` and `10^k`, scaled alike. -/
theorem exists_scale (e k : Int) :
    ∃ c : ℚ, 0 < c ∧ (scales e k).1 * c = 2 ^ (e - 2) ∧ (scales e k).2 * c = 10 ^ k := by
  have htwo := zpow_toNat (b := 2) (by norm_num) (e - 2)
  have hten := zpow_toNat (b := 10) (by norm_num) k
  rw [neg_sub] at htwo
  have hpos : (0 : ℚ) < (scales e k).2 := by
    simp only [scales]
    positivity
  refine ⟨10 ^ k / (scales e k).2, by positivity, ?_, mul_div_cancel₀ _ hpos.ne'⟩
  rw [← mul_div_assoc, div_eq_iff hpos.ne']
  simp only [scales, Nat.cast_mul, Nat.cast_pow, Nat.cast_ofNat]
  rw [htwo, hten]
  ring

theorem within_iff : Within m e d k ↔ RoundsTo (d * 10 ^ k) m e := by
  obtain ⟨c, hc, hquarter, hten⟩ := exists_scale e k
  have hle : ∀ a b : Nat, a ≤ b ↔ (a : ℚ) * c ≤ b * c := fun a b => by
    rw [mul_le_mul_iff_left₀ hc, Nat.cast_le]
  have hlt : ∀ a b : Nat, a < b ↔ (a : ℚ) * c < b * c := fun a b => by
    rw [mul_lt_mul_iff_left₀ hc, Nat.cast_lt]
  have hside : ∀ a : Nat, ((a * (scales e k).1 : Nat) : ℚ) * c = a * 2 ^ (e - 2) := fun a => by
    rw [Nat.cast_mul, mul_assoc, hquarter]
  have hmultiple : ((d * (scales e k).2 : Nat) : ℚ) * c = d * 10 ^ k := by rw [Nat.cast_mul, mul_assoc, hten]
  unfold Within RoundsTo
  dsimp only
  split
  · rw [hle, hle, hside, hside, hmultiple]
  · rw [hlt, hlt, hside, hside, hmultiple]

/-- **Where two intervals meet** the lower one reaches up to the higher one, in quarters of the lower power of two; and
beyond its end when one of them is open. -/
theorem RoundsTo.crossing {j : Nat} (hx : RoundsTo x m e) (hx' : RoundsTo x m' (e + j)) :
    (4 * m' - reachBelow m' (e + j)) * 2 ^ j ≤ 4 * m + 2 ∧
      (m % 2 = 1 ∨ m' % 2 = 1 → (4 * m' - reachBelow m' (e + j)) * 2 ^ j < 4 * m + 2) := by
  have hquarter : (0 : ℚ) < 2 ^ (e - 2) := by positivity
  have hpower : (2 : ℚ) ^ (e + j - 2) = 2 ^ j * 2 ^ (e - 2) := by
    rw [← zpow_natCast, ← zpow_add₀ (by norm_num)]
    congr 1
    omega
  unfold RoundsTo at hx hx'
  dsimp only at hx hx'
  rw [hpower, ← mul_assoc] at hx'
  constructor
  · have hle : (4 * m' - reachBelow m' (e + j) : Nat) * 2 ^ j * 2 ^ (e - 2) ≤ ((4 * m + 2 : Nat) : ℚ) * 2 ^ (e - 2) := by
      split at hx <;> split at hx' <;> linarith
    exact_mod_cast le_of_mul_le_mul_right hle hquarter
  · intro hodd
    have hlt : (4 * m' - reachBelow m' (e + j) : Nat) * 2 ^ j * 2 ^ (e - 2) < ((4 * m + 2 : Nat) : ℚ) * 2 ^ (e - 2) := by
      split at hx <;> split at hx' <;> first | linarith | omega
    exact_mod_cast lt_of_mul_lt_mul_right hlt hquarter.le

theorem reachBelow_cases (m : Nat) (e : Int) :
    reachBelow m e = 1 ∧ m = 2 ^ 52 ∨ reachBelow m e = 2 ∧ ¬ (m = 2 ^ 52 ∧ -1074 < e) := by
  unfold reachBelow
  split
  · rename_i h
    exact .inl ⟨rfl, h.1⟩
  · rename_i h
    exact .inr ⟨rfl, h⟩

/-- A double has nothing in common with those above it: neither with the next one, of which one mantissa of both is odd,
nor with one of a higher power of two, whose interval starts where the mantissa below is the greatest and odd. -/
theorem RoundsTo.not_higher {j : Nat} (h : Canonical m e) (h' : Canonical m' (e + j)) (hlt : 0 < j ∨ m < m')
    (hx : RoundsTo x m e) : ¬ RoundsTo x m' (e + j) := by
  intro hx'
  obtain ⟨hle, hopen⟩ := hx.crossing hx'
  have hm := h.mantissa
  have he := h.exponent
  have hnormal := h'.normal
  unfold Binary64.minExponent at he hnormal
  have hreach := reachBelow_cases m' (e + j)
  generalize reachBelow m' (e + j) = reach at *
  cases j with
  | zero =>
    simp only [Nat.pow_zero, Nat.mul_one] at hle hopen
    omega
  | succ j =>
    have hdouble : (4 * m' - reach) * 2 ≤ (4 * m' - reach) * 2 ^ (j + 1) :=
      Nat.mul_le_mul_left _ (Nat.le_self_pow (Nat.succ_ne_zero j) 2)
    generalize (4 * m' - reach) * 2 ^ (j + 1) = start at *
    omega

/-- **No number rounds to two doubles.** -/
theorem RoundsTo.unique (h : Canonical m e) (h' : Canonical m' e') (hx : RoundsTo x m e) (hx' : RoundsTo x m' e') :
    m = m' ∧ e = e' := by
  rcases Int.lt_trichotomy e e' with hlt | rfl | hlt
  · obtain ⟨j, rfl⟩ := Int.le.dest hlt.le
    exact absurd hx' (hx.not_higher h h' (.inl (by omega)))
  · have hself : e = e + (0 : Nat) := (Int.add_zero e).symm
    rcases Nat.lt_trichotomy m m' with hlt | rfl | hlt
    · rw [hself] at h' hx'
      exact absurd hx' (hx.not_higher h h' (.inr hlt))
    · exact ⟨rfl, rfl⟩
    · rw [hself] at h hx
      exact absurd hx (hx'.not_higher h' h (.inr hlt))
  · obtain ⟨j, rfl⟩ := Int.le.dest hlt.le
    exact absurd hx (hx'.not_higher h' h (.inl (by omega)))

theorem roundsTo_self (m : Nat) (e : Int) : RoundsTo (m * 2 ^ e) m e := by
  have hquarter : (0 : ℚ) < 2 ^ (e - 2) := by positivity
  have hvalue : (m : ℚ) * 2 ^ e = (4 * m : Nat) * 2 ^ (e - 2) := by
    rw [in_quarters]
    push_cast
    rfl
  have hreach : 1 ≤ reachBelow m e := by
    unfold reachBelow
    split <;> decide
  unfold RoundsTo
  dsimp only
  rw [hvalue, mul_le_mul_iff_left₀ hquarter, mul_le_mul_iff_left₀ hquarter, mul_lt_mul_iff_left₀ hquarter,
    mul_lt_mul_iff_left₀ hquarter, Nat.cast_le, Nat.cast_le, Nat.cast_lt, Nat.cast_lt]
  split <;> omega

theorem RoundsTo.between {y z : ℚ} (hx : RoundsTo x m e) (hz : RoundsTo z m e) (hxy : x ≤ y) (hyz : y ≤ z) :
    RoundsTo y m e := by
  unfold RoundsTo at *
  dsimp only at *
  split at hx
  · rename_i heven
    rw [if_pos heven] at hz ⊢
    exact ⟨hx.1.trans hxy, hyz.trans hz.2⟩
  · rename_i hodd
    rw [if_neg hodd] at hz ⊢
    exact ⟨hx.1.trans_le hxy, hyz.trans_lt hz.2⟩

/-- **A number up to a double rounds to a double up to it.** -/
theorem RoundsTo.le_of_le (hx : RoundsTo x m e) (hc : Canonical m e) (hc' : Canonical m' e') (h : x ≤ m' * 2 ^ e') :
    (m * 2 ^ e : ℚ) ≤ m' * 2 ^ e' := by
  by_contra hlt
  have hbelow := not_le.1 hlt
  have hmem := hx.between (roundsTo_self m e) h hbelow.le
  obtain ⟨rfl, rfl⟩ := hmem.unique hc hc' (roundsTo_self m' e')
  exact hlt le_rfl

theorem exact_value (m : Nat) (e : Int) : (exact m e).value = m * 2 ^ e := by
  unfold exact
  split
  · rename_i he
    obtain ⟨n, rfl⟩ := Int.eq_ofNat_of_zero_le he
    simp [Digits.value]
  · rename_i he
    obtain ⟨n, rfl⟩ := Int.exists_eq_neg_ofNat (a := e) (by omega)
    have hten : (10 : ℚ) = 5 * 2 := by norm_num
    simp only [Digits.value, neg_neg, Int.toNat_natCast, Nat.cast_mul, Nat.cast_pow, Nat.cast_ofNat, zpow_neg, zpow_natCast]
    rw [hten, mul_pow]
    field_simp

theorem strip_value (d : Nat) (k : Int) : (strip d k).value = d * 10 ^ k := by
  fun_induction strip d k with
  | case1 d k h ih =>
    have hd : (d : ℚ) = (d / 10 : Nat) * 10 := by
      have hsplit : d = d / 10 * 10 := by omega
      exact_mod_cast hsplit
    rw [ih, zpow_add_one₀ (by norm_num), hd]
    ring
  | case2 d k h => rfl

/-- **The selected digits round to the double** they are selected for. -/
theorem selected_roundsTo (tie : Tie) (m : Nat) (e : Int) : RoundsTo (selected tie m e).value m e := by
  unfold selected
  cases hfound : (List.range 21).findSome? fun n : Nat => onGrid tie m e (topPower m e - n) with
  | none =>
    rw [Option.getD_none, exact_value]
    exact roundsTo_self m e
  | some s =>
    obtain ⟨n, -, hn⟩ := List.exists_of_findSome?_eq_some hfound
    obtain ⟨hexponent, hwithin⟩ := onGrid_within hn
    rw [Option.getD_some, Digits.value, hexponent]
    exact within_iff.1 hwithin

/-- **The shortest digits round to the double**: nothing of their value is stripped. -/
theorem digits_roundsTo (tie : Tie) (m : Nat) (e : Int) : RoundsTo (digits tie m e).value m e := by
  have hvalue : (digits tie m e).value = (selected tie m e).value := strip_value _ _
  rw [hvalue]
  exact selected_roundsTo tie m e

end Shortest
end MatrixPlan
