import MatrixPlan.Number.Decimal
import MatrixPlan.Proofs.Number.Intervals
/-!
# Nearest — a decimal is rounded to the double whose interval it lies in

The rounded mantissa of a quotient is at most half a unit away from it, so the quotient lies in the interval of the double
that it is rounded to; and since no number lies in the intervals of two doubles, this is the double of any interval that it
lies in.
-/
namespace MatrixPlan
namespace Binary64

open Shortest (RoundsTo reachBelow zpow_toNat)

variable {a b m : Nat} {e : Int} {x : ℚ}

/-- **A rounded quotient is at most a half away**, and less if it is odd. -/
theorem roundEven_bounds (hb : 0 < b) :
    2 * roundEven a b * b ≤ 2 * a + b ∧ 2 * a ≤ (2 * roundEven a b + 1) * b ∧
      (roundEven a b % 2 = 1 → 2 * roundEven a b * b < 2 * a + b ∧ 2 * a < (2 * roundEven a b + 1) * b) := by
  have hdiv := Nat.div_add_mod a b
  have hmod := Nat.mod_lt a hb
  have hlow : 2 * (a / b) * b = 2 * (b * (a / b)) := by ring
  have hmid : (2 * (a / b) + 1) * b = 2 * (b * (a / b)) + b := by ring
  have hnext : 2 * (a / b + 1) * b = 2 * (b * (a / b)) + 2 * b := by ring
  have hhigh : (2 * (a / b + 1) + 1) * b = 2 * (b * (a / b)) + 3 * b := by ring
  unfold roundEven
  dsimp only
  split
  · rw [hlow, hmid]
    omega
  · split
    · rw [hnext, hhigh]
      omega
    · split
      · rw [hlow, hmid]
        omega
      · rw [hnext, hhigh]
        omega

theorem roundEven_near (hb : 0 < b) :
    (2 * roundEven a b : ℚ) ≤ 2 * (a / b) + 1 ∧ (2 * (a / b) : ℚ) ≤ 2 * roundEven a b + 1 ∧
      (roundEven a b % 2 = 1 → (2 * roundEven a b : ℚ) < 2 * (a / b) + 1 ∧ (2 * (a / b) : ℚ) < 2 * roundEven a b + 1) := by
  have hb' : (0 : ℚ) < b := by exact_mod_cast hb
  have hquotient : (a / b : ℚ) * b = a := div_mul_cancel₀ _ hb'.ne'
  have hlow : (2 * (a / b) + 1 : ℚ) * b = 2 * a + b := by rw [add_mul, mul_assoc, hquotient, one_mul]
  have hhigh : (2 * (a / b) : ℚ) * b = 2 * a := by rw [mul_assoc, hquotient]
  obtain ⟨h₁, h₂, h₃⟩ := roundEven_bounds (a := a) hb
  rw [← mul_le_mul_iff_left₀ hb', ← mul_le_mul_iff_left₀ hb' (b := 2 * (a / b : ℚ)), ← mul_lt_mul_iff_left₀ hb',
    ← mul_lt_mul_iff_left₀ hb' (b := 2 * (a / b : ℚ)), hlow, hhigh]
  exact ⟨by exact_mod_cast h₁, by exact_mod_cast h₂, fun hodd =>
    ⟨by exact_mod_cast (h₃ hodd).1, by exact_mod_cast (h₃ hodd).2⟩⟩

/-- A comparison of a quotient with a power of two, in natural numbers. -/
theorem le_scaled_iff (hb : 0 < b) (z : Int) : b * 2 ^ z.toNat ≤ a * 2 ^ (-z).toNat ↔ (2 : ℚ) ^ z ≤ a / b := by
  have hpos : (0 : ℚ) < 2 ^ (-z).toNat := by positivity
  have hb' : (0 : ℚ) < b := by exact_mod_cast hb
  have hsplit := zpow_toNat (b := 2) (by norm_num) z
  rw [le_div_iff₀ hb', ← Nat.cast_le (α := ℚ)]
  push_cast
  rw [hsplit, ← mul_assoc, mul_comm (b : ℚ), mul_assoc, mul_comm (a : ℚ), mul_le_mul_iff_right₀ hpos, mul_comm]

/-- The difference of the logarithms is the logarithm of the quotient, or one more. -/
theorem log2_sub_bounds (ha : 0 < a) (hb : 0 < b) :
    (2 : ℚ) ^ ((a.log2 : Int) - b.log2 - 1) ≤ a / b ∧ (a / b : ℚ) < 2 ^ ((a.log2 : Int) - b.log2 + 1) := by
  have hb' : (0 : ℚ) < b := by exact_mod_cast hb
  have ha₁ : (2 : ℚ) ^ (a.log2 : Int) ≤ a := by exact_mod_cast Nat.log2_self_le (by omega)
  have ha₂ : (a : ℚ) < 2 ^ ((a.log2 : Int) + 1) := by exact_mod_cast @Nat.lt_log2_self a
  have hb₁ : (2 : ℚ) ^ (b.log2 : Int) ≤ b := by exact_mod_cast Nat.log2_self_le (by omega)
  have hb₂ : (b : ℚ) < 2 ^ ((b.log2 : Int) + 1) := by exact_mod_cast @Nat.lt_log2_self b
  rw [le_div_iff₀ hb', div_lt_iff₀ hb']
  constructor
  · calc (2 : ℚ) ^ ((a.log2 : Int) - b.log2 - 1) * b
        ≤ 2 ^ ((a.log2 : Int) - b.log2 - 1) * 2 ^ ((b.log2 : Int) + 1) := by gcongr
      _ = 2 ^ (a.log2 : Int) := by
        rw [← zpow_add₀ (by norm_num)]
        congr 1
        omega
      _ ≤ a := ha₁
  · calc (a : ℚ) < 2 ^ ((a.log2 : Int) + 1) := ha₂
      _ = 2 ^ ((a.log2 : Int) - b.log2 + 1) * 2 ^ (b.log2 : Int) := by
        rw [← zpow_add₀ (by norm_num)]
        congr 1
        omega
      _ ≤ 2 ^ ((a.log2 : Int) - b.log2 + 1) * b := by gcongr

/-- **The exponent of a quotient** gives it a mantissa below `2^53`, which has 53 bits unless the exponent is the least. -/
theorem exponentFor_bounds (ha : 0 < a) (hb : 0 < b) :
    minExponent ≤ exponentFor a b ∧ (a / b : ℚ) < 2 ^ (exponentFor a b + 53) ∧
      (exponentFor a b = minExponent ∨ (2 : ℚ) ^ (exponentFor a b + 52) ≤ a / b) := by
  obtain ⟨hlow, hhigh⟩ := log2_sub_bounds ha hb
  have hexact : ∃ k : Int, exponentFor a b = max minExponent (k - 52) ∧ (2 : ℚ) ^ k ≤ a / b ∧ (a / b : ℚ) < 2 ^ (k + 1) := by
    unfold exponentFor
    dsimp only
    split
    · rename_i hle
      exact ⟨_, rfl, (le_scaled_iff hb _).1 hle, hhigh⟩
    · rename_i hlt
      rw [le_scaled_iff hb, not_le] at hlt
      exact ⟨_, rfl, hlow, by rwa [Int.sub_add_cancel]⟩
  obtain ⟨k, hk, hle, hlt⟩ := hexact
  refine ⟨by omega, hlt.trans_le (zpow_le_zpow_right₀ (by norm_num) (by omega)), ?_⟩
  by_cases hmin : exponentFor a b = minExponent
  · exact .inl hmin
  · refine .inr (le_trans (zpow_le_zpow_right₀ (by norm_num) (by omega)) hle)

/-- A quotient in units of a power of two. -/
theorem scaled_quotient (a b : Nat) (e : Int) :
    ((a * 2 ^ (-e).toNat : Nat) : ℚ) / (b * 2 ^ e.toNat : Nat) = a / b / 2 ^ e := by
  have hsplit := zpow_toNat (b := 2) (by norm_num) e
  push_cast
  rw [hsplit]
  field_simp

/-- A number is in the interval of a mantissa that is at most a half away, or at most a quarter above it where the double
below is nearer. -/
theorem roundsTo_of_half {y : ℚ} (hy : 0 < y) (hlow : (2 * m : ℚ) ≤ 2 * y + 1) (hhigh : 2 * y ≤ 2 * m + 1)
    (hodd : m % 2 = 1 → (2 * m : ℚ) < 2 * y + 1 ∧ 2 * y < 2 * m + 1)
    (hpower : reachBelow m e = 1 → (4 * m : ℚ) ≤ 4 * y + 1) :
    RoundsTo (y * 2 ^ e) m e := by
  have hquarter : (0 : ℚ) < 2 ^ (e - 2) := by positivity
  have hreach := Shortest.reachBelow_cases m e
  unfold RoundsTo
  dsimp only
  rw [Shortest.in_quarters y, mul_le_mul_iff_left₀ hquarter, mul_le_mul_iff_left₀ hquarter, mul_lt_mul_iff_left₀ hquarter,
    mul_lt_mul_iff_left₀ hquarter]
  push_cast
  split
  · refine ⟨?_, by linarith⟩
    rcases hreach with ⟨hone, rfl⟩ | ⟨htwo, -⟩
    · have := hpower hone
      rw [hone]
      push_cast at this ⊢
      linarith
    · rw [htwo]
      rcases Nat.eq_zero_or_pos m with rfl | hm
      · simpa using hy.le
      · rw [Nat.cast_sub (by omega)]
        push_cast
        linarith
  · obtain ⟨hlow', hhigh'⟩ := hodd (by omega)
    refine ⟨?_, by linarith⟩
    rcases hreach with ⟨-, rfl⟩ | ⟨htwo, -⟩
    · omega
    · rw [htwo, Nat.cast_sub (by omega)]
      push_cast
      linarith

/-- **A number lies in the interval of its rounded mantissa**, one bit too many in the mantissa being carried into the
exponent. -/
theorem roundsTo_of_rounded {r : Nat} {y : ℚ} (hmin : minExponent ≤ e) (hy : 0 < y) (htop : y < 2 ^ 53)
    (hbottom : e = minExponent ∨ (2 : ℚ) ^ 52 ≤ y) (hlow : (2 * r : ℚ) ≤ 2 * y + 1) (hhigh : 2 * y ≤ 2 * r + 1)
    (hodd : r % 2 = 1 → (2 * r : ℚ) < 2 * y + 1 ∧ 2 * y < 2 * r + 1) :
    r ≤ 2 ^ 53 ∧ ∃ m' e', (if r = 2 ^ 53 then (hiddenBit, e + 1) else (r, e)) = (m', e') ∧ Canonical m' e' ∧
      RoundsTo (y * 2 ^ e) m' e' := by
  have hle : r ≤ 2 ^ 53 := by
    have h : (2 * r : ℚ) < 2 ^ 54 + 1 := by linarith
    have h : 2 * r < 2 ^ 54 + 1 := by exact_mod_cast h
    omega
  have hge : e = minExponent ∨ 2 ^ 52 ≤ r := by
    refine hbottom.imp_right fun hbottom => ?_
    have h : (2 ^ 53 : ℚ) ≤ 2 * r + 1 := by linarith
    have h : 2 ^ 53 ≤ 2 * r + 1 := by exact_mod_cast h
    omega
  refine ⟨hle, ?_⟩
  by_cases hcarry : r = 2 ^ 53
  · -- the double is the power of two above
    subst hcarry
    refine ⟨hiddenBit, e + 1, if_pos rfl, ⟨by decide, by omega, .inl (Nat.le_refl _)⟩, ?_⟩
    have hdouble : y * 2 ^ e = y / 2 * 2 ^ (e + 1) := by
      rw [zpow_add_one₀ (by norm_num)]
      ring
    rw [hdouble]
    push_cast at hlow
    refine roundsTo_of_half (by linarith) ?_ ?_ (fun h => absurd h (by decide)) fun _ => ?_
    all_goals
      rw [hiddenBit]
      push_cast
      linarith
  · refine ⟨r, e, if_neg hcarry, ⟨by omega, hmin, hge.symm⟩, ?_⟩
    refine roundsTo_of_half hy hlow hhigh hodd fun hone => ?_
    obtain ⟨rfl, he⟩ : r = 2 ^ 52 ∧ -1074 < e := by
      unfold reachBelow at hone
      split at hone
      · assumption
      · cases hone
    have hleast : e ≠ minExponent := by
      unfold minExponent
      omega
    have := hbottom.resolve_left hleast
    push_cast
    linarith

/-- **A quotient lies in the interval of the double it is rounded to.** -/
theorem nearest_roundsTo (negative : Bool) (ha : 0 < a) (hb : 0 < b) :
    ∃ m e, Canonical m e ∧ RoundsTo (a / b) m e ∧
      nearest negative a b = if maxExponent < e then infinite negative else finite negative m e := by
  obtain ⟨hmin, hbelow, hnormal⟩ := exponentFor_bounds ha hb
  have hx : (0 : ℚ) < a / b := by positivity
  rw [nearest, if_neg (by omega)]
  dsimp only
  have hscaled := scaled_quotient a b (exponentFor a b)
  have hden : 0 < b * 2 ^ (exponentFor a b).toNat := by positivity
  generalize hnum : a * 2 ^ (-exponentFor a b).toNat = num at *
  generalize b * 2 ^ (exponentFor a b).toNat = den at *
  generalize exponentFor a b = e at *
  have hunit : (0 : ℚ) < 2 ^ e := by positivity
  -- the quotient in units of the exponent, its mantissa before rounding
  have hy : (0 : ℚ) < num / den := by rw [hscaled]; positivity
  have hsplit : (a / b : ℚ) = num / den * 2 ^ e := by rw [hscaled, div_mul_cancel₀ _ hunit.ne']
  have htop : (num / den : ℚ) < 2 ^ 53 := by
    rw [hscaled, div_lt_iff₀ hunit]
    rwa [zpow_add₀ (by norm_num), mul_comm] at hbelow
  have hbottom : e = minExponent ∨ (2 : ℚ) ^ 52 ≤ num / den := by
    refine hnormal.imp_right fun h => ?_
    rw [hscaled, le_div_iff₀ hunit]
    rwa [zpow_add₀ (by norm_num), mul_comm] at h
  obtain ⟨hlow, hhigh, hodd⟩ := roundEven_near (a := num) hden
  obtain ⟨-, m', e', hcarry, hc, hrounds⟩ := roundsTo_of_rounded hmin hy htop hbottom hlow hhigh hodd
  rw [ofMantissa, hcarry, hsplit]
  exact ⟨m', e', hc, hrounds, rfl⟩

/-- **A quotient in the interval of a double is rounded to this double.** -/
theorem nearest_eq (negative : Bool) (ha : 0 < a) (hb : 0 < b) (hc : Canonical m e) (he : e ≤ maxExponent)
    (hx : RoundsTo (a / b) m e) : nearest negative a b = finite negative m e := by
  obtain ⟨m', e', hc', hx', heq⟩ := nearest_roundsTo negative ha hb
  obtain ⟨rfl, rfl⟩ := hx.unique hc hc' hx'
  rw [heq, if_neg (by omega)]

/-- A number in an interval is below the end of it. -/
theorem le_of_roundsTo (hx : RoundsTo x m e) : x ≤ (4 * m + 2) * 2 ^ (e - 2) := by
  unfold RoundsTo at hx
  push_cast at hx
  split at hx <;> linarith

/-- A number in an interval is above the start of it. -/
theorem start_le_of_roundsTo (hx : RoundsTo x m e) : ((4 * m - reachBelow m e : Nat) : ℚ) * 2 ^ (e - 2) ≤ x := by
  unfold RoundsTo at hx
  dsimp only at hx
  split at hx <;> linarith

/-- A number in the interval of a double other than zero is above half of the least double. -/
theorem ge_of_roundsTo (hm : m ≠ 0) (he : minExponent ≤ e) (hx : RoundsTo x m e) : (2 : ℚ) ^ (-1075 : Int) ≤ x := by
  have hquarter : (0 : ℚ) < 2 ^ (e - 2) := by positivity
  have hreach := Shortest.reachBelow_cases m e
  have hlow : (2 : ℚ) ≤ (4 * m - reachBelow m e : Nat) := by
    have hnat : 2 ≤ 4 * m - reachBelow m e := by omega
    exact_mod_cast hnat
  unfold minExponent at he
  calc (2 : ℚ) ^ (-1075 : Int) ≤ 2 ^ (e - 2 + 1) := zpow_le_zpow_right₀ (by norm_num) (by omega)
    _ = 2 * 2 ^ (e - 2) := by rw [zpow_add_one₀ (by norm_num), mul_comm]
    _ ≤ (4 * m - reachBelow m e : Nat) * 2 ^ (e - 2) := by gcongr
    _ ≤ x := start_le_of_roundsTo hx

/-- A double is at most twice the numbers that round to it. -/
theorem value_le_of_roundsTo {x : ℚ} (hx : RoundsTo x m e) (hpos : 0 ≤ x) : (m * 2 ^ e : ℚ) ≤ 2 * x := by
  have hquarter : (0 : ℚ) < 2 ^ (e - 2) := by positivity
  rcases Nat.eq_zero_or_pos m with rfl | hm
  · rw [Nat.cast_zero, zero_mul]
    linarith
  have hnat : 2 * m ≤ 4 * m - Shortest.reachBelow m e := by
    have := Shortest.reachBelow_cases m e
    omega
  have hlow : (2 * m : ℚ) * 2 ^ (e - 2) ≤ (4 * m - Shortest.reachBelow m e : Nat) * 2 ^ (e - 2) :=
    mul_le_mul_of_nonneg_right (by exact_mod_cast hnat) hquarter.le
  rw [Shortest.in_quarters m]
  linarith [start_le_of_roundsTo hx]

/-- A double that is not too large has an exponent that there is. -/
theorem Canonical.le_maxExponent (hc : Canonical m e) (h : (m * 2 ^ e : ℚ) ≤ 2 ^ 201) : e ≤ maxExponent := by
  by_contra hlt
  unfold maxExponent at hlt
  have hm : 2 ^ 52 ≤ m := hc.normal.resolve_right (by unfold minExponent; omega)
  have hbig : (2 ^ 52 * 2 ^ (200 : Int) : ℚ) ≤ m * 2 ^ e :=
    mul_le_mul (by exact_mod_cast hm) (zpow_le_zpow_right₀ (by norm_num) (by omega)) (by positivity) (by positivity)
  have hcast : (2 : ℚ) ^ (200 : Int) = 2 ^ 200 := zpow_natCast 2 200
  linarith

end Binary64

namespace Decimal

open Binary64

variable {d : Decimal} {m : Nat} {e : Int}

def value (d : Decimal) : ℚ := d.digits * 10 ^ d.exponent

theorem value_eq (d : Decimal) :
    d.value = (d.digits * 10 ^ d.exponent.toNat : Nat) / (10 ^ (-d.exponent).toNat : Nat) := by
  have hsplit := Shortest.zpow_toNat (b := 10) (by norm_num) d.exponent
  push_cast
  rw [hsplit, value]
  field_simp

/-- Digits are fewer than the power of two above them, so than this power of ten. -/
theorem value_lt (d : Decimal) : d.value < 10 ^ (d.exponent + (d.digits.log2 + 1)) := by
  have hlt : (d.digits : ℚ) < 10 ^ (d.digits.log2 + 1) := by
    have hnat : d.digits < 10 ^ (d.digits.log2 + 1) :=
      Nat.lt_log2_self.trans_le (Nat.pow_le_pow_left (by decide) _)
    exact_mod_cast hnat
  rw [value, zpow_add₀ (by norm_num), mul_comm]
  exact mul_lt_mul_of_pos_left (by exact_mod_cast hlt) (by positivity)

theorem two_pow_le_ten_pow : (2 : ℚ) ^ (1200 : Int) ≤ 10 ^ (400 : Int) := by
  calc (2 : ℚ) ^ (1200 : Int) = (2 ^ (3 : Int)) ^ (400 : Int) := by rw [← zpow_mul]; rfl
    _ ≤ 10 ^ (400 : Int) := zpow_le_zpow_left₀ (by decide) (by positivity) (by norm_num)

/-- A number in the interval of a double has no power of ten above `10^400`. -/
theorem exponent_le_of_roundsTo (hc : Canonical m e) (he : e ≤ maxExponent) (hx : Shortest.RoundsTo d.value m e)
    (hd : d.digits ≠ 0) : d.exponent ≤ 400 := by
  have hm := hc.mantissa
  unfold maxExponent at he
  by_contra hlarge
  have hone : (1 : ℚ) ≤ d.digits := by exact_mod_cast Nat.one_le_iff_ne_zero.2 hd
  have hbig : (10 : ℚ) ^ (400 : Int) ≤ d.value := by
    calc (10 : ℚ) ^ (400 : Int) ≤ 10 ^ d.exponent := zpow_le_zpow_right₀ (by norm_num) (by omega)
      _ ≤ d.digits * 10 ^ d.exponent := le_mul_of_one_le_left (by positivity) hone
  have hsmall : d.value < (2 : ℚ) ^ (1200 : Int) := by
    have hm' : (4 * m + 2 : ℚ) < 2 ^ (55 : Int) := by exact_mod_cast (by omega : 4 * m + 2 < 2 ^ 55)
    calc d.value ≤ (4 * m + 2) * 2 ^ (e - 2) := le_of_roundsTo hx
      _ < 2 ^ (55 : Int) * 2 ^ (e - 2) := by gcongr
      _ = 2 ^ (55 + (e - 2)) := by rw [← zpow_add₀ (by norm_num)]
      _ ≤ 2 ^ (1200 : Int) := zpow_le_zpow_right₀ (by norm_num) (by omega)
  exact absurd (hbig.trans_lt hsmall) (not_lt.2 two_pow_le_ten_pow)

/-- A number in the interval of a double other than zero has its first digit from `10^-400` on. -/
theorem le_exponent_of_roundsTo (hm : m ≠ 0) (hmin : minExponent ≤ e) (hx : Shortest.RoundsTo d.value m e) :
    -400 ≤ d.exponent + (d.digits.log2 + 1) := by
  by_contra hsmall
  have hge : (2 : ℚ) ^ (-1200 : Int) < 10 ^ (-400 : Int) := by
    calc (2 : ℚ) ^ (-1200 : Int) ≤ 2 ^ (-1075 : Int) := zpow_le_zpow_right₀ (by norm_num) (by decide)
      _ ≤ d.value := ge_of_roundsTo hm hmin hx
      _ < 10 ^ (d.exponent + (d.digits.log2 + 1)) := d.value_lt
      _ ≤ 10 ^ (-400 : Int) := zpow_le_zpow_right₀ (by norm_num) (by omega)
  rw [zpow_neg, zpow_neg, inv_lt_inv₀ (by positivity) (by positivity)] at hge
  exact absurd hge (not_lt.2 two_pow_le_ten_pow)

/-- **A decimal in the interval of a double is rounded to this double.** -/
theorem toBinary64_eq (hc : Canonical m e) (he : e ≤ maxExponent) (hx : Shortest.RoundsTo d.value m e) :
    d.toBinary64 = finite d.negative m e := by
  have hmin := hc.exponent
  -- zero lies in the interval of zero alone, which has the least exponent
  have hzero : m = 0 → zero d.negative = finite d.negative m e := by
    rintro rfl
    rw [zero, hc.normal.resolve_left (by decide)]
  unfold toBinary64
  split
  · rename_i hd
    refine hzero (by_contra fun hne => ?_)
    have hge := ge_of_roundsTo hne hmin hx
    rw [value, hd, Nat.cast_zero, zero_mul] at hge
    exact absurd hge (not_le.2 (by positivity))
  rename_i hd
  split
  · rename_i hlarge
    exact absurd hlarge (not_lt.2 (exponent_le_of_roundsTo hc he hx hd))
  split
  · rename_i hsmall
    exact hzero (by_contra fun hne => absurd hsmall (not_lt.2 (le_exponent_of_roundsTo hne hmin hx)))
  · have hpos : 0 < d.digits * 10 ^ d.exponent.toNat := Nat.mul_pos (by omega) (Nat.pow_pos (by decide))
    rw [value_eq] at hx
    exact nearest_eq _ hpos (Nat.pow_pos (by decide)) hc he hx

end Decimal
end MatrixPlan
