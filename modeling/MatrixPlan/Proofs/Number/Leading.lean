import MatrixPlan.Number.Numeral
import MatrixPlan.Number.Scaling
import MatrixPlan.Proofs.Number.Nearest
/-!
# Leading — short numbers are read as the nearest double

A number whose digits fit a word has no digits left over.  Up to `2^53` the digits are a double themselves, up to `10^22`
the power of ten is one, and then the only step that rounds is the last one, so the number is read as the double nearest
to it.
-/
namespace MatrixPlan

namespace Numeral

theorem le_ofDigitChars (cs : List Char) (n : Nat) : n ≤ Nat.ofDigitChars 10 cs n := by
  rw [Nat.ofDigitChars_eq_ofDigitChars_zero]
  exact Nat.le_add_right_of_le (Nat.le_mul_of_pos_left n (Nat.pow_pos (by decide)))

/-- Digits that write a word are all taken. -/
theorem fillWord_eq (cs : List Char) (n : Nat) (h : Nat.ofDigitChars 10 cs n ≤ maxCount) :
    fillWord n cs = (Nat.ofDigitChars 10 cs n, []) := by
  induction cs generalizing n with
  | nil => rfl
  | cons c cs ih =>
    rw [Nat.ofDigitChars_cons, Nat.mul_comm] at h ⊢
    have hle := (le_ofDigitChars cs _).trans h
    rw [fillWord, if_pos hle]
    exact ih _ h

/-- **A number whose digits fit a word is read with all of them.** -/
theorem leading_eq_exact {t : Numeral} (h : t.exact.digits ≤ maxCount) : t.leading = t.exact := by
  rw [exact, Decimal.ofDigits, Nat.ofDigitChars_append] at h
  have hwhole := fillWord_eq t.whole 0 ((le_ofDigitChars _ _).trans h)
  have hfraction := fillWord_eq t.fraction _ h
  rw [leading, hwhole]
  dsimp only
  rw [hfraction, exact, Decimal.ofDigits, Nat.ofDigitChars_append]
  simp

end Numeral

namespace Binary64

open Shortest (RoundsTo)

variable {a b a' b' m : Nat} {e : Int}

/-- **Rounding depends on the quotient alone.** -/
theorem nearest_congr (negative : Bool) (ha : 0 < a) (hb : 0 < b) (ha' : 0 < a') (hb' : 0 < b')
    (h : (a / b : ℚ) = a' / b') : nearest negative a b = nearest negative a' b' := by
  obtain ⟨m, e, hc, hx, heq⟩ := nearest_roundsTo negative ha hb
  obtain ⟨m', e', hc', hx', heq'⟩ := nearest_roundsTo negative ha' hb'
  rw [h] at hx
  obtain ⟨rfl, rfl⟩ := hx.unique hc hc' hx'
  rw [heq, heq']

/-- **A quotient that is not too large is rounded to a finite double.** -/
theorem nearest_finite (negative : Bool) (hb : 0 < b) (h : (a / b : ℚ) ≤ 2 ^ 200) :
    ∃ m e, nearest negative a b = finite negative m e ∧ (m * 2 ^ e : ℚ) ≤ 2 * (a / b) := by
  rcases Nat.eq_zero_or_pos a with rfl | ha
  · exact ⟨0, minExponent, rfl, by simp⟩
  obtain ⟨m, e, hc, hx, heq⟩ := nearest_roundsTo negative ha hb
  have hle := value_le_of_roundsTo hx (by positivity)
  have hmax : e ≤ maxExponent := hc.le_maxExponent (by linarith)
  exact ⟨m, e, by rw [heq, if_neg (by omega)], hle⟩

/-- A number that is a double is rounded to it. -/
theorem nearest_of_eq (negative : Bool) (ha : 0 < a) (hb : 0 < b) (hc : Canonical m e) (he : e ≤ maxExponent)
    (h : (m * 2 ^ e : ℚ) = a / b) : nearest negative a b = finite negative m e :=
  nearest_eq negative ha hb hc he (h ▸ Shortest.roundsTo_self m e)

/-- **A natural number up to `2^53` is a double.** -/
theorem nearest_natural (negative : Bool) {n : Nat} (hn : 0 < n) (hle : n ≤ 2 ^ 53) :
    ∃ m e, nearest negative n 1 = finite negative m e ∧ (m * 2 ^ e : ℚ) = n := by
  rcases Nat.lt_or_ge n (2 ^ 53) with hlt | hge
  · have hlow := Nat.log2_self_le hn.ne'
    have hhigh := @Nat.lt_log2_self n
    have hlog : n.log2 ≤ 52 := Nat.le_of_lt_succ ((Nat.log2_lt hn.ne').2 hlt)
    obtain ⟨j, hj⟩ := Nat.exists_eq_add_of_le hlog
    have hm : 2 ^ 52 ≤ n * 2 ^ j ∧ n * 2 ^ j < 2 ^ 53 := by
      have hlow := Nat.mul_le_mul_right (2 ^ j) hlow
      have hhigh := Nat.mul_lt_mul_of_pos_right hhigh (Nat.two_pow_pos j)
      rw [← Nat.pow_add] at hlow hhigh
      rw [show n.log2 + 1 + j = 53 by omega] at hhigh
      rw [← hj] at hlow
      exact ⟨hlow, hhigh⟩
    have hvalue : ((n * 2 ^ j : Nat) * 2 ^ (-(j : Int)) : ℚ) = n := by
      rw [zpow_neg, zpow_natCast]
      push_cast
      field_simp
    refine ⟨n * 2 ^ j, -j, nearest_of_eq negative hn (by decide) ⟨hm.2, ?_, .inl hm.1⟩ ?_ ?_, hvalue⟩
    · unfold minExponent
      omega
    · unfold maxExponent
      omega
    · rw [hvalue, Nat.cast_one, div_one]
  · obtain rfl : n = 2 ^ 53 := by omega
    refine ⟨2 ^ 52, 1, nearest_of_eq negative hn (by decide) ⟨by decide, by decide, .inl (Nat.le_refl _)⟩ (by decide) ?_, ?_⟩
    · norm_num
    · norm_num

/-- The powers of ten up to `10^22` are doubles. -/
theorem powerOfTen_value {k : Nat} (hk : k ≤ 22) :
    0 < (powerOfTen k).1 ∧ ((powerOfTen k).1 * 2 ^ (powerOfTen k).2 : ℚ) = 10 ^ k := by
  have hall : ∀ k < 23, 0 < (powerOfTen k).1 ∧
      (powerOfTen k).1 * 2 ^ (powerOfTen k).2.toNat = 10 ^ k * 2 ^ (-(powerOfTen k).2).toNat := by decide +kernel
  obtain ⟨hpos, hscaled⟩ := hall k (by omega)
  have hsplit := Shortest.zpow_toNat (b := 2) (by norm_num) (powerOfTen k).2
  have hunit : (0 : ℚ) < 2 ^ (-(powerOfTen k).2).toNat := by positivity
  have hcast : ((powerOfTen k).1 * 2 ^ (powerOfTen k).2.toNat : ℚ) = 10 ^ k * 2 ^ (-(powerOfTen k).2).toNat := by
    exact_mod_cast hscaled
  refine ⟨hpos, mul_right_cancel₀ hunit.ne' ?_⟩
  rw [← hcast, hsplit]
  ring

/-- The quotient of `m · 2^e` and a natural number, in natural numbers. -/
theorem split_quotient (m n : Nat) (e : Int) :
    ((m * 2 ^ e.toNat : Nat) / (n * 2 ^ (-e).toNat : Nat) : ℚ) = m * 2 ^ e / n := by
  have hsplit := Shortest.zpow_toNat (b := 2) (by norm_num) e
  push_cast
  rw [hsplit]
  field_simp

/-- The exact product of a double and a power of ten that is a double. -/
theorem times_quotient {m k : Nat} {e : Int} {x : ℚ} (hk : k ≤ 22) (hvalue : m * 2 ^ e = x) :
    ((m * (powerOfTen k).1 * 2 ^ (e + (powerOfTen k).2).toNat : Nat) / (2 ^ (-(e + (powerOfTen k).2)).toNat : Nat) : ℚ) =
      x * 10 ^ k := by
  obtain ⟨-, hpower⟩ := powerOfTen_value hk
  have hquotient := split_quotient (m * (powerOfTen k).1) 1 (e + (powerOfTen k).2)
  rw [Nat.one_mul] at hquotient
  rw [hquotient, Nat.cast_one, div_one, Nat.cast_mul, zpow_add₀ (by norm_num), ← hvalue, ← hpower]
  ring

/-- The exact quotient of a double and a power of ten that is a double. -/
theorem over_quotient {m k : Nat} {e : Int} {x : ℚ} (hk : k ≤ 22) (hvalue : m * 2 ^ e = x) :
    ((m * 2 ^ (e - (powerOfTen k).2).toNat : Nat) / ((powerOfTen k).1 * 2 ^ ((powerOfTen k).2 - e).toNat : Nat) : ℚ) =
      x / 10 ^ k := by
  obtain ⟨hpos, hpower⟩ := powerOfTen_value hk
  have hquotient := split_quotient m (powerOfTen k).1 (e - (powerOfTen k).2)
  rw [neg_sub] at hquotient
  rw [hquotient, zpow_sub₀ (by norm_num), ← hvalue, ← hpower]
  field_simp

end Binary64

namespace Decimal

open Binary64

/-- **Few digits times a small power of ten are scaled to the nearest double**: of the digits, the power and their product
or quotient, only the last is rounded. -/
theorem scaled_eq {d : Decimal} (hd : d.digits ≤ 2 ^ 53) (he : d.exponent.natAbs ≤ 22) : d.scaled = d.toBinary64 := by
  unfold scaled toBinary64
  split
  · rfl
  rename_i hzero
  have hpos : 0 < d.digits := Nat.pos_of_ne_zero hzero
  have hlarge : ¬ 400 < d.exponent := by omega
  have hmax : ¬ (maxPower : Int) < d.exponent := by
    unfold maxPower
    omega
  have hsmall : ¬ d.exponent + (d.digits.log2 + 1) < -400 := by omega
  obtain ⟨m, e, hnearest, hvalue⟩ := nearest_natural d.negative hpos hd
  have hm : 0 < m := by
    rcases Nat.eq_zero_or_pos m with rfl | hm
    · rw [Nat.cast_zero, zero_mul] at hvalue
      exact absurd hvalue.symm (by exact_mod_cast hzero)
    · exact hm
  rw [if_neg hlarge, if_neg hsmall, if_neg hmax, hnearest]
  split
  · rename_i hnonneg
    obtain ⟨k, hk⟩ := Int.eq_ofNat_of_zero_le hnonneg
    obtain ⟨hn, -⟩ := powerOfTen_value (k := k) (by omega)
    rw [hk, Int.toNat_natCast, Int.toNat_neg_natCast, timesPowerOfTen]
    refine nearest_congr _ (by positivity) (by positivity) (by positivity) (by decide) ?_
    refine (times_quotient (by omega) hvalue).trans ?_
    push_cast
    ring
  · rename_i hneg
    obtain ⟨k, hk⟩ := Int.exists_eq_neg_ofNat (a := d.exponent) (by omega)
    obtain ⟨hn, -⟩ := powerOfTen_value (k := k) (by omega)
    have hle : k ≤ maxPower := by
      unfold maxPower
      omega
    rw [hk, neg_neg, Int.toNat_natCast, Int.toNat_neg_natCast, if_pos hle, overPowerOfTen]
    refine nearest_congr _ (by positivity) (by positivity) (by positivity) (by positivity) ?_
    refine (over_quotient (by omega) hvalue).trans ?_
    push_cast
    ring

/-- **A word without a power of ten is scaled to a finite double.** -/
theorem scaled_finite (negative : Bool) {n : Nat} (hn : n ≤ maxCount) :
    ∃ m e, (⟨negative, n, 0⟩ : Decimal).scaled = finite negative m e := by
  have hword : (n / (1 : Nat) : ℚ) ≤ 2 ^ 64 := by
    rw [Nat.cast_one, div_one]
    exact_mod_cast hn.trans (Nat.sub_le _ _)
  obtain ⟨m, e, hnearest, hle⟩ := nearest_finite negative (by decide) (hword.trans (by norm_num))
  unfold scaled
  split
  · exact ⟨0, minExponent, rfl⟩
  · dsimp only
    rw [if_neg (by decide), if_pos (by decide), hnearest, Int.toNat_zero, timesPowerOfTen]
    have hquotient := times_quotient (m := m) (k := 0) (e := e) (by decide) rfl
    rw [pow_zero, mul_one] at hquotient
    obtain ⟨m', e', heq, -⟩ := nearest_finite negative (Nat.two_pow_pos _)
      (hquotient.le.trans (hle.trans ((mul_le_mul_of_nonneg_left hword (by norm_num)).trans (by norm_num))))
    exact ⟨m', e', heq⟩

end Decimal
end MatrixPlan
