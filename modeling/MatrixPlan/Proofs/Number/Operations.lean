import MatrixPlan.Proofs.Number.Rounded
/-!
# Operations — the arithmetic of doubles rounds to the nearest double

Each operation of finite doubles makes a mantissa and an exponent of the exact result, or as much of it as is needed to
round it.  So the result is the double in whose interval the exact one lies: for products, for quotients, for differences
that are not negative, and for counts.
-/
namespace MatrixPlan
namespace Binary64

open Float.Model (UnpackedFloat Format totalExponent)
open Float.Model.UnpackedFloat (Sign accuracyOfFraction)
open Shortest (RoundsTo)

variable {m m' : Nat} {e e' : Int} {u : UnpackedFloat}

/-- What is viewed as finite has a sign, a mantissa and an exponent when it is unpacked, or is a zero. -/
theorem eq_of_view_finite {negative : Bool} (h : view u = finite negative m e) :
    ∃ s, isNegative s = negative ∧ (u = .zero s ∧ m = 0 ∨ ∃ hm : 0 < m, u = .finite s m e hm) := by
  cases u with
  | infinity s => cases h
  | notANumber => cases h
  | zero s =>
    cases h
    exact ⟨s, rfl, .inl ⟨rfl, rfl⟩⟩
  | finite s m e hm =>
    cases h
    exact ⟨s, rfl, .inr ⟨hm, rfl⟩⟩

theorem eq_of_view_positive (h : view u = finite false m e) :
    u = .zero .positive ∧ m = 0 ∨ ∃ hm : 0 < m, u = .finite .positive m e hm := by
  obtain ⟨s, hs, hu⟩ := eq_of_view_finite h
  cases s with
  | negative => cases hs
  | positive => exact hu

theorem float_lt_iff (x y : Float) : x < y ↔ x.toModel.unpack.compare y.toModel.unpack = some .lt := by
  change decide (x.toModel.unpack.lt y.toModel.unpack = true) = true ↔ _
  rw [decide_eq_true_iff, UnpackedFloat.lt, beq_iff_eq]

theorem isNegative_mul (s s' : Sign) : isNegative (s * s') = (isNegative s ^^ isNegative s') := by
  cases s <;> cases s' <;> rfl

theorem isNegative_div (s s' : Sign) : isNegative (s / s') = (isNegative s ^^ isNegative s') := by
  cases s <;> cases s' <;> rfl

/-- A product has no bits to spare: one of its factors has 53 bits, or both have the least exponent. -/
theorem Canonical.product_exponent_le (h : Canonical m e) (h' : Canonical m' e') (hm : 0 < m) (hm' : 0 < m') :
    e + e' ≤ max ((m * m' : Nat).log2 + (e + e') - 52) minExponent := by
  have hlog : 2 ^ 52 ≤ m * m' → 52 ≤ (m * m').log2 := fun hle => (Nat.le_log2 (Nat.mul_pos hm hm').ne').2 hle
  rcases h.normal with hnormal | rfl
  · have := hlog (hnormal.trans (Nat.le_mul_of_pos_right m hm'))
    omega
  · rcases h'.normal with hnormal' | rfl
    · have := hlog (hnormal'.trans (Nat.le_mul_of_pos_left m' hm))
      omega
    · exact le_max_of_le_right (by decide)

/-- **The product of two finite doubles is the double in whose interval the exact product lies.** -/
theorem ofFloat_mul {x y : Float} {negative negative' : Bool} (hx : ofFloat x = finite negative m e)
    (hy : ofFloat y = finite negative' m' e') :
    ∃ p f, Canonical p f ∧ RoundsTo (m * 2 ^ e * (m' * 2 ^ e')) p f ∧ ofFloat (x * y) =
      if maxExponent < f then infinite (negative ^^ negative') else finite (negative ^^ negative') p f := by
  have hc := canonical_of_ofBits hx
  have hc' := canonical_of_ofBits hy
  have hmul : ofFloat (x * y) = ofBits (.ofBitVec (UnpackedFloat.pack Format.binary64
      (.mul Format.binary64 x.toModel.unpack y.toModel.unpack))) := rfl
  rw [ofFloat_eq_view] at hx hy
  obtain ⟨s, rfl, hs⟩ := eq_of_view_finite hx
  obtain ⟨s', rfl, hs'⟩ := eq_of_view_finite hy
  rw [hmul, ← isNegative_mul]
  refine Rounded.pack ?_
  rcases hs with ⟨hu, rfl⟩ | ⟨hm, hu⟩
  · rw [Nat.cast_zero, zero_mul, zero_mul, hu]
    rcases hs' with ⟨hu', rfl⟩ | ⟨hm', hu'⟩ <;> rw [hu'] <;> exact rounded_zero _
  · rcases hs' with ⟨hu', rfl⟩ | ⟨hm', hu'⟩
    · rw [Nat.cast_zero, zero_mul, mul_zero, hu, hu']
      exact rounded_zero _
    · have hvalue : ((m * m' : Nat) * 2 ^ (e + e') : ℚ) = m * 2 ^ e * (m' * 2 ^ e') := by
        rw [zpow_add₀ (by norm_num)]
        push_cast
        ring
      rw [hu, hu', ← hvalue]
      exact rounded_exact _ (Nat.mul_pos hm hm') (hc.product_exponent_le hc' hm hm')

/-- No number stays no number in a product. -/
theorem ofFloat_nan_mul {x : Float} (y : Float) (hx : ofFloat x = nan) : ofFloat (x * y) = nan := by
  have hmul : ofFloat (x * y) = ofBits (.ofBitVec (UnpackedFloat.pack Format.binary64
      (.mul Format.binary64 x.toModel.unpack y.toModel.unpack))) := rfl
  have hnan : ∀ u, UnpackedFloat.mul Format.binary64 .notANumber u = .notANumber := fun u => by cases u <;> rfl
  rw [ofFloat_eq_view] at hx
  rw [hmul]
  cases hu : x.toModel.unpack with
  | notANumber =>
    rw [hnan]
    rfl
  | infinity | zero | finite =>
    rw [hu] at hx
    cases hx

/-- The exponent that a quotient is computed with gives it 53 bits, unless it is the least or that of the operands. -/
theorem divCore_eq (hm : 0 < m) (hm' : 0 < m') (e e' : Int) : ∃ k : Nat, ∃ f : Int, f + k = e - e' ∧
    f ≤ max ((m * 2 ^ k / m').log2 + f - 52) minExponent ∧ UnpackedFloat.divCore Format.binary64 m e m' e' =
      (m * 2 ^ k / m', f, accuracyOfFraction (m * 2 ^ k % m') m') := by
  have htarget : Format.binary64.targetExponent (totalExponent m e - totalExponent m' e') =
      max (m.log2 + e - (m'.log2 + e') - 53) minExponent := by
    unfold Format.targetExponent totalExponent minExponent
    change max ((m.log2 : Int) + 1 + e - (m'.log2 + 1 + e') - 53) (-1074) = _
    omega
  generalize hf : min (e - e') (max (m.log2 + e - (m'.log2 + e') - 53) minExponent) = f
  refine ⟨(e - e' - f).toNat, f, by omega, ?_, ?_⟩
  · by_cases hleast : f ≤ minExponent
    · exact le_max_of_le_right hleast
    · generalize hk : (e - e' - f).toNat = k
      have hbits : m'.log2 + 53 ≤ m.log2 + k := by omega
      have hquotient : 2 ^ 52 ≤ m * 2 ^ k / m' := by
        rw [Nat.le_div_iff_mul_le hm']
        calc 2 ^ 52 * m' ≤ 2 ^ 52 * 2 ^ (m'.log2 + 1) := Nat.mul_le_mul_left _ Nat.lt_log2_self.le
          _ = 2 ^ (m'.log2 + 53) := by rw [← Nat.pow_add, Nat.add_comm, Nat.add_assoc]
          _ ≤ 2 ^ (m.log2 + k) := Nat.pow_le_pow_right (by decide) hbits
          _ = 2 ^ m.log2 * 2 ^ k := Nat.pow_add _ _ _
          _ ≤ m * 2 ^ k := Nat.mul_le_mul_right _ (Nat.log2_self_le hm.ne')
      have := (Nat.le_log2 (Nat.pos_of_ne_zero (by omega)).ne').2 hquotient
      omega
  · unfold UnpackedFloat.divCore
    dsimp only
    rw [htarget, hf, Nat.shiftLeft_eq]

theorem scaled_ratio {f : Int} {k : Nat} (m : Nat) (hm' : 0 < m') (hk : f + k = e - e') :
    ((m * 2 ^ k : Nat) / m' * 2 ^ f : ℚ) = m * 2 ^ e / (m' * 2 ^ e') := by
  obtain rfl : e = f + k + e' := by omega
  rw [zpow_add₀ (by norm_num), zpow_add₀ (by norm_num), zpow_natCast]
  push_cast
  field_simp

/-- **The quotient of two finite doubles is the double in whose interval the exact quotient lies.** -/
theorem ofFloat_div {x y : Float} {negative negative' : Bool} (hx : ofFloat x = finite negative m e)
    (hy : ofFloat y = finite negative' m' e') (hm' : 0 < m') :
    ∃ p f, Canonical p f ∧ RoundsTo (m * 2 ^ e / (m' * 2 ^ e')) p f ∧ ofFloat (x / y) =
      if maxExponent < f then infinite (negative ^^ negative') else finite (negative ^^ negative') p f := by
  have hdiv : ofFloat (x / y) = ofBits (.ofBitVec (UnpackedFloat.pack Format.binary64
      (.div Format.binary64 x.toModel.unpack y.toModel.unpack))) := rfl
  rw [ofFloat_eq_view] at hx hy
  obtain ⟨s, rfl, hs⟩ := eq_of_view_finite hx
  obtain ⟨s', rfl, ⟨-, hzero⟩ | ⟨hm', hu'⟩⟩ := eq_of_view_finite hy
  · omega
  rw [hdiv, ← isNegative_div]
  refine Rounded.pack ?_
  rcases hs with ⟨hu, rfl⟩ | ⟨hm, hu⟩
  · rw [Nat.cast_zero, zero_mul, zero_div, hu, hu']
    exact rounded_zero _
  · obtain ⟨k, f, hk, hf, hcore⟩ := divCore_eq hm hm' e e'
    rw [hu, hu', ← scaled_ratio m hm' hk]
    unfold UnpackedFloat.div
    dsimp only
    rw [hcore]
    exact rounded_roundWithAccuracy _ (kept_fraction _ hm') (Nat.mul_pos hm (Nat.two_pow_pos k)) hm' hf

/-- A mantissa that is not negative is rounded with the sign of a positive number. -/
theorem rounded_normalize (n : Nat) (e : Int) :
    Rounded (.normalize Format.binary64 n e .positive) .positive (n * 2 ^ e) := by
  rw [UnpackedFloat.normalize]
  rcases Nat.eq_zero_or_pos n with rfl | hn
  · rw [Nat.cast_zero (R := ℚ), zero_mul]
    exact rounded_zero _
  · have hcompare : compare (n : Int) 0 = .gt := compare_gt_iff_gt.2 (by omega)
    rw [hcompare]
    exact rounded_round .positive hn e

theorem scaled_mantissa (m : Nat) (h : e' ≤ e) : ((m * 2 ^ (e - e').toNat : Nat) * 2 ^ e' : ℚ) = m * 2 ^ e := by
  obtain ⟨k, rfl⟩ := Int.le.dest h
  rw [show (e' + k - e').toNat = k by omega, zpow_add₀ (by norm_num), zpow_natCast]
  push_cast
  ring

/-- **A difference that is not negative is the double in whose interval the exact difference lies.** -/
theorem ofFloat_sub {x y : Float} (hx : ofFloat x = finite false m e) (hy : ofFloat y = finite false m' e')
    (hle : (m' * 2 ^ e' : ℚ) ≤ m * 2 ^ e) :
    ∃ p f, Canonical p f ∧ RoundsTo (m * 2 ^ e - m' * 2 ^ e') p f ∧ ofFloat (x - y) =
      if maxExponent < f then infinite false else finite false p f := by
  have hc := canonical_of_ofBits hx
  have hsub : ofFloat (x - y) = ofBits (.ofBitVec (UnpackedFloat.pack Format.binary64
      (.sub Format.binary64 x.toModel.unpack y.toModel.unpack))) := rfl
  rw [ofFloat_eq_view] at hx hy
  have hu := eq_of_view_positive hx
  have hu' := eq_of_view_positive hy
  rw [hsub]
  refine Rounded.pack (s := .positive) ?_
  rcases hu' with ⟨hu', rfl⟩ | ⟨hm', hu'⟩
  · rw [Nat.cast_zero, zero_mul, sub_zero]
    rcases hu with ⟨hu, rfl⟩ | ⟨hm, hu⟩
    · rw [hu, hu', Nat.cast_zero, zero_mul]
      exact rounded_zero .positive
    · refine ⟨m, e, hc, Shortest.roundsTo_self m e, ?_⟩
      rw [hu, hu', unpackedOf, dif_neg hm.ne']
      rfl
  · rcases hu with ⟨hu, rfl⟩ | ⟨hm, hu⟩
    · rw [Nat.cast_zero, zero_mul] at hle
      have : (0 : ℚ) < m' * 2 ^ e' := by positivity
      linarith
    · -- both mantissas in units of the lesser exponent
      rw [hu, hu']
      unfold UnpackedFloat.sub UnpackedFloat.decreaseExponent
      dsimp only [Sign.apply]
      rw [Nat.shiftLeft_eq, Nat.shiftLeft_eq]
      have hvalue := scaled_mantissa m (min_le_left e e')
      have hvalue' := scaled_mantissa m' (min_le_right e e')
      generalize m * 2 ^ (e - min e e').toNat = n at hvalue ⊢
      generalize m' * 2 ^ (e' - min e e').toNat = n' at hvalue' ⊢
      have hunit : (0 : ℚ) < 2 ^ min e e' := by positivity
      have hn : n' ≤ n := by
        rw [← hvalue, ← hvalue', mul_le_mul_iff_left₀ hunit] at hle
        exact_mod_cast hle
      have hsplit : (m * 2 ^ e - m' * 2 ^ e' : ℚ) = (n - n' : Nat) * 2 ^ min e e' := by
        rw [← hvalue, ← hvalue', Nat.cast_sub hn]
        ring
      rw [hsplit, ← Int.ofNat_sub hn]
      exact rounded_normalize _ _

/-- **A count as a double is the double in whose interval it lies.** -/
theorem ofFloat_toFloat (n : UInt64) :
    ∃ m e, Canonical m e ∧ RoundsTo n.toNat m e ∧ ofFloat n.toFloat = finite false m e := by
  have hpack : ofFloat n.toFloat = ofBits (.ofBitVec (UnpackedFloat.pack Format.binary64
      (.normalize Format.binary64 n.toNat 0 .positive))) := rfl
  obtain ⟨m, e, hc, hrounds, heq⟩ := (rounded_normalize n.toNat 0).pack
  rw [zpow_zero, mul_one] at hrounds
  have hmax : e ≤ maxExponent := by
    have hword : (n.toNat : ℚ) ≤ 2 ^ 64 := by exact_mod_cast n.toNat_lt.le
    refine hc.le_maxExponent ((value_le_of_roundsTo hrounds (by positivity)).trans ?_)
    linarith
  rw [if_neg (by omega)] at heq
  exact ⟨m, e, hc, hrounds, hpack.trans heq⟩

end Binary64
end MatrixPlan
