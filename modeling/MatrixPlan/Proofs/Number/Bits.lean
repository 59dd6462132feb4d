import MatrixPlan.Proofs.Number.Intervals
/-!
# Bits — doubles and their sign, mantissa and exponent

The view of a double as a sign, a mantissa and a power of two loses nothing (`ofFloat_injective`), all patterns of `nan`
being one double, and its mantissas and exponents are canonical.
-/
namespace MatrixPlan
namespace Binary64

open Float.Model (UnpackedFloat Format)

theorem toNat_unpackMantissa (b : BitVec 64) :
    (@UnpackedFloat.unpackMantissa Format.binary64 b).toNat = b.toNat % 2 ^ 52 := by
  unfold UnpackedFloat.unpackMantissa
  simp [Format.binary64]

theorem toNat_unpackExponent (b : BitVec 64) :
    (@UnpackedFloat.unpackExponent Format.binary64 b).toNat = b.toNat / 2 ^ 52 % 2 ^ 11 := by
  unfold UnpackedFloat.unpackExponent
  simp [Format.binary64, Nat.shiftRight_eq_div_pow]

variable {w : UInt64} {negative : Bool} {m : Nat} {e : Int}

/-- What a pattern says: its first bit is the sign, the next eleven the exponent, the rest the mantissa. -/
theorem ofBits_cases (w : UInt64) :
    (w.toNat / 2 ^ 52 % 2048 = 2047 ∧ w.toNat % 2 ^ 52 = 0 ∧ ofBits w = infinite (decide (2 ^ 63 ≤ w.toNat))) ∨
    (w.toNat / 2 ^ 52 % 2048 = 2047 ∧ w.toNat % 2 ^ 52 ≠ 0 ∧ ofBits w = nan) ∨
    (w.toNat / 2 ^ 52 % 2048 = 0 ∧
      ofBits w = finite (decide (2 ^ 63 ≤ w.toNat)) (w.toNat % 2 ^ 52) minExponent) ∨
    (w.toNat / 2 ^ 52 % 2048 ≠ 2047 ∧ w.toNat / 2 ^ 52 % 2048 ≠ 0 ∧
      ofBits w = finite (decide (2 ^ 63 ≤ w.toNat)) (2 ^ 52 + w.toNat % 2 ^ 52)
        ((w.toNat / 2 ^ 52 % 2048 : Nat) - 1075)) := by
  unfold ofBits hiddenBit
  dsimp only
  by_cases hgreatest : w.toNat / 2 ^ 52 % 2048 = 2047
  · by_cases hfraction : w.toNat % 2 ^ 52 = 0
    · exact .inl ⟨hgreatest, hfraction, by rw [if_pos hgreatest, if_pos hfraction]⟩
    · exact .inr (.inl ⟨hgreatest, hfraction, by rw [if_pos hgreatest, if_neg hfraction]⟩)
  · by_cases hleast : w.toNat / 2 ^ 52 % 2048 = 0
    · exact .inr (.inr (.inl ⟨hleast, by rw [if_neg hgreatest, if_pos hleast]⟩))
    · exact .inr (.inr (.inr ⟨hgreatest, hleast, by rw [if_neg hgreatest, if_neg hleast]⟩))

theorem canonical_of_ofBits (h : ofBits w = finite negative m e) : Canonical m e := by
  rcases ofBits_cases w with ⟨-, -, hw⟩ | ⟨-, -, hw⟩ | ⟨-, hw⟩ | ⟨-, hb, hw⟩
  · cases hw.symm.trans h
  · cases hw.symm.trans h
  · cases hw.symm.trans h
    exact ⟨by omega, Int.le_refl _, .inr rfl⟩
  · cases hw.symm.trans h
    exact ⟨by omega, by unfold minExponent; omega, .inl (by omega)⟩

theorem le_maxExponent_of_ofBits (h : ofBits w = finite negative m e) : e ≤ maxExponent := by
  unfold maxExponent
  rcases ofBits_cases w with ⟨-, -, hw⟩ | ⟨-, -, hw⟩ | ⟨-, hw⟩ | ⟨hb, -, hw⟩
  · cases hw.symm.trans h
  · cases hw.symm.trans h
  · cases hw.symm.trans h
    decide
  · cases hw.symm.trans h
    omega

theorem toNat_signed {rest : Nat} (h : rest < 2 ^ 63) :
    (signed negative rest).toNat = (if negative then 2 ^ 63 else 0) + rest := by
  unfold signed
  rw [UInt64.toNat_ofNat']
  cases negative <;> simp only [Bool.false_eq_true, ↓reduceIte] <;> omega

/-- **A pattern other than those of `nan` is written back.** -/
theorem toBits_ofBits (h : ofBits w ≠ nan) : (ofBits w).toBits = w := by
  have hlt := w.toNat_lt
  have hsign : (if decide (2 ^ 63 ≤ w.toNat) then 2 ^ 63 else 0) + w.toNat % 2 ^ 63 = w.toNat := by
    simp only [decide_eq_true_eq]
    split <;> omega
  suffices hrest : (ofBits w).toBits = signed (decide (2 ^ 63 ≤ w.toNat)) (w.toNat % 2 ^ 63) by
    rw [hrest, ← UInt64.toNat_inj, toNat_signed (by omega), hsign]
  rcases ofBits_cases w with ⟨hb, hf, hw⟩ | ⟨-, -, hw⟩ | ⟨hb, hw⟩ | ⟨hb, hb', hw⟩
  · rw [hw, toBits, hiddenBit]
    exact congrArg (signed _) (by omega)
  · exact absurd hw h
  · rw [hw]
    unfold toBits hiddenBit
    dsimp only
    rw [if_pos (by omega)]
    exact congrArg (signed _) (by omega)
  · rw [hw]
    unfold toBits hiddenBit
    dsimp only
    rw [if_neg (by omega)]
    exact congrArg (signed _) (by omega)

/-- All patterns of `nan` being one double, it has one pattern. -/
theorem toBits_of_nan {x : Float} (h : ofFloat x = nan) : x.toBits = nan.toBits := by
  have hvalid := x.toModel.valid.eq_packedNaN
  rcases ofBits_cases x.toBits with ⟨-, -, hw⟩ | ⟨hb, hf, -⟩ | ⟨-, hw⟩ | ⟨-, -, hw⟩
  · cases hw.symm.trans h
  · rw [← UInt64.toBitVec_inj]
    refine (hvalid ?_ fun hzero => hf ?_).trans (by decide)
    · rw [← BitVec.toNat_inj, toNat_unpackExponent]
      exact hb
    · rw [← BitVec.toNat_inj, toNat_unpackMantissa] at hzero
      exact hzero
  · cases hw.symm.trans h
  · cases hw.symm.trans h

theorem toBits_ofFloat (x : Float) : (ofFloat x).toBits = x.toBits := by
  by_cases h : ofFloat x = nan
  · rw [h, toBits_of_nan h]
  · exact toBits_ofBits h

theorem float_toBits_injective : Function.Injective Float.toBits := by
  rintro ⟨⟨w, hw⟩⟩ ⟨⟨w', hw'⟩⟩ h
  cases (h : w = w')
  rfl

/-- **A double is told by its sign, mantissa and exponent.** -/
theorem ofFloat_injective : Function.Injective ofFloat := by
  intro x y h
  refine float_toBits_injective ?_
  rw [← toBits_ofFloat, ← toBits_ofFloat, h]

end Binary64
end MatrixPlan
