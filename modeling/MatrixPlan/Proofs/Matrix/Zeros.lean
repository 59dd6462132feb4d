import MatrixPlan.Matrix.Dense
import MatrixPlan.Proofs.Number.Bits
/-!
# Zeros — which doubles count as zero

A cell is zero when its double is one of the two zeros, whatever the sign; no other pattern of bits is, so neither is
`nan`.
-/
namespace MatrixPlan

open Float.Model

/-- The patterns of the zeros have nothing but their sign bit. -/
theorem unpack_eq_zero_iff (b : BitVec 64) :
    (∃ sign, UnpackedFloat.unpack Format.binary64 b = .zero sign) ↔ b.toNat % 2 ^ 63 = 0 := by
  have hmantissa : @UnpackedFloat.unpackMantissa Format.binary64 b = 0#52 ↔ b.toNat % 2 ^ 52 = 0 := by
    rw [← Binary64.toNat_unpackMantissa]
    exact BitVec.toNat_inj.symm
  have hleast : @UnpackedFloat.unpackExponent Format.binary64 b = 0#11 ↔ b.toNat / 2 ^ 52 % 2 ^ 11 = 0 := by
    rw [← Binary64.toNat_unpackExponent]
    exact BitVec.toNat_inj.symm
  have hgreatest : @UnpackedFloat.unpackExponent Format.binary64 b = -1#11 ↔
      b.toNat / 2 ^ 52 % 2 ^ 11 = 2 ^ 11 - 1 := by
    rw [← Binary64.toNat_unpackExponent]
    exact BitVec.toNat_inj.symm
  unfold UnpackedFloat.unpack
  dsimp only
  by_cases hg : @UnpackedFloat.unpackExponent Format.binary64 b = -1#11
  · have hne : ¬ b.toNat % 2 ^ 63 = 0 := by
      have := hgreatest.1 hg
      omega
    rw [if_pos hg]
    split <;> exact iff_of_false (fun ⟨_, h⟩ => nomatch h) hne
  · rw [if_neg hg]
    by_cases hl : @UnpackedFloat.unpackExponent Format.binary64 b = 0#11
    · rw [if_pos hl]
      have hexponent := hleast.1 hl
      by_cases hz : @UnpackedFloat.unpackMantissa Format.binary64 b = 0#52
      · have hzero := hmantissa.1 hz
        rw [dif_pos hz]
        exact iff_of_true ⟨_, rfl⟩ (by omega)
      · have hnonzero := mt hmantissa.2 hz
        rw [dif_neg hz]
        exact iff_of_false (fun ⟨_, h⟩ => nomatch h) (by omega)
    · have hnormal := mt hleast.2 hl
      rw [if_neg hl]
      exact iff_of_false (fun ⟨_, h⟩ => nomatch h) (by omega)

namespace Dense

theorem isNonzero_eq_false_iff (x : Float) : isNonzero x = false ↔ ∃ sign, x.toModel.unpack = .zero sign := by
  have hzero : (0.0 : Float).toModel.unpack = .zero .positive := rfl
  change (!(x.toModel.unpack.beq (0.0 : Float).toModel.unpack)) = false ↔ _
  rw [hzero]
  cases x.toModel.unpack with
  | infinity sign => cases sign <;> exact iff_of_false Bool.noConfusion (fun ⟨_, h⟩ => nomatch h)
  | notANumber => exact iff_of_false Bool.noConfusion (fun ⟨_, h⟩ => nomatch h)
  | zero sign => exact iff_of_true rfl ⟨sign, rfl⟩
  | finite sign => cases sign <;> exact iff_of_false Bool.noConfusion (fun ⟨_, h⟩ => nomatch h)

/-- **All doubles but the two zeros are non-zero.** -/
theorem isNonzero_iff (x : Float) : isNonzero x = true ↔ x.toBits ≠ 0 ∧ x.toBits ≠ 0x8000000000000000 := by
  have hlt := x.toBits.toNat_lt
  have hbits : x.toBits.toNat % 2 ^ 63 = 0 ↔ x.toBits = 0 ∨ x.toBits = 0x8000000000000000 := by
    rw [← UInt64.toNat_inj, ← UInt64.toNat_inj]
    change _ ↔ x.toBits.toNat = 0 ∨ x.toBits.toNat = 2 ^ 63
    omega
  have hzero : isNonzero x = false ↔ x.toBits.toNat % 2 ^ 63 = 0 :=
    (isNonzero_eq_false_iff x).trans (unpack_eq_zero_iff x.toBits.toBitVec)
  rw [← Bool.not_eq_false, hzero, hbits, not_or]

theorem isNonzero_of_isNaN {x : Float} (h : x.isNaN = true) : isNonzero x = true := by
  rw [← Bool.not_eq_false, isNonzero_eq_false_iff]
  rintro ⟨sign, hzero⟩
  change x.toModel.unpack.isNaN = true at h
  rw [hzero] at h
  cases h

example : isNonzero (-0.0) = false := rfl

end Dense
end MatrixPlan
