import MatrixPlan.Proofs.Number.Bits
/-!
# Packing — doubles are packed as they were unpacked

The components of a pattern are its sign, exponent and mantissa in turn, so a pattern is packed again as it was unpacked,
and the view of a double gives the double back (`toFloat_ofFloat`).
-/
namespace MatrixPlan
namespace Binary64

open Float.Model (UnpackedFloat Format)
open Float.Model.UnpackedFloat (Sign packComponents unpackSign unpackExponent unpackMantissa)

def isNegative : Sign → Bool
  | .negative => true
  | .positive => false

/-- **The number of a pattern** that is put together from its components. -/
theorem toNat_packComponents (s : Sign) (exponent : BitVec 11) (mantissa : BitVec 52) :
    (packComponents Format.binary64 s exponent mantissa).toNat =
      (if isNegative s then 2 ^ 63 else 0) + exponent.toNat * 2 ^ 52 + mantissa.toNat := by
  have he := exponent.isLt
  have hm := mantissa.isLt
  have hse : (s.toBitVec ++ exponent).toNat = (if isNegative s then 2 ^ 11 else 0) + exponent.toNat := by
    rw [BitVec.toNat_append, ← Nat.shiftLeft_add_eq_or_of_lt he]
    cases s <;> rfl
  change (s.toBitVec ++ exponent ++ mantissa).toNat = _
  rw [BitVec.toNat_append, ← Nat.shiftLeft_add_eq_or_of_lt hm, hse, Nat.shiftLeft_eq]
  split <;> omega

theorem toNat_unpackSign (b : BitVec 64) : (@unpackSign Format.binary64 b).toNat = b.toNat / 2 ^ 63 := by
  have hlt := b.isLt
  unfold unpackSign
  simp [Format.binary64, Nat.shiftRight_eq_div_pow]
  omega

theorem isNegative_unpackSign (b : BitVec 64) :
    isNegative (.ofBitVec (@unpackSign Format.binary64 b)) = decide (2 ^ 63 ≤ b.toNat) := by
  have hlt := b.isLt
  have hsign := toNat_unpackSign b
  unfold Sign.ofBitVec
  split
  · rename_i hzero
    rw [hzero, BitVec.toNat_ofNat] at hsign
    exact (decide_eq_false (by omega)).symm
  · rename_i hne
    have hpos : (@unpackSign Format.binary64 b).toNat ≠ 0 := fun h => hne (BitVec.eq_of_toNat_eq h)
    exact (decide_eq_true (by omega)).symm

/-- **A pattern is put together again from its components.** -/
theorem packComponents_unpack (b : BitVec 64) :
    packComponents Format.binary64 (.ofBitVec (@unpackSign Format.binary64 b)) (@unpackExponent Format.binary64 b)
      (@unpackMantissa Format.binary64 b) = b := by
  have hlt := b.isLt
  rw [← BitVec.toNat_inj, toNat_packComponents, toNat_unpackExponent, toNat_unpackMantissa, isNegative_unpackSign]
  simp only [decide_eq_true_eq]
  split <;> omega

/-- A mantissa of 53 bits is packed without its first one. -/
theorem pack_normal {s : Sign} {m : Nat} {e : Int} (hm : 0 < m) (hlow : 2 ^ 52 ≤ m) (hhigh : m < 2 ^ 53)
    (hmin : minExponent ≤ e) (hmax : e ≤ maxExponent) :
    UnpackedFloat.pack Format.binary64 (.finite s m e hm) =
      packComponents Format.binary64 s (BitVec.ofNat 11 (e + 1075).toNat) (BitVec.ofNat 52 m) := by
  have hlog : m.log2 = 52 := (Nat.log2_eq_iff (by omega)).2 ⟨hlow, hhigh⟩
  have hbiased : (e + Format.binary64.exponentBias + Format.binary64.mantissaBitsWithoutImplicit).toNat =
      (e + 1075).toNat := by
    change (e + 1023 + 52).toNat = _
    omega
  unfold minExponent at hmin
  unfold maxExponent at hmax
  unfold UnpackedFloat.pack
  dsimp only
  rw [hbiased, if_neg (by change ¬ 2048 ≤ _; omega), hlog]
  rfl

/-- A mantissa of fewer bits is packed with the least exponent. -/
theorem pack_subnormal {s : Sign} {m : Nat} (hm : 0 < m) (hhigh : m < 2 ^ 52) :
    UnpackedFloat.pack Format.binary64 (.finite s m minExponent hm) =
      packComponents Format.binary64 s 0#11 (BitVec.ofNat 52 m) := by
  have hlog : m.log2 < 52 := (Nat.log2_lt (by omega)).2 hhigh
  unfold UnpackedFloat.pack
  dsimp only
  rw [if_neg (by decide), if_neg (by change ¬ m.log2 + 1 = 53; omega)]

/-- **A pattern is packed as it was unpacked**, if it is the one of `nan` or another number's. -/
theorem pack_unpack {b : BitVec 64} (h : Format.binary64.Valid b) :
    UnpackedFloat.pack Format.binary64 (UnpackedFloat.unpack Format.binary64 b) = b := by
  have hcomponents := packComponents_unpack b
  have hexponent := (@unpackExponent Format.binary64 b).isLt
  have hmantissa := (@unpackMantissa Format.binary64 b).isLt
  unfold UnpackedFloat.unpack
  dsimp only
  by_cases hgreatest : @unpackExponent Format.binary64 b = -1#11
  · rw [if_pos hgreatest]
    by_cases hzero : @unpackMantissa Format.binary64 b = 0#52
    · rw [if_pos hzero]
      rw [hgreatest, hzero] at hcomponents
      exact hcomponents
    · rw [if_neg hzero]
      exact (h.eq_packedNaN hgreatest hzero).symm
  · rw [if_neg hgreatest]
    by_cases hleast : @unpackExponent Format.binary64 b = 0#11
    · rw [if_pos hleast]
      by_cases hzero : @unpackMantissa Format.binary64 b = 0#52
      · rw [dif_pos hzero]
        rw [hleast, hzero] at hcomponents
        exact hcomponents
      · have hpos : 0 < (@unpackMantissa Format.binary64 b).toNat := by simpa [BitVec.toNat_pos, BitVec.pos_iff_ne_zero]
        rw [dif_neg hzero]
        rw [hleast] at hcomponents ⊢
        exact (pack_subnormal hpos hmantissa).trans (by rw [BitVec.ofNat_toNat, BitVec.setWidth_eq, hcomponents])
    · rw [if_neg hleast]
      have hpos : (@unpackExponent Format.binary64 b).toNat ≠ 0 := fun hzero => hleast (BitVec.eq_of_toNat_eq hzero)
      have hlt : (@unpackExponent Format.binary64 b).toNat ≠ 2047 := fun hall => hgreatest (BitVec.eq_of_toNat_eq hall)
      have hm : (1#1 ++ @unpackMantissa Format.binary64 b).toNat = 2 ^ 52 + (@unpackMantissa Format.binary64 b).toNat := by
        rw [BitVec.toNat_append, ← Nat.shiftLeft_add_eq_or_of_lt hmantissa]
        rfl
      have hbias : (Format.binary64.exponentBias : Int) + Format.binary64.mantissaBitsWithoutImplicit = 1075 := rfl
      change _ < 2 ^ 11 at hexponent
      change _ < 2 ^ 52 at hmantissa
      refine (pack_normal _ (by rw [hm]; omega) (by rw [hm]; omega) ?_ ?_).trans ?_
      · rw [hbias]
        unfold minExponent
        omega
      · rw [hbias]
        unfold maxExponent
        omega
      · rw [hbias, Int.sub_add_cancel, Int.toNat_natCast, BitVec.ofNat_toNat, BitVec.setWidth_eq]
        have hfraction : BitVec.ofNat 52 (1#1 ++ @unpackMantissa Format.binary64 b).toNat =
            @unpackMantissa Format.binary64 b := by
          rw [← BitVec.toNat_inj, BitVec.toNat_ofNat, hm]
          omega
        rw [hfraction, hcomponents]

theorem ofBits_toBits (x : Float) : Float.ofBits x.toBits = x := by
  refine float_toBits_injective ?_
  change UInt64.ofBitVec
    (UnpackedFloat.pack Format.binary64 (UnpackedFloat.unpack Format.binary64 x.toModel.toBits.toBitVec)) = _
  rw [pack_unpack x.toModel.valid]
  rfl

/-- **A pattern says what its components say.** -/
theorem ofBits_packComponents (s : Sign) (exponent : BitVec 11) (mantissa : BitVec 52) :
    ofBits (.ofBitVec (packComponents Format.binary64 s exponent mantissa)) =
      if exponent.toNat = 2047 then if mantissa.toNat = 0 then infinite (isNegative s) else nan
      else if exponent.toNat = 0 then finite (isNegative s) mantissa.toNat minExponent
      else finite (isNegative s) (hiddenBit + mantissa.toNat) (exponent.toNat - 1075) := by
  have he := exponent.isLt
  have hm := mantissa.isLt
  have hw : (UInt64.ofBitVec (packComponents Format.binary64 s exponent mantissa)).toNat =
      (if isNegative s then 2 ^ 63 else 0) + exponent.toNat * 2 ^ 52 + mantissa.toNat :=
    toNat_packComponents s exponent mantissa
  generalize UInt64.ofBitVec (packComponents Format.binary64 s exponent mantissa) = w at hw ⊢
  have hsign : decide (2 ^ 63 ≤ w.toNat) = isNegative s := by
    cases hs : isNegative s
    · rw [hs, if_neg Bool.false_ne_true] at hw
      exact decide_eq_false (by omega)
    · rw [hs, if_pos rfl] at hw
      exact decide_eq_true (by omega)
  have hexponent : w.toNat / hiddenBit % 2048 = exponent.toNat := by
    rw [hiddenBit]
    split at hw <;> omega
  have hmantissa : w.toNat % hiddenBit = mantissa.toNat := by
    rw [hiddenBit]
    split at hw <;> omega
  rw [ofBits, hsign, hexponent, hmantissa]

/-- An unpacked double in the view of bits. -/
def view : UnpackedFloat → Binary64
  | .notANumber => nan
  | .infinity s => infinite (isNegative s)
  | .zero s => finite (isNegative s) 0 minExponent
  | .finite s m e _ => finite (isNegative s) m e

/-- **A double is viewed as it is unpacked.** -/
theorem ofFloat_eq_view (x : Float) : ofFloat x = view x.toModel.unpack := by
  have hb : ofFloat x = ofBits (.ofBitVec x.toBits.toBitVec) := rfl
  have hu : x.toModel.unpack = UnpackedFloat.unpack Format.binary64 x.toBits.toBitVec := rfl
  rw [hb, hu]
  generalize x.toBits.toBitVec = b
  have hgreatest : @unpackExponent Format.binary64 b = -1#11 ↔ (@unpackExponent Format.binary64 b).toNat = 2047 :=
    BitVec.toNat_inj.symm
  have hleast : @unpackExponent Format.binary64 b = 0#11 ↔ (@unpackExponent Format.binary64 b).toNat = 0 :=
    BitVec.toNat_inj.symm
  have hmantissa : @unpackMantissa Format.binary64 b = 0#52 ↔ (@unpackMantissa Format.binary64 b).toNat = 0 :=
    BitVec.toNat_inj.symm
  have hbits := ofBits_packComponents (.ofBitVec (@unpackSign Format.binary64 b)) (@unpackExponent Format.binary64 b)
    (@unpackMantissa Format.binary64 b)
  rw [packComponents_unpack] at hbits
  rw [hbits]
  unfold UnpackedFloat.unpack
  dsimp only
  by_cases hg : @unpackExponent Format.binary64 b = -1#11
  · rw [if_pos hg, if_pos (hgreatest.1 hg)]
    by_cases hzero : @unpackMantissa Format.binary64 b = 0#52
    · rw [if_pos hzero, if_pos (hmantissa.1 hzero)]
      rfl
    · rw [if_neg hzero, if_neg (mt hmantissa.2 hzero)]
      rfl
  · rw [if_neg hg, if_neg (mt hgreatest.2 hg)]
    by_cases hl : @unpackExponent Format.binary64 b = 0#11
    · rw [if_pos hl, if_pos (hleast.1 hl)]
      by_cases hzero : @unpackMantissa Format.binary64 b = 0#52
      · rw [dif_pos hzero, hmantissa.1 hzero]
        rfl
      · rw [dif_neg hzero]
        exact congrArg (finite _ _) (hl ▸ rfl)
    · have hm : (1#1 ++ @unpackMantissa Format.binary64 b).toNat =
          hiddenBit + (@unpackMantissa Format.binary64 b).toNat := by
        rw [BitVec.toNat_append, ← Nat.shiftLeft_add_eq_or_of_lt (@unpackMantissa Format.binary64 b).isLt]
        rfl
      rw [if_neg hl, if_neg (mt hleast.2 hl), ← hm]
      rfl

/-- **A mantissa and an exponent are packed as the double that they are**, or as infinite. -/
theorem ofBits_pack {s : Sign} {m : Nat} {e : Int} (hm : 0 < m) (hc : Canonical m e) :
    ofBits (.ofBitVec (UnpackedFloat.pack Format.binary64 (.finite s m e hm))) =
      if maxExponent < e then infinite (isNegative s) else finite (isNegative s) m e := by
  have hmin := hc.exponent
  have hlt := hc.mantissa
  by_cases hmax : maxExponent < e
  · have hpack : UnpackedFloat.pack Format.binary64 (.finite s m e hm) = packComponents Format.binary64 s (-1#11) 0#52 := by
      unfold maxExponent at hmax
      unfold UnpackedFloat.pack
      dsimp only
      refine if_pos ?_
      change 2048 ≤ (e + 1023 + 52).toNat + 1
      omega
    rw [hpack, ofBits_packComponents, if_pos hmax]
    rfl
  · rw [if_neg hmax]
    by_cases hlow : 2 ^ 52 ≤ m
    · have hbiased : (BitVec.ofNat 11 (e + 1075).toNat).toNat = (e + 1075).toNat := by
        unfold maxExponent at hmax
        rw [BitVec.toNat_ofNat]
        omega
      have hfraction : (BitVec.ofNat 52 m).toNat = m - 2 ^ 52 := by
        rw [BitVec.toNat_ofNat]
        omega
      unfold minExponent at hmin
      unfold maxExponent at hmax
      have hexponent : ((e + 1075).toNat : Int) - 1075 = e := by omega
      rw [pack_normal hm hlow hlt hmin (by unfold maxExponent; omega), ofBits_packComponents, hbiased, hfraction,
        if_neg (by omega), if_neg (by omega), hiddenBit, Nat.add_sub_cancel' hlow, hexponent]
    · obtain rfl := hc.normal.resolve_left hlow
      have hfraction : (BitVec.ofNat 52 m).toNat = m := by
        rw [BitVec.toNat_ofNat]
        omega
      rw [pack_subnormal hm (by omega), ofBits_packComponents, hfraction, if_neg (by decide), if_pos (by decide)]

/-- A double is finite when its exponent is not the greatest. -/
theorem isFinite_unpack (b : BitVec 64) :
    (UnpackedFloat.unpack Format.binary64 b).isFinite = true ↔ b.toNat / 2 ^ 52 % 2 ^ 11 ≠ 2047 := by
  have hgreatest : @unpackExponent Format.binary64 b = -1#11 ↔ b.toNat / 2 ^ 52 % 2 ^ 11 = 2047 := by
    rw [← toNat_unpackExponent]
    exact BitVec.toNat_inj.symm
  rw [ne_eq, ← hgreatest]
  unfold UnpackedFloat.unpack
  dsimp only
  by_cases h : @unpackExponent Format.binary64 b = -1#11
  · rw [if_pos h]
    split <;> exact iff_of_false Bool.noConfusion (fun hne => hne h)
  · rw [if_neg h]
    refine iff_of_true ?_ h
    by_cases hleast : @unpackExponent Format.binary64 b = 0#11
    · rw [if_pos hleast]
      by_cases hzero : @unpackMantissa Format.binary64 b = 0#52
      · rw [dif_pos hzero]
        rfl
      · rw [dif_neg hzero]
        rfl
    · rw [if_neg hleast]
      rfl

/-- **A finite double is viewed as one.** -/
theorem isFinite_iff (x : Float) : x.isFinite = true ↔ ∃ s m e, ofFloat x = finite s m e := by
  have hexponent : x.isFinite = true ↔ x.toBits.toNat / 2 ^ 52 % 2 ^ 11 ≠ 2047 := isFinite_unpack x.toModel.toBits.toBitVec
  rw [hexponent, ofFloat]
  rcases ofBits_cases x.toBits with ⟨hb, -, hw⟩ | ⟨hb, -, hw⟩ | ⟨hb, hw⟩ | ⟨hb, -, hw⟩
  · exact iff_of_false (fun h => h hb) (fun ⟨_, _, _, h⟩ => nomatch hw.symm.trans h)
  · exact iff_of_false (fun h => h hb) (fun ⟨_, _, _, h⟩ => nomatch hw.symm.trans h)
  · exact iff_of_true (fun h => by omega) ⟨_, _, _, hw⟩
  · exact iff_of_true hb ⟨_, _, _, hw⟩

/-- **The view of a double gives the double back.** -/
theorem toFloat_ofFloat (x : Float) : (ofFloat x).toFloat = x := by
  rw [toFloat, toBits_ofFloat, ofBits_toBits]

end Binary64
end MatrixPlan
