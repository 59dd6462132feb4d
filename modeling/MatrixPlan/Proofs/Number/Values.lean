import MatrixPlan.Proofs.Number.Counting
/-!
# Values — doubles that are not negative, as the numbers they are

A finite double with the sign of a positive number has a rational value (`HasValue`).  The operations of doubles make of
values the one that the exact result rounds to (`Rounds`), comparisons of doubles are those of their values, and a count
is read off the value.
-/
namespace MatrixPlan
namespace Binary64

open Float.Model (UnpackedFloat Format)
open Shortest (RoundsTo)

/-- **A double is a number**, which is not negative. -/
def HasValue (x : Float) (v : ℚ) : Prop := ∃ m e, ofFloat x = finite false m e ∧ (m * 2 ^ e : ℚ) = v

/-- **A number rounds to another**, the value of the double nearest to it. -/
def Rounds (q v : ℚ) : Prop := ∃ m e, Canonical m e ∧ RoundsTo q m e ∧ (m * 2 ^ e : ℚ) = v

variable {x y : Float} {q q' v v' w : ℚ} {m m' : Nat} {e e' : Int}

/-! ## Rounding -/

theorem HasValue.nonneg (h : HasValue x v) : 0 ≤ v := by
  obtain ⟨m, e, -, rfl⟩ := h
  positivity

theorem Rounds.nonneg (h : Rounds q v) : 0 ≤ v := by
  obtain ⟨m, e, -, -, rfl⟩ := h
  positivity

theorem HasValue.rounds (h : HasValue x v) : Rounds v v := by
  obtain ⟨m, e, hx, rfl⟩ := h
  exact ⟨m, e, canonical_of_ofBits hx, Shortest.roundsTo_self m e, rfl⟩

/-- **Greater numbers round to no lesser ones.** -/
theorem Rounds.mono (h : Rounds q v) (h' : Rounds q' v') (hle : q ≤ q') : v ≤ v' := by
  obtain ⟨m, e, hc, hq, rfl⟩ := h
  obtain ⟨m', e', hc', hq', rfl⟩ := h'
  by_contra hlt
  have hbetween : (m' * 2 ^ e' : ℚ) ≤ q := by
    by_contra hbelow
    exact hlt (hq.le_of_le hc hc' (not_le.1 hbelow).le)
  have hboth := (Shortest.roundsTo_self m' e').between hq' hbetween hle
  obtain ⟨rfl, rfl⟩ := hq.unique hc hc' hboth
  exact hlt le_rfl

theorem Rounds.unique (h : Rounds q v) (h' : Rounds q v') : v = v' :=
  le_antisymm (h.mono h' le_rfl) (h'.mono h le_rfl)

theorem Rounds.le_double (h : Rounds q v) (hq : 0 ≤ q) : v ≤ 2 * q := by
  obtain ⟨m, e, -, hrounds, rfl⟩ := h
  exact value_le_of_roundsTo hrounds hq

/-- What is at most `2^200` rounds to a finite double. -/
theorem exists_hasValue (h : ∃ m e, Canonical m e ∧ RoundsTo q m e ∧ ofFloat x =
      if maxExponent < e then infinite false else finite false m e) (hq : 0 ≤ q) (hle : q ≤ 2 ^ 200) :
    ∃ v, HasValue x v ∧ Rounds q v := by
  obtain ⟨m, e, hc, hrounds, hx⟩ := h
  have hmax : e ≤ maxExponent := by
    refine hc.le_maxExponent ((value_le_of_roundsTo hrounds hq).trans ?_)
    linarith
  rw [if_neg (by omega)] at hx
  exact ⟨_, ⟨m, e, hx, rfl⟩, m, e, hc, hrounds, rfl⟩

/-! ## Operations -/

theorem HasValue.mul (hx : HasValue x v) (hy : HasValue y w) (hle : v * w ≤ 2 ^ 200) :
    ∃ p, HasValue (x * y) p ∧ Rounds (v * w) p := by
  have hpos := mul_nonneg hx.nonneg hy.nonneg
  obtain ⟨m, e, hx, rfl⟩ := hx
  obtain ⟨m', e', hy, rfl⟩ := hy
  exact exists_hasValue (ofFloat_mul hx hy) hpos hle

theorem HasValue.div (hx : HasValue x v) (hy : HasValue y w) (hw : 0 < w) (hle : v / w ≤ 2 ^ 200) :
    ∃ p, HasValue (x / y) p ∧ Rounds (v / w) p := by
  have hpos := div_nonneg hx.nonneg hw.le
  obtain ⟨m, e, hx, rfl⟩ := hx
  obtain ⟨m', e', hy, rfl⟩ := hy
  have hm' : 0 < m' := by
    rcases Nat.eq_zero_or_pos m' with rfl | hm'
    · simp at hw
    · exact hm'
  exact exists_hasValue (ofFloat_div hx hy hm') hpos hle

theorem HasValue.sub (hx : HasValue x v) (hy : HasValue y w) (hle : w ≤ v) (hv : v ≤ 2 ^ 200) :
    ∃ p, HasValue (x - y) p ∧ Rounds (v - w) p := by
  have hw := hy.nonneg
  obtain ⟨m, e, hx, rfl⟩ := hx
  obtain ⟨m', e', hy, rfl⟩ := hy
  exact exists_hasValue (ofFloat_sub hx hy hle) (sub_nonneg.2 hle) (by linarith)

theorem exists_hasValue_toFloat (n : UInt64) : ∃ v, HasValue n.toFloat v ∧ Rounds n.toNat v := by
  obtain ⟨m, e, hc, hrounds, hn⟩ := ofFloat_toFloat n
  exact ⟨_, ⟨m, e, hn, rfl⟩, m, e, hc, hrounds, rfl⟩

theorem hasValue_zero : HasValue 0.0 0 := ⟨0, minExponent, rfl, by simp⟩

theorem hasValue_one : HasValue 1.0 1 := ⟨2 ^ 52, -52, rfl, by norm_num⟩

theorem HasValue.times_one (hx : HasValue x v) (hy : HasValue y 1) (hle : v ≤ 2 ^ 200) : HasValue (x * y) v := by
  obtain ⟨p, hp, hrounds⟩ := hx.mul hy (by rwa [mul_one])
  rw [mul_one] at hrounds
  rwa [hx.rounds.unique hrounds]

theorem HasValue.one_times (hx : HasValue x 1) (hy : HasValue y v) (hle : v ≤ 2 ^ 200) : HasValue (x * y) v := by
  obtain ⟨p, hp, hrounds⟩ := hx.mul hy (by rwa [one_mul])
  rw [one_mul] at hrounds
  rwa [hy.rounds.unique hrounds]

/-! ## Comparisons and counts -/

/-- **Doubles are ordered by their exponents first**, and by their mantissas where these are equal. -/
theorem Canonical.value_lt (h : Canonical m e) (h' : Canonical m' e') (hlt : e < e' ∨ e = e' ∧ m < m') :
    (m * 2 ^ e : ℚ) < m' * 2 ^ e' := by
  rcases hlt with he | ⟨rfl, hm⟩
  · have hmin := h.exponent
    have hm : (m : ℚ) < 2 ^ 53 := by exact_mod_cast h.mantissa
    have hm' : (2 ^ 52 : ℚ) ≤ m' := by exact_mod_cast h'.normal.resolve_right (by omega)
    calc (m * 2 ^ e : ℚ) < 2 ^ 53 * 2 ^ e := by gcongr
      _ = 2 ^ 52 * 2 ^ (e + 1) := by
        rw [zpow_add_one₀ (by norm_num)]
        ring
      _ ≤ m' * 2 ^ e' := by
        gcongr
        · norm_num
        · omega
  · have hm : (m : ℚ) < m' := by exact_mod_cast hm
    gcongr

theorem Canonical.value_lt_iff (h : Canonical m e) (h' : Canonical m' e') :
    (m * 2 ^ e : ℚ) < m' * 2 ^ e' ↔ e < e' ∨ e = e' ∧ m < m' := by
  refine ⟨fun hlt => ?_, h.value_lt h'⟩
  by_contra hnot
  rcases (show e' < e ∨ e' = e ∧ m' < m ∨ e = e' ∧ m = m' by omega) with hgt | hgt | ⟨rfl, rfl⟩
  · exact hlt.asymm (h'.value_lt h (.inl hgt))
  · exact hlt.asymm (h'.value_lt h (.inr hgt))
  · exact hlt.false

/-- **A comparison of doubles is that of their values.** -/
theorem HasValue.lt_iff (hx : HasValue x v) (hy : HasValue y w) : x < y ↔ v < w := by
  obtain ⟨m, e, hx, rfl⟩ := hx
  obtain ⟨m', e', hy, rfl⟩ := hy
  have hc := canonical_of_ofBits hx
  have hc' := canonical_of_ofBits hy
  rw [ofFloat_eq_view] at hx hy
  rw [float_lt_iff]
  rcases eq_of_view_positive hx with ⟨hu, rfl⟩ | ⟨hm, hu⟩ <;> rcases eq_of_view_positive hy with ⟨hu', rfl⟩ | ⟨hm', hu'⟩ <;>
    rw [hu, hu']
  · refine iff_of_false (fun h => nomatch show some Ordering.eq = some .lt from h) ?_
    rw [Nat.cast_zero, zero_mul, zero_mul]
    exact lt_irrefl 0
  · refine iff_of_true rfl ?_
    rw [Nat.cast_zero, zero_mul]
    positivity
  · refine iff_of_false (fun h => nomatch show some Ordering.gt = some .lt from h) (not_lt.2 ?_)
    rw [Nat.cast_zero, zero_mul]
    positivity
  · change some ((compare e e').then (compare m m')) = some .lt ↔ _
    rw [Option.some_inj, Ordering.then_eq_lt, compare_lt_iff_lt, compare_lt_iff_lt, compare_eq_iff_eq, hc.value_lt_iff hc']

/-- **The count of a double** is the whole number below its value and a half. -/
theorem HasValue.toNat_roundCount (hx : HasValue x v) : (roundCount x).toNat = min ⌊v + 1 / 2⌋₊ maxCount := by
  obtain ⟨m, e, hx, rfl⟩ := hx
  rw [roundCount, hx, toCount, toNat_clampCount, roundHalfUp_eq]

end Binary64
end MatrixPlan
