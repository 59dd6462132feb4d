import Std.Data.String.ToNat
import MatrixPlan.Graph.Literal
import MatrixPlan.Number.Decimal
import MatrixPlan.Proofs.Number.Bits
import MatrixPlan.Proofs.Text.Cut
/-!
# Positional — doubles that are written without a power of ten

Digits that are set positionally keep their value, so the text of a double has a value that rounds to it, and no other
double has this text.
-/
namespace MatrixPlan

open Binary64 (Canonical)
open Shortest (RoundsTo)

namespace FloatLayout

/-- **Digits on both sides of a point.** -/
structure Point (whole fraction : List Char) : Prop where
  nonempty : whole ≠ []
  whole_digits : ∀ c ∈ whole, c.isDigit = true
  fraction_digits : ∀ c ∈ fraction, c.isDigit = true

/-- The value of digits with a point among them. -/
def pointValue (whole fraction : List Char) : ℚ :=
  Decimal.ofDigits (whole ++ fraction) * 10 ^ (-(fraction.length : ℤ))

theorem ofDigits_append_zeros (ds : List Char) (n : Nat) :
    Decimal.ofDigits (ds ++ List.replicate n '0') = Decimal.ofDigits ds * 10 ^ n := by
  rw [Decimal.ofDigits, Nat.ofDigitChars_append, Nat.ofDigitChars_replicate_zero, Nat.mul_comm]
  rfl

theorem ofDigits_zeros_append (ds : List Char) (n : Nat) :
    Decimal.ofDigits (List.replicate n '0' ++ ds) = Decimal.ofDigits ds := by
  rw [Decimal.ofDigits, Nat.ofDigitChars_append, Nat.ofDigitChars_replicate_zero, Nat.mul_zero]
  rfl

/-- **Positional text has a point among its digits and keeps their value.**  There are digits on both sides, and those in
front start as the given ones do unless they are a single zero. -/
theorem positionalText_eq (ds : List Char) (hds : ∀ c ∈ ds, c.isDigit = true) (hne : ds ≠ []) (k : Int) :
    ∃ whole fraction, positionalText ds k = whole ++ '.' :: fraction ∧ Point whole fraction ∧
      pointValue whole fraction = Decimal.ofDigits ds * 10 ^ k ∧
      fraction ≠ [] ∧ (whole = ['0'] ∨ whole.head? = ds.head?) := by
  have hzeros : ∀ n, ∀ c ∈ List.replicate n '0', c.isDigit = true := fun n c hc => by
    rw [List.eq_of_mem_replicate hc]
    rfl
  unfold positionalText
  split
  · rename_i hk
    obtain ⟨n, rfl⟩ := Int.eq_ofNat_of_zero_le hk
    refine ⟨ds ++ List.replicate n '0', ['0'], by simp, ⟨by simp [hne], ?_, hzeros 1⟩, ?_, List.cons_ne_nil _ _,
      .inr (List.head?_append_of_ne_nil _ hne)⟩
    · intro c hc
      exact (List.mem_append.1 hc).elim (hds c) (hzeros n c)
    · have hone : ds ++ List.replicate n '0' ++ ['0'] = ds ++ List.replicate (n + 1) '0' := by
        rw [List.replicate_succ', List.append_assoc]
      rw [pointValue, hone, ofDigits_append_zeros]
      push_cast
      rw [zpow_natCast, pow_succ, List.length_singleton, zpow_neg, Nat.cast_one, zpow_one, ← mul_assoc,
        mul_inv_cancel_right₀ (by norm_num)]
  · rename_i hk
    obtain ⟨n, rfl⟩ := Int.exists_eq_neg_ofNat (a := k) (by omega)
    simp only [neg_neg, Int.toNat_natCast]
    split
    · rename_i hlt
      have htake : 0 < ds.length - n := by omega
      refine ⟨ds.take (ds.length - n), ds.drop (ds.length - n), rfl, ⟨?_, ?_, ?_⟩, ?_, ?_, .inr ?_⟩
      · rw [ne_eq, List.take_eq_nil_iff]
        rintro (hzero | hnil)
        · omega
        · exact hne hnil
      · exact fun c hc => hds c (List.mem_of_mem_take hc)
      · exact fun c hc => hds c (List.mem_of_mem_drop hc)
      · rw [pointValue, List.take_append_drop, List.length_drop]
        congr
        omega
      · rw [ne_eq, List.drop_eq_nil_iff]
        omega
      · rw [List.head?_take, if_neg (by omega)]
    · rename_i hge
      refine ⟨['0'], List.replicate (n - ds.length) '0' ++ ds, rfl, ⟨by simp, hzeros 1, ?_⟩, ?_, by simp [hne], .inl rfl⟩
      · intro c hc
        exact (List.mem_append.1 hc).elim (hzeros _ c) (hds c)
      · have hone : ['0'] ++ (List.replicate (n - ds.length) '0' ++ ds) = List.replicate (n - ds.length + 1) '0' ++ ds := rfl
        rw [pointValue, hone, ofDigits_zeros_append, List.length_append, List.length_replicate]
        congr
        omega

/-- **The text of a magnitude has a value that rounds to it**, if all of them are written positionally. -/
theorem magnitude_eq (layout : FloatLayout) (hlayout : layout.positional = none) (m : Nat) (e : Int) :
    ∃ whole fraction, layout.magnitude m e = whole ++ '.' :: fraction ∧ Point whole fraction ∧
      RoundsTo (pointValue whole fraction) m e := by
  unfold magnitude
  split
  · rename_i hm
    subst hm
    refine ⟨['0'], ['0'], rfl, ⟨by simp, by simp, by simp⟩, ?_⟩
    have hzero : pointValue ['0'] ['0'] = (0 : Nat) * 2 ^ e := by
      rw [pointValue, show Decimal.ofDigits (['0'] ++ ['0']) = 0 from rfl, Nat.cast_zero, zero_mul, zero_mul]
    rw [hzero]
    exact Shortest.roundsTo_self 0 e
  · have hall : layout.isPositional ((Shortest.digits layout.tie m e).exponent +
        (numeral (Shortest.digits layout.tie m e).digits).length - 1) = true := by rw [isPositional, hlayout]
    dsimp only
    rw [if_pos hall]
    obtain ⟨whole, fraction, htext, hpoint, hvalue, -⟩ := positionalText_eq
      (numeral (Shortest.digits layout.tie m e).digits)
      (fun c hc => Nat.isDigit_of_mem_toDigits (by decide) (by decide) hc) Nat.toDigits_ne_nil
      (Shortest.digits layout.tie m e).exponent
    refine ⟨whole, fraction, htext, hpoint, ?_⟩
    rw [hvalue, Decimal.ofDigits, numeral, Nat.ofDigitChars_ten_toDigits]
    exact Shortest.digits_roundsTo layout.tie m e

/-- **No other magnitude has the same text.** -/
theorem magnitude_unique {layout : FloatLayout} (hlayout : layout.positional = none) {m m' : Nat} {e e' : Int}
    (hc : Canonical m e) (hc' : Canonical m' e') (h : layout.magnitude m e = layout.magnitude m' e') :
    m = m' ∧ e = e' := by
  obtain ⟨whole, fraction, htext, hpoint, hx⟩ := magnitude_eq layout hlayout m e
  obtain ⟨whole', fraction', htext', hpoint', hx'⟩ := magnitude_eq layout hlayout m' e'
  rw [htext, htext'] at h
  obtain ⟨rfl, rfl⟩ := Text.cut_at hpoint.whole_digits hpoint'.whole_digits (by rfl) h
  exact hx.unique hc hc' hx'

theorem magnitude_head (layout : FloatLayout) (hlayout : layout.positional = none) (m : Nat) (e : Int) :
    ∃ c cs, layout.magnitude m e = c :: cs ∧ c.isDigit = true := by
  obtain ⟨whole, fraction, htext, hpoint, -⟩ := magnitude_eq layout hlayout m e
  obtain ⟨c, cs, rfl⟩ := List.exists_cons_of_ne_nil hpoint.nonempty
  exact ⟨c, _, htext, hpoint.whole_digits c List.mem_cons_self⟩

end FloatLayout

open FloatLayout

/-- The text of a double without its sign. -/
def unsignedChars : Binary64 → List Char
  | .nan => ['N', 'a', 'N']
  | .infinite _ => ['I', 'n', 'f']
  | .finite _ m e => scriptLayout.magnitude m e

def signChars : Binary64 → List Char
  | .infinite true | .finite true _ _ => ['-']
  | _ => []

theorem scriptLayout_chars (x : Binary64) : scriptLayout.chars x = signChars x ++ unsignedChars x := by
  rcases x with _ | ⟨_ | _⟩ | ⟨_ | _, m, e⟩ <;> rfl

theorem unsignedChars_head (x : Binary64) :
    ∃ c cs, unsignedChars x = c :: cs ∧ (c = 'N' ∨ c = 'I' ∨ c.isDigit = true) := by
  cases x with
  | nan => exact ⟨_, _, rfl, .inl rfl⟩
  | infinite => exact ⟨_, _, rfl, .inr (.inl rfl)⟩
  | finite s m e =>
    obtain ⟨c, cs, htext, hc⟩ := magnitude_head scriptLayout rfl m e
    exact ⟨c, cs, htext, .inr (.inr hc)⟩

theorem eq_minus_of_mem_signChars {x : Binary64} {c : Char} (hc : c ∈ signChars x) : c = '-' := by
  rcases x with _ | ⟨_ | _⟩ | ⟨_ | _, m, e⟩ <;> simp_all [signChars]

theorem mem_unsignedChars {x : Binary64} {c : Char} (hc : c ∈ unsignedChars x) :
    c.isDigit = true ∨ c ∈ ['.', 'N', 'a', 'I', 'n', 'f'] := by
  cases x with
  | nan => exact .inr ((by decide : ['N', 'a', 'N'] ⊆ ['.', 'N', 'a', 'I', 'n', 'f']) hc)
  | infinite => exact .inr ((by decide : ['I', 'n', 'f'] ⊆ ['.', 'N', 'a', 'I', 'n', 'f']) hc)
  | finite s m e =>
    obtain ⟨whole, fraction, htext, hpoint, -⟩ := magnitude_eq scriptLayout rfl m e
    rw [unsignedChars, htext] at hc
    rcases List.mem_append.1 hc with hc | hc
    · exact .inl (hpoint.whole_digits c hc)
    · rcases List.mem_cons.1 hc with rfl | hc
      · exact .inr List.mem_cons_self
      · exact .inl (hpoint.fraction_digits c hc)

/-- What is written for a double is more than digits. -/
theorem exists_mark (x : Binary64) : ∃ c ∈ unsignedChars x, c = '.' ∨ c = 'N' ∨ c = 'I' := by
  cases x with
  | nan => exact ⟨'N', by decide, by decide⟩
  | infinite s => exact ⟨'I', List.mem_cons_self, by decide⟩
  | finite s m e =>
    obtain ⟨whole, fraction, htext, -⟩ := magnitude_eq scriptLayout rfl m e
    rw [unsignedChars, htext]
    exact ⟨'.', by simp, .inl rfl⟩

/-- A sign is told from what follows it. -/
theorem chars_cut {x y : Binary64} (h : scriptLayout.chars x = scriptLayout.chars y) :
    signChars x = signChars y ∧ unsignedChars x = unsignedChars y := by
  have hsign : ∀ x, ∀ c ∈ signChars x, (c == '-') = true := fun x c hc => by
    rw [eq_minus_of_mem_signChars hc]
    rfl
  have hstop : ∀ x, ¬ Text.Continues (· == '-') (unsignedChars x) := fun x => by
    obtain ⟨c, cs, htext, hc⟩ := unsignedChars_head x
    rw [htext]
    refine Text.not_continues_cons ?_
    rcases hc with rfl | rfl | hc
    · rfl
    · rfl
    · rw [beq_eq_false_iff_ne]
      rintro rfl
      cases hc
  rw [scriptLayout_chars, scriptLayout_chars] at h
  exact Text.cut (hsign x) (hsign y) (hstop x) (hstop y) h

/-- **Canonical views of doubles are told apart by their script text.** -/
theorem scriptChars_unique {x y : Binary64} (hx : ∀ s m e, x = .finite s m e → Canonical m e)
    (hy : ∀ s m e, y = .finite s m e → Canonical m e) (h : scriptLayout.chars x = scriptLayout.chars y) : x = y := by
  obtain ⟨hsign, htext⟩ := chars_cut h
  have hdigit := fun m e => magnitude_head scriptLayout rfl m e
  cases x with
  | nan => cases y with
    | nan => rfl
    | infinite => cases htext
    | finite s m e =>
      obtain ⟨c, cs, hm, hc⟩ := hdigit m e
      cases htext.trans hm
      cases hc
  | infinite s => cases y with
    | nan => cases htext
    | infinite s' => cases s <;> cases s' <;> first | rfl | cases hsign
    | finite s m e =>
      obtain ⟨c, cs, hm, hc⟩ := hdigit m e
      cases htext.trans hm
      cases hc
  | finite s m e =>
    obtain ⟨c, cs, hm, hc⟩ := hdigit m e
    cases y with
    | nan =>
      cases htext.symm.trans hm
      cases hc
    | infinite =>
      cases htext.symm.trans hm
      cases hc
    | finite s' m' e' =>
      obtain ⟨rfl, rfl⟩ := magnitude_unique rfl (hx s m e rfl) (hy s' m' e' rfl) htext
      cases s <;> cases s' <;> first | rfl | cases hsign

theorem toList_scriptFloat (x : Float) :
    (scriptFloat x).toList = signChars (.ofFloat x) ++ unsignedChars (.ofFloat x) := by
  rw [scriptFloat, FloatLayout.text, String.toList_ofList, scriptLayout_chars]

/-- **Doubles are told apart by their script text.** -/
theorem scriptFloat_injective : Function.Injective scriptFloat := by
  intro x y h
  refine Binary64.ofFloat_injective (scriptChars_unique ?_ ?_ (String.ofList_injective h))
  · exact fun s m e => Binary64.canonical_of_ofBits
  · exact fun s m e => Binary64.canonical_of_ofBits

end MatrixPlan
