import MatrixPlan.Proofs.Json.Decoding
import MatrixPlan.Proofs.Number.Leading
import MatrixPlan.Proofs.Number.Packing
import MatrixPlan.Proofs.Number.Positional
/-!
# Doubles — finite doubles are read as they were written

Whatever way its digits are set, the text of a double is a number whose value rounds to it.  A reader who takes this
number for the nearest double gets the double back; a number of few digits is read this way always.
-/
namespace MatrixPlan

open Binary64 (Canonical)
open Shortest (RoundsTo)
open Json (WholePart FractionPart PowerPart NumberText)

variable {whole fraction power text : List Char} {p : Int}

namespace Numeral

theorem spanDigits_append {ds rest : List Char} (hds : ∀ c ∈ ds, c.isDigit = true)
    (hrest : ¬ Text.Continues Char.isDigit rest) : spanDigits (ds ++ rest) = (ds, rest) := by
  have htake := Text.takeWhile_append_of_stop hds hrest
  have hdrop := List.takeWhile_append_dropWhile (p := Char.isDigit) (l := ds ++ rest)
  rw [htake] at hdrop
  rw [spanDigits, List.span_eq_takeWhile_dropWhile, htake, List.append_cancel_left hdrop]

/-- The parts of a number without a sign, by the digits and the power of ten. -/
theorem unsigned_parts (hw : WholePart whole) (hf : FractionPart fraction) (hp : PowerPart power) :
    spanDigits (whole ++ (fraction ++ power)) = (whole, fraction ++ power) ∧
      spanFraction (fraction ++ power) = (fraction.tail, power) := by
  have hend : ¬ Text.Continues Json.isNumberChar [] := fun ⟨_, hc, _⟩ => nomatch hc
  obtain ⟨hstop, hpoint⟩ := hp.stop hend
  rw [List.append_nil] at hstop hpoint
  cases hf with
  | none =>
    refine ⟨spanDigits_append hw.digits hstop, ?_⟩
    cases power with
    | nil => rfl
    | cons c cs => exact spanFraction.eq_2 _ fun _ h => hpoint (congrArg List.head? h)
  | point hne hds =>
    exact ⟨spanDigits_append hw.digits (Text.not_continues_cons (by decide)), spanDigits_append hds hstop⟩

/-- **A number is read by its parts.** -/
theorem ofChars?_parts (hw : WholePart whole) (hf : FractionPart fraction) (hp : PowerPart power)
    (hpower : powerOf? power = some p) :
    ofChars? (whole ++ fraction ++ power) = some ⟨false, whole, fraction.tail, p⟩ ∧
      ofChars? ('-' :: (whole ++ fraction ++ power)) = some ⟨true, whole, fraction.tail, p⟩ := by
  obtain ⟨hdigits, hfraction⟩ := unsigned_parts hw hf hp
  have hsign : spanSign (whole ++ (fraction ++ power)) = (false, whole ++ (fraction ++ power)) := by
    obtain ⟨c, cs, rfl⟩ := List.exists_cons_of_ne_nil hw.nonempty
    have hc : c.isDigit = true := hw.digits c List.mem_cons_self
    refine spanSign.eq_3 _ (fun _ h => ?_) (fun _ h => ?_) <;>
    · cases h
      cases hc
  have hne : ¬ (whole = [] ∧ fraction.tail = []) := fun h => hw.nonempty h.1
  rw [List.append_assoc]
  constructor
  · rw [ofChars?, hsign]
    dsimp only
    rw [hdigits]
    dsimp only
    rw [hfraction]
    dsimp only
    rw [if_neg hne, hpower, Option.map_some]
  · rw [ofChars?, spanSign]
    dsimp only
    rw [hdigits]
    dsimp only
    rw [hfraction]
    dsimp only
    rw [if_neg hne, hpower, Option.map_some]

end Numeral

namespace FloatLayout

open Numeral (powerOf?)

/-- The value of a number that is given by its parts. -/
def partsValue (whole fraction : List Char) (p : Int) : ℚ :=
  Decimal.ofDigits (whole ++ fraction.tail) * 10 ^ (p - fraction.tail.length)

/-- A power of ten with its sign is that power. -/
theorem powerOf?_signed (q : Int) :
    powerOf? ((if q < 0 then ['e', '-'] else ['e', '+']) ++ numeral q.natAbs) = some q ∧
      PowerPart ((if q < 0 then ['e', '-'] else ['e', '+']) ++ numeral q.natAbs) := by
  have hq := Json.wholePart_numeral q.natAbs
  have hall := List.all_eq_true.2 hq.digits
  split
  · refine ⟨?_, .below hq.nonempty hq.digits⟩
    rw [List.cons_append, List.cons_append, List.nil_append, powerOf?, Numeral.spanSign]
    dsimp only
    rw [if_pos ⟨.inl rfl, hq.nonempty, hall⟩, Json.ofDigits_numeral, if_pos rfl]
    exact congrArg some (by omega)
  · refine ⟨?_, .above hq.nonempty hq.digits⟩
    rw [List.cons_append, List.cons_append, List.nil_append, powerOf?, Numeral.spanSign]
    dsimp only
    rw [if_pos ⟨.inl rfl, hq.nonempty, hall⟩, Json.ofDigits_numeral, if_neg Bool.false_ne_true]
    exact congrArg some (by omega)

/-- **Digits with a power of ten are a number, and keep their value.** -/
theorem scientificText_parts {n : Nat} (hn : n ≠ 0) (k : Int) :
    ∃ whole fraction power p, scientificText (numeral n) k = whole ++ fraction ++ power ∧ WholePart whole ∧
      FractionPart fraction ∧ PowerPart power ∧ powerOf? power = some p ∧ partsValue whole fraction p = n * 10 ^ k := by
  have hdigits := (Json.wholePart_numeral n).digits
  have hvalue := Json.ofDigits_numeral n
  have hhead := mt (Json.head?_numeral n) hn
  unfold scientificText
  obtain ⟨d, rest, hds⟩ := List.exists_cons_of_ne_nil (Json.wholePart_numeral n).nonempty
  rw [hds] at hdigits hvalue hhead ⊢
  -- the power of ten is that of the first digit, so the others are behind the point
  have hshift : ∀ q : Int, q = k + (d :: rest).length - 1 → q - rest.length = k := by
    intro q hq
    rw [List.length_cons] at hq
    omega
  obtain ⟨hpower, hpart⟩ := powerOf?_signed (k + (d :: rest).length - 1)
  have hwhole : WholePart [d] :=
    ⟨List.cons_ne_nil _ _, fun c hc => hdigits c (List.mem_cons.2 (.inl (List.mem_singleton.1 hc))), fun _ => rfl⟩
  cases rest with
  | nil =>
    refine ⟨[d], [], _, _, ?_, hwhole, .none, hpart, hpower, ?_⟩
    · simp
    · rw [partsValue, List.tail_nil, List.append_nil, hvalue, hshift _ rfl]
  | cons c cs =>
    refine ⟨[d], '.' :: c :: cs, _, _, ?_, hwhole, .point (List.cons_ne_nil _ _)
      (fun b hb => hdigits b (List.mem_cons_of_mem _ hb)), hpart, hpower, ?_⟩
    · simp
    · rw [partsValue, List.tail_cons, List.singleton_append, hvalue, hshift _ rfl]

/-- Digits that are set positionally are a number, and keep their value. -/
theorem positionalText_parts {n : Nat} (hn : n ≠ 0) (k : Int) :
    ∃ whole fraction power p, positionalText (numeral n) k = whole ++ fraction ++ power ∧ WholePart whole ∧
      FractionPart fraction ∧ PowerPart power ∧ powerOf? power = some p ∧ partsValue whole fraction p = n * 10 ^ k := by
  obtain ⟨whole, fraction, htext, hpoint, hvalue, hne, hhead⟩ :=
    positionalText_eq (numeral n) (Json.wholePart_numeral n).digits (Json.wholePart_numeral n).nonempty k
  refine ⟨whole, '.' :: fraction, [], 0, by rw [htext, List.append_nil], ⟨hpoint.nonempty, hpoint.whole_digits, ?_⟩,
    .point hne hpoint.fraction_digits, .none, rfl, ?_⟩
  · intro hzero
    rcases hhead with rfl | hhead
    · rfl
    · exact absurd (Json.head?_numeral n (hhead ▸ hzero)) hn
  · rw [partsValue, List.tail_cons, zero_sub]
    rw [pointValue, Json.ofDigits_numeral] at hvalue
    exact hvalue

/-- **The text of a magnitude is a number whose value rounds to it**, in every layout. -/
theorem magnitude_parts (layout : FloatLayout) {m : Nat} {e : Int} (he : Binary64.minExponent ≤ e) :
    ∃ whole fraction power p, layout.magnitude m e = whole ++ fraction ++ power ∧ WholePart whole ∧
      FractionPart fraction ∧ PowerPart power ∧ powerOf? power = some p ∧ RoundsTo (partsValue whole fraction p) m e := by
  unfold magnitude
  split
  · rename_i hm
    refine ⟨['0'], ['.', '0'], [], 0, rfl, ⟨by simp, by simp, fun _ => rfl⟩, .point (by simp) (by simp), .none, rfl, ?_⟩
    have hzero : partsValue ['0'] ['.', '0'] 0 = m * 2 ^ e := by
      rw [partsValue, show Decimal.ofDigits (['0'] ++ ['.', '0'].tail) = 0 from rfl, hm, Nat.cast_zero, zero_mul, zero_mul]
    rw [hzero]
    exact Shortest.roundsTo_self m e
  · rename_i hm
    have hrounds := Shortest.digits_roundsTo layout.tie m e
    have hn : (Shortest.digits layout.tie m e).digits ≠ 0 := by
      intro hn
      have hge := Binary64.ge_of_roundsTo hm he hrounds
      rw [Shortest.Digits.value, hn, Nat.cast_zero, zero_mul] at hge
      exact absurd hge (not_le.2 (by positivity))
    dsimp only
    split
    · obtain ⟨whole, fraction, power, p, htext, hw, hf, hp, hpower, hvalue⟩ :=
        positionalText_parts hn (Shortest.digits layout.tie m e).exponent
      exact ⟨whole, fraction, power, p, htext, hw, hf, hp, hpower, hvalue ▸ hrounds⟩
    · obtain ⟨whole, fraction, power, p, htext, hw, hf, hp, hpower, hvalue⟩ :=
        scientificText_parts hn (Shortest.digits layout.tie m e).exponent
      exact ⟨whole, fraction, power, p, htext, hw, hf, hp, hpower, hvalue ▸ hrounds⟩

/-- **The text of a finite double is a number, and the nearest double to it is this double.** -/
theorem chars_finite (layout : FloatLayout) (s : Bool) {m : Nat} {e : Int} (hc : Canonical m e)
    (he : e ≤ Binary64.maxExponent) :
    NumberText (layout.chars (.finite s m e)) ∧ ∃ t, Numeral.ofChars? (layout.chars (.finite s m e)) = some t ∧
      t.exact.toBinary64 = .finite s m e := by
  obtain ⟨whole, fraction, power, p, htext, hw, hf, hp, hpower, hrounds⟩ := layout.magnitude_parts (m := m) hc.exponent
  obtain ⟨hpositive, hnegative⟩ := Numeral.ofChars?_parts hw hf hp hpower
  cases s with
  | false =>
    rw [chars, htext]
    exact ⟨.positive hw hf hp, _, hpositive, Decimal.toBinary64_eq hc he hrounds⟩
  | true =>
    rw [chars, htext]
    exact ⟨.negative hw hf hp, _, hnegative, Decimal.toBinary64_eq hc he hrounds⟩

end FloatLayout

namespace Json

open FloatLayout (numeral)

/-- **Whether a number is read as the double nearest to it.** -/
def ReadsNearest (text : List Char) : Prop :=
  ∀ t, Numeral.ofChars? text = some t → t.leading.scaled = t.exact.toBinary64

/-- **A number of few digits and a small power of ten is read as the nearest double.** -/
theorem readsNearest_of_short {t : Numeral} (ht : Numeral.ofChars? text = some t) (hdigits : t.exact.digits ≤ 2 ^ 53)
    (hexponent : t.exact.exponent.natAbs ≤ 22) : ReadsNearest text := by
  intro t' ht'
  cases ht.symm.trans ht'
  have hword : t.exact.digits ≤ maxCount := hdigits.trans (by decide)
  rw [Numeral.leading_eq_exact hword, Decimal.scaled_eq hdigits hexponent]

/-- A double that is not finite is written as no number. -/
theorem ofFloat_eq_null {x : Float} (h : x.isFinite ≠ true) : ofFloat x = .null := by
  have hview := mt (Binary64.isFinite_iff x).2 h
  unfold ofFloat
  split
  · exact absurd ⟨_, _, _, ‹_›⟩ hview
  · rfl

/-- **Finite doubles are read as they were written**, if the reader takes the number for the nearest double. -/
theorem toFloat?_ofFloat {x : Float} (h : x.isFinite = true) (hread : ReadsNearest (jsonLayout.chars (.ofFloat x))) :
    toFloat? (ofFloat x) = some x := by
  obtain ⟨s, m, e, hx⟩ := (Binary64.isFinite_iff x).1 h
  obtain ⟨-, t, ht, hnearest⟩ :=
    jsonLayout.chars_finite s (Binary64.canonical_of_ofBits hx) (Binary64.le_maxExponent_of_ofBits hx)
  rw [hx] at hread
  unfold ofFloat
  rw [hx]
  dsimp only
  rw [toFloat?, ht, Option.bind_some, hread t ht, hnearest]
  dsimp only
  rw [← hx, Binary64.toFloat_ofFloat]

/-- **A double that is not finite is not read at all.** -/
theorem toFloat?_ofFloat_eq_none {x : Float} (h : x.isFinite ≠ true) : toFloat? (ofFloat x) = none := by
  rw [ofFloat_eq_null h]
  rfl

theorem writable_ofFloat (x : Float) : (ofFloat x).Writable := by
  unfold ofFloat
  split
  · rename_i s m e hx
    exact (jsonLayout.chars_finite s (Binary64.canonical_of_ofBits hx) (Binary64.le_maxExponent_of_ofBits hx)).1
  · trivial

/-- A count that is set aside is read as some finite double. -/
theorem isKeepable_ofCount (n : UInt64) : (ofCount n).isKeepable = true := by
  have hn := n.toNat_lt
  have ht := (Numeral.ofChars?_parts (wholePart_numeral n.toNat) .none .none rfl).1
  rw [List.append_nil, List.append_nil, List.tail_nil] at ht
  have hexact : (⟨false, numeral n.toNat, [], 0⟩ : Numeral).exact = ⟨false, n.toNat, 0⟩ := by
    rw [Numeral.exact, List.append_nil, ofDigits_numeral]
    rfl
  have hword : n.toNat ≤ maxCount := by
    unfold maxCount
    omega
  have hleading := Numeral.leading_eq_exact (t := ⟨false, numeral n.toNat, [], 0⟩) (by rw [hexact]; exact hword)
  obtain ⟨m, e, hscaled⟩ := Decimal.scaled_finite false hword
  rw [ofCount, isKeepable, toFloat?, ht, Option.bind_some, hleading, hexact, hscaled]
  rfl

end Json
end MatrixPlan
