import MatrixPlan.Json.Printer
import MatrixPlan.Json.Token
import MatrixPlan.Proofs.Text.Cut
import MatrixPlan.Proofs.Text.Hex
/-!
# Words — JSON strings and numbers are found in a text

What is written for a string or a number is cut off the front of a text again: a string in front of anything, a number in
front of what does not go on with a character of a number.
-/
namespace MatrixPlan
namespace Json

/-! ## Strings -/

/-- A control character is half of no surrogate pair, so what follows it is joined apart. -/
theorem joinPieces?_unit {n : Nat} (hn : n < 0x20) (ps : List Piece) :
    joinPieces? (.unit n :: ps) = (joinPieces? ps).map (Char.ofNat n :: ·) := by
  have hhigh : isHighSurrogate n = false := decide_eq_false (by omega)
  have hlow : isLowSurrogate n = false := decide_eq_false (by omega)
  match ps with
  | [] => simp [joinPieces?, hhigh, hlow]
  | .char c :: ps => simp [joinPieces?, hhigh, hlow]
  | .unit low :: ps => rw [joinPieces?, hhigh, hlow, if_neg Bool.false_ne_true, if_neg Bool.false_ne_true]

/-- A character stands in a string after a backslash, as a letter or as digits, or as itself. -/
theorem escaped_cases (c : Char) :
    (∃ d, escaped c = ['\\', d] ∧ d ≠ 'u' ∧ unescaped? d = some c) ∨
    (escaped c = '\\' :: 'u' :: Text.hex 4 c.toNat ∧ c.toNat < 0x20) ∨
    (escaped c = [c] ∧ c ≠ '"' ∧ c ≠ '\\' ∧ ¬ c.toNat < 0x20) := by
  unfold escaped
  -- the quote, the backslash and the five control characters that have a letter
  iterate 7
    split
    · rename_i hc
      subst hc
      exact .inl ⟨_, rfl, by decide, rfl⟩
  split
  · rename_i hlt
    exact .inr (.inl ⟨rfl, hlt⟩)
  · rename_i hquote hslash _ _ _ _ _ hlt
    exact .inr (.inr ⟨rfl, hquote, hslash, hlt⟩)

/-- **A character is read back as one piece.** -/
theorem exists_piece (c : Char) : ∃ p : Piece,
    (∀ acc cs, stringPieces? acc (escaped c ++ cs) = stringPieces? (p :: acc) cs) ∧
    ∀ ps, joinPieces? (p :: ps) = (joinPieces? ps).map (c :: ·) := by
  rcases escaped_cases c with ⟨d, htext, hd, hc⟩ | ⟨htext, hlt⟩ | ⟨htext, hquote, hslash, hge⟩
  · refine ⟨.char c, fun acc cs => ?_, joinPieces?.eq_2 c⟩
    rw [htext, List.cons_append, List.singleton_append, stringPieces?.eq_4 acc d cs fun _ _ _ _ _ hu => absurd hu hd, hc]
  · refine ⟨.unit c.toNat, fun acc cs => ?_, fun ps => by rw [joinPieces?_unit hlt, Char.ofNat_toNat]⟩
    have hread := Text.ofHex?_hex 0 (show c.toNat < 16 ^ 4 by omega)
    obtain ⟨d₁, d₂, d₃, d₄, hhex⟩ : ∃ d₁ d₂ d₃ d₄, Text.hex 4 c.toNat = [d₁, d₂, d₃, d₄] := ⟨_, _, _, _, rfl⟩
    rw [Nat.mul_zero, Nat.zero_add, hhex] at hread
    rw [htext, hhex]
    simp only [List.cons_append, List.nil_append, stringPieces?, hread]
  · refine ⟨.char c, fun acc cs => ?_, joinPieces?.eq_2 c⟩
    rw [htext, List.singleton_append, stringPieces?.eq_5 acc c cs hquote (fun _ _ _ _ _ h => absurd h hslash)
      (fun _ _ h => absurd h hslash), if_neg (not_or.2 ⟨hslash, hge⟩)]

/-- **A string is read back whatever follows it.** -/
theorem stringPieces?_quoted (cs : List Char) : ∃ ps : List Piece, joinPieces? ps = some cs ∧
    ∀ acc rest, stringPieces? acc (cs.flatMap escaped ++ '"' :: rest) = some (acc.reverse ++ ps, rest) := by
  induction cs with
  | nil => exact ⟨[], rfl, fun acc rest => by rw [List.flatMap_nil, List.nil_append, stringPieces?, List.append_nil]⟩
  | cons c cs ih =>
    obtain ⟨p, hread, hjoin⟩ := exists_piece c
    obtain ⟨ps, hps, hrest⟩ := ih
    refine ⟨p :: ps, by rw [hjoin, hps, Option.map_some], fun acc rest => ?_⟩
    rw [List.flatMap_cons, List.append_assoc, hread, hrest, List.reverse_cons, List.append_assoc, List.singleton_append]

theorem token?_quoted (s : String) (rest : List Char) :
    token? (quoted s ++ rest) = some (.string (some s), rest) := by
  obtain ⟨ps, hjoin, hread⟩ := stringPieces?_quoted s.toList
  have htext : quoted s ++ rest = '"' :: (s.toList.flatMap escaped ++ '"' :: rest) := by
    rw [quoted, List.cons_append, List.cons_append, List.append_assoc, List.singleton_append]
  rw [htext, token?, hread, List.reverse_nil, List.nil_append]
  dsimp only [Option.map_some]
  rw [hjoin, Option.map_some, String.ofList_toList]

/-! ## Numbers -/

/-- The characters of a number after its first one, in the texts that are written. -/
def isNumberChar (c : Char) : Bool := c.isDigit || c == '.' || c == 'e' || c == 'E'

/-- Digits, the first of which is no zero unless it is the only one. -/
structure WholePart (ds : List Char) : Prop where
  nonempty : ds ≠ []
  digits : ∀ c ∈ ds, c.isDigit = true
  leading : ds.head? = some '0' → ds.length = 1

inductive FractionPart : List Char → Prop where
  | none : FractionPart []
  | point {ds : List Char} (hne : ds ≠ []) (hds : ∀ c ∈ ds, c.isDigit = true) : FractionPart ('.' :: ds)

inductive PowerPart : List Char → Prop where
  | none : PowerPart []
  | below {ds : List Char} (hne : ds ≠ []) (hds : ∀ c ∈ ds, c.isDigit = true) : PowerPart ('e' :: '-' :: ds)
  | above {ds : List Char} (hne : ds ≠ []) (hds : ∀ c ∈ ds, c.isDigit = true) : PowerPart ('e' :: '+' :: ds)

/-- **The text of a number**: a sign, a whole part, a fraction and a power of ten, of which only the whole part must be
there. -/
inductive NumberText : List Char → Prop where
  | positive {whole fraction power : List Char} (hw : WholePart whole) (hf : FractionPart fraction)
      (hp : PowerPart power) : NumberText (whole ++ fraction ++ power)
  | negative {whole fraction power : List Char} (hw : WholePart whole) (hf : FractionPart fraction)
      (hp : PowerPart power) : NumberText ('-' :: (whole ++ fraction ++ power))

variable {whole fraction power text ds rest : List Char}

theorem isNumberChar_of_isDigit {c : Char} (h : c.isDigit = true) : isNumberChar c = true := by
  rw [isNumberChar, h]
  rfl

theorem not_isDigit_of_stop (h : ¬ Text.Continues isNumberChar rest) : ¬ Text.Continues Char.isDigit rest :=
  Text.not_continues_mono (fun _ => isNumberChar_of_isDigit) h

theorem spanDigits?_append (hne : ds ≠ []) (hds : ∀ c ∈ ds, c.isDigit = true)
    (hrest : ¬ Text.Continues Char.isDigit rest) : spanDigits? (ds ++ rest) = some (ds, rest) := by
  have htake := Text.takeWhile_append_of_stop hds hrest
  have hdrop := List.takeWhile_append_dropWhile (p := Char.isDigit) (l := ds ++ rest)
  rw [htake] at hdrop
  rw [spanDigits?, htake, if_neg hne, List.append_cancel_left hdrop]

theorem spanWhole?_append (hw : WholePart whole) (hrest : ¬ Text.Continues Char.isDigit rest) :
    spanWhole? (whole ++ rest) = some (whole, rest) := by
  rw [spanWhole?, spanDigits?_append hw.nonempty hw.digits hrest, Option.bind_some]
  exact if_neg fun h => h.2 (hw.leading h.1)

theorem spanFraction?_append (hf : FractionPart fraction) (hrest : ¬ Text.Continues Char.isDigit rest)
    (hpoint : rest.head? ≠ some '.') : spanFraction? (fraction ++ rest) = some (fraction, rest) := by
  cases hf with
  | none => cases rest with
    | nil => rfl
    | cons c cs => exact spanFraction?.eq_2 _ fun _ h => hpoint (congrArg List.head? h)
  | point hne hds => rw [List.cons_append, spanFraction?, spanDigits?_append hne hds hrest, Option.map_some]

theorem spanPower?_append (hp : PowerPart power) (hrest : ¬ Text.Continues isNumberChar rest) :
    spanPower? (power ++ rest) = some (power, rest) := by
  cases hp with
  | none => cases rest with
    | nil => rfl
    | cons c cs =>
      refine if_neg fun hc => hrest ⟨c, rfl, ?_⟩
      rcases hc with rfl | rfl <;> rfl
  | below hne hds =>
    have h := spanDigits?_append hne hds (not_isDigit_of_stop hrest)
    simp only [List.cons_append, spanPower?, h]
    rfl
  | above hne hds =>
    have h := spanDigits?_append hne hds (not_isDigit_of_stop hrest)
    simp only [List.cons_append, spanPower?, h]
    rfl

/-- What may follow the digits of a whole part or of a fraction. -/
theorem PowerPart.stop (hp : PowerPart power) (hrest : ¬ Text.Continues isNumberChar rest) :
    ¬ Text.Continues Char.isDigit (power ++ rest) ∧ (power ++ rest).head? ≠ some '.' := by
  cases hp with
  | none =>
    refine ⟨not_isDigit_of_stop hrest, fun hpoint => hrest ⟨'.', hpoint, rfl⟩⟩
  | below | above => exact ⟨Text.not_continues_cons (by decide), by simp⟩

theorem spanMagnitude?_append (hw : WholePart whole) (hf : FractionPart fraction) (hp : PowerPart power)
    (hrest : ¬ Text.Continues isNumberChar rest) :
    spanMagnitude? (whole ++ fraction ++ power ++ rest) = some (whole ++ fraction ++ power, rest) := by
  obtain ⟨hstop, hpoint⟩ := hp.stop hrest
  have hwhole : ¬ Text.Continues Char.isDigit (fraction ++ (power ++ rest)) := by
    cases hf with
    | none => exact hstop
    | point => exact Text.not_continues_cons (by decide)
  rw [spanMagnitude?, List.append_assoc, List.append_assoc, spanWhole?_append hw hwhole]
  dsimp only [Option.bind_some]
  rw [spanFraction?_append hf hstop hpoint]
  dsimp only [Option.bind_some]
  rw [spanPower?_append hp hrest, Option.map_some]

theorem NumberText.head (h : NumberText text) : ∃ c cs, text = c :: cs ∧ (c = '-' ∨ c.isDigit = true) := by
  cases h with
  | @positive whole fraction power hw =>
    obtain ⟨c, cs, rfl⟩ := List.exists_cons_of_ne_nil hw.nonempty
    exact ⟨c, _, rfl, .inr (hw.digits c List.mem_cons_self)⟩
  | negative => exact ⟨'-', _, rfl, .inl rfl⟩

theorem spanNumber?_append (h : NumberText text) (hrest : ¬ Text.Continues isNumberChar rest) :
    spanNumber? (text ++ rest) = some (text, rest) := by
  cases h with
  | @positive whole fraction power hw hf hp =>
    obtain ⟨c, cs, rfl⟩ := List.exists_cons_of_ne_nil hw.nonempty
    have hc : c.isDigit = true := hw.digits c List.mem_cons_self
    have hread := spanMagnitude?_append hw hf hp hrest
    rw [List.cons_append, List.cons_append, List.cons_append] at hread ⊢
    rw [spanNumber?.eq_2, hread]
    rintro _ hminus
    cases hminus
    cases hc
  | negative hw hf hp =>
    rw [List.cons_append, spanNumber?, spanMagnitude?_append hw hf hp hrest, Option.map_some]

/-- **A number is read back** in front of what does not go on with a character of a number. -/
theorem token?_number (h : NumberText text) (hrest : ¬ Text.Continues isNumberChar rest) :
    token? (text ++ rest) = some (.number text, rest) := by
  obtain ⟨c, cs, htext, hc⟩ := h.head
  have hread := spanNumber?_append h hrest
  rw [htext, List.cons_append] at hread ⊢
  have hother : ∀ d ds, c :: (cs ++ rest) = d :: ds → d ≠ '-' → d.isDigit = false → False := by
    intro d ds heq hminus hdigit
    cases heq
    rcases hc with hc | hc
    · exact hminus hc
    · rw [hdigit] at hc
      cases hc
  rw [token?.eq_11, hread, Option.map_some]
  all_goals exact fun ds heq => hother _ _ heq (by decide) (by decide)

end Json
end MatrixPlan
