import MatrixPlan.Proofs.Number.Positional
/-!
# Tokens — constants are told apart by their script text

The text of a string ends where its reader finds the first quote that is not escaped (`readQuoted_quoted`); the text of any
other constant is a token, which ends where its class of characters does.  What a token is shows in its characters
(`tokenKind_text`), and each kind writes its values differently.
-/
namespace MatrixPlan

/-- What a token says. -/
inductive TokenKind where
  | name
  | string
  | truth
  | whole
  | double
  deriving DecidableEq

def isTokenChar (c : Char) : Bool := c.isAlphanum || c == '.' || c == '-'

def isWholeChar (c : Char) : Bool := c.isDigit || c == '-'

/-- The kind of a token, from its first character and, for numbers, from the others. -/
def tokenKind (cs : List Char) : TokenKind :=
  match cs.head? with
  | some 'V' => .name
  | some '\x27' => .string
  | some 'T' | some 'F' => .truth
  | _ => if cs.all isWholeChar then .whole else .double

namespace Literal

variable {cs cs' rest rest' : List Char}

/-- Reads a string up to the first quote that is not escaped, and gives what follows it. -/
def readEscaped : List Char → Option (List Char × List Char)
  | [] => none
  | '\x27' :: rest => some ([], rest)
  | '\\' :: c :: rest => (readEscaped rest).map fun p => (c :: p.1, p.2)
  | c :: rest => (readEscaped rest).map fun p => (c :: p.1, p.2)

def readQuoted : List Char → Option (List Char × List Char)
  | '\x27' :: rest => readEscaped rest
  | _ => none

/-- **A string is read back whatever follows it.** -/
theorem readQuoted_quoted (cs rest : List Char) : readQuoted (quoted cs ++ rest) = some (cs, rest) := by
  have hread : readEscaped (cs.flatMap escaped ++ '\x27' :: rest) = some (cs, rest) := by
    induction cs with
    | nil => rfl
    | cons c cs ih =>
      rw [List.flatMap_cons, List.append_assoc, escaped]
      split
      · rw [List.cons_append, List.cons_append, List.nil_append, readEscaped, ih, Option.map_some]
      · rename_i hc
        rw [not_or] at hc
        rw [List.cons_append, List.nil_append, readEscaped, ih, Option.map_some]
        · exact hc.2
        · exact fun c' rest heq => absurd heq hc.1
  simpa [quoted, readQuoted] using hread

theorem quoted_cut (h : quoted cs ++ rest = quoted cs' ++ rest') : cs = cs' ∧ rest = rest' := by
  have hread := readQuoted_quoted cs rest
  rw [h, readQuoted_quoted] at hread
  cases hread
  exact ⟨rfl, rfl⟩

end Literal

theorem isDigit_of_mem_numeral {n : Nat} {c : Char} (hc : c ∈ Nat.toDigits 10 n) : c.isDigit = true :=
  Nat.isDigit_of_mem_toDigits (by decide) (by decide) hc

theorem numeral_injective : Function.Injective (Nat.toDigits 10) := by
  intro n n' h
  rw [← @Nat.ofDigitChars_ten_toDigits n, h, Nat.ofDigitChars_ten_toDigits]

/-- The digits of a whole number, after its sign. -/
theorem toList_toString_int (z : Int) :
    (toString z).toList = (if z < 0 then ['-'] else []) ++ Nat.toDigits 10 z.natAbs := by
  cases z with
  | ofNat n =>
    have htext : toString (Int.ofNat n) = n.repr := rfl
    rw [htext, Nat.toList_repr, if_neg (by simp), List.nil_append]
    rfl
  | negSucc n =>
    have htext : toString (Int.negSucc n) = "-" ++ (n + 1).repr := rfl
    rw [htext, String.toList_append, Nat.toList_repr, if_pos (Int.negSucc_lt_zero n)]
    rfl

theorem int_toString_injective : Function.Injective (toString : Int → String) := by
  intro z z' h
  have hsign : ∀ z : Int, ∀ c ∈ (if z < 0 then ['-'] else []), (c == '-') = true := fun z c hc => by
    split at hc <;> simp_all
  have hstop : ∀ n, ¬ Text.Continues (· == '-') (Nat.toDigits 10 n) := by
    rintro n ⟨c, hhead, hc⟩
    have hdigit := isDigit_of_mem_numeral (List.mem_of_mem_head? hhead)
    rw [beq_iff_eq.1 hc] at hdigit
    cases hdigit
  have htext := congrArg String.toList h
  rw [toList_toString_int, toList_toString_int] at htext
  obtain ⟨hneg, habs⟩ := Text.cut (hsign z) (hsign z') (hstop _) (hstop _) htext
  have habs := numeral_injective habs
  have hiff : z < 0 ↔ z' < 0 := by
    by_cases hz : z < 0 <;> by_cases hz' : z' < 0
    · exact iff_of_true hz hz'
    · rw [if_pos hz, if_neg hz'] at hneg
      cases hneg
    · rw [if_neg hz, if_pos hz'] at hneg
      cases hneg
    · exact iff_of_false hz hz'
  omega

theorem isWholeChar_of_mem_toString {z : Int} {c : Char} (hc : c ∈ (toString z).toList) : isWholeChar c = true := by
  rw [toList_toString_int] at hc
  unfold isWholeChar
  rcases List.mem_append.1 hc with hc | hc
  · split at hc <;> simp_all
  · rw [isDigit_of_mem_numeral hc, Bool.true_or]

theorem isTokenChar_of_isWholeChar {c : Char} (hc : isWholeChar c = true) : isTokenChar c = true := by
  unfold isWholeChar at hc
  unfold isTokenChar Char.isAlphanum
  rcases Bool.or_eq_true_iff.1 hc with hc | hc <;> simp [hc]

/-- How a number starts. -/
def startsNumber (c : Char) : Prop := c = 'N' ∨ c = 'I' ∨ isWholeChar c = true

theorem isLower_of_startsNumber {c : Char} (hc : startsNumber c) : c.isLower = false := by
  rcases hc with rfl | rfl | hc
  · rfl
  · rfl
  · rcases Bool.or_eq_true_iff.1 hc with hc | hc
    · have hdigit : c.val ≤ '9'.val := decide_eq_true_iff.1 (Bool.and_eq_true_iff.1 hc).2
      exact Bool.and_eq_false_iff.2 (.inl (decide_eq_false fun hle => absurd (UInt32.le_trans hle hdigit) (by decide)))
    · rw [beq_iff_eq.1 hc]
      rfl

theorem tokenKind_of_number {cs : List Char} {c : Char} (hc : startsNumber c) (hhead : cs.head? = some c) :
    tokenKind cs = if cs.all isWholeChar then .whole else .double := by
  unfold tokenKind
  rw [hhead]
  split
  all_goals first
    | rfl
    | rename_i heq
      cases heq
      rcases hc with hc | hc | hc <;> cases hc

theorem isTokenChar_of_mem_double {x : Float} {c : Char} (hc : c ∈ (scriptFloat x).toList) : isTokenChar c = true := by
  rw [toList_scriptFloat] at hc
  rcases List.mem_append.1 hc with hc | hc
  · rw [eq_minus_of_mem_signChars hc]
    rfl
  · rcases mem_unsignedChars hc with hc | hc
    · exact isTokenChar_of_isWholeChar (by rw [isWholeChar, hc, Bool.true_or])
    · exact List.all_eq_true.1 (by decide : ['.', 'N', 'a', 'I', 'n', 'f'].all isTokenChar = true) c hc

theorem startsNumber_double (x : Float) : ∃ c, (scriptFloat x).toList.head? = some c ∧ startsNumber c := by
  rw [toList_scriptFloat]
  obtain ⟨c, cs, htext, hc⟩ := unsignedChars_head (.ofFloat x)
  cases hsign : signChars (.ofFloat x) with
  | nil =>
    rw [htext]
    refine ⟨c, rfl, hc.imp_right (Or.imp_right fun hc => ?_)⟩
    rw [isWholeChar, hc, Bool.true_or]
  | cons d ds =>
    have hd : d = '-' := eq_minus_of_mem_signChars (by rw [hsign]; exact List.mem_cons_self)
    exact ⟨d, rfl, .inr (.inr (by rw [hd]; rfl))⟩

/-- A double has a point or letters. -/
theorem exists_not_isWholeChar (x : Float) : ∃ c ∈ (scriptFloat x).toList, isWholeChar c = false := by
  rw [toList_scriptFloat]
  obtain ⟨c, hc, hmark⟩ := exists_mark (.ofFloat x)
  exact ⟨c, List.mem_append_right _ hc, by rcases hmark with rfl | rfl | rfl <;> rfl⟩

namespace Literal

/-- **The kind of a constant shows in its text.** -/
def tokenKind : Literal → TokenKind
  | float _ => .double
  | int _ => .whole
  | bool _ => .truth
  | str _ => .string

theorem tokenKind_text (l : Literal) : MatrixPlan.tokenKind l.text.toList = l.tokenKind := by
  cases l with
  | float x =>
    obtain ⟨c, hhead, hc⟩ := startsNumber_double x
    obtain ⟨d, hd, hnot⟩ := exists_not_isWholeChar x
    rw [text, tokenKind_of_number hc hhead, if_neg fun hall => by
      rw [List.all_eq_true.1 hall d hd] at hnot
      cases hnot]
    rfl
  | int n =>
    have hall : (toString n.toInt).toList.all isWholeChar = true :=
      List.all_eq_true.2 fun c hc => isWholeChar_of_mem_toString hc
    have hne : (toString n.toInt).toList ≠ [] := by
      rw [toList_toString_int]
      exact List.append_ne_nil_of_right_ne_nil _ Nat.toDigits_ne_nil
    obtain ⟨c, cs, htext⟩ := List.exists_cons_of_ne_nil hne
    have hc : isWholeChar c = true := List.all_eq_true.1 hall c (by rw [htext]; exact List.mem_cons_self)
    rw [text, tokenKind_of_number (.inr (.inr hc)) (by rw [htext, List.head?_cons]), if_pos hall]
    rfl
  | bool b => cases b <;> rfl
  | str s => 
    rw [text, String.toList_ofList]
    rfl

/-- **Constants are told apart by their text.** -/
theorem text_injective : Function.Injective text := by
  intro l l' h
  have hkind : l.tokenKind = l'.tokenKind := by rw [← tokenKind_text, ← tokenKind_text, h]
  cases l with
  | float x => cases l' with
    | float y => rw [scriptFloat_injective h]
    | _ => cases hkind
  | int n => cases l' with
    | int n' => rw [Int64.toInt_inj.1 (int_toString_injective h)]
    | _ => cases hkind
  | bool b => cases l' with
    | bool b' => cases b <;> cases b' <;> first | rfl | exact absurd h (by decide)
    | _ => cases hkind
  | str s => cases l' with
    | str s' =>
      have hquoted := congrArg (· ++ []) (String.ofList_injective h)
      rw [String.toList_injective (quoted_cut hquoted).1]
    | _ => cases hkind

end Literal
end MatrixPlan
