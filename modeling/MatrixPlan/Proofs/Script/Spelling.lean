import MatrixPlan.Proofs.Graph.Tokens
import MatrixPlan.Script.Lowering
/-!
# Spelling — the inputs of statements are told apart by their text

Variables, constants and matrices that are written out are told apart by their text, whatever follows it that does not go
on with a token (`Input.cuts`, `Dense.body_cut`).
-/
namespace MatrixPlan

open Lowering (variableName)

theorem toList_variableName (k : Nat) : (variableName k).toList = 'V' :: Nat.toDigits 10 k := by
  have htext : variableName k = "V" ++ k.repr := rfl
  rw [htext, String.toList_append, Nat.toList_repr]
  rfl

namespace Input

def tokenKind : Input → TokenKind
  | node _ => .name
  | literal l => l.tokenKind

def chars (i : Input) : List Char := (i.text variableName).toList

theorem tokenKind_chars (i : Input) : MatrixPlan.tokenKind i.chars = i.tokenKind := by
  cases i with
  | node r =>
    rw [chars, text, toList_variableName]
    rfl
  | literal l => exact l.tokenKind_text

theorem chars_injective : Function.Injective chars := by
  intro i j h
  have hkind : i.tokenKind = j.tokenKind := by rw [← tokenKind_chars, ← tokenKind_chars, h]
  cases i with
  | node r => cases j with
    | node q =>
      rw [chars, chars, text, text, toList_variableName, toList_variableName] at h
      rw [numeral_injective (List.cons.inj h).2]
    | literal l => cases l <;> cases hkind
  | literal l => cases j with
    | node q => cases l <;> cases hkind
    | literal l' => rw [Literal.text_injective (String.toList_injective h)]

/-- **All inputs but strings are tokens**, with a character at least. -/
theorem token {i : Input} (hi : i.tokenKind ≠ .string) : i.chars ≠ [] ∧ ∀ c ∈ i.chars, isTokenChar c = true := by
  cases i with
  | node r =>
    rw [chars, text, toList_variableName]
    refine ⟨List.cons_ne_nil _ _, fun c hc => ?_⟩
    rcases List.mem_cons.1 hc with rfl | hc
    · rfl
    · exact isTokenChar_of_isWholeChar (by rw [isWholeChar, isDigit_of_mem_numeral hc, Bool.true_or])
  | literal l => cases l with
    | float x =>
      refine ⟨fun hnil => ?_, fun c hc => isTokenChar_of_mem_double hc⟩
      obtain ⟨c, hhead, -⟩ := startsNumber_double x
      exact absurd ((congrArg List.head? hnil).symm.trans hhead) (by simp)
    | int n =>
      refine ⟨fun hnil => ?_, fun c hc => isTokenChar_of_isWholeChar (isWholeChar_of_mem_toString hc)⟩
      have happ := (toList_toString_int n.toInt).symm.trans hnil
      exact Nat.toDigits_ne_nil (List.append_eq_nil_iff.1 happ).2
    | bool b => cases b <;> exact ⟨by decide, List.all_eq_true.1 (by decide)⟩
    | str s => exact absurd rfl hi

theorem eq_str_of_tokenKind {i : Input} (hi : i.tokenKind = .string) :
    ∃ s : String, i = .literal (.str s) ∧ i.chars = Literal.quoted s.toList := by
  cases i with
  | node r => cases hi
  | literal l => cases l with
    | str s => exact ⟨s, rfl, String.toList_ofList⟩
    | _ => cases hi

/-- No token starts as a string does. -/
theorem token_ne_quoted {i j : Input} {rest rest' : List Char} (hi : i.tokenKind ≠ .string)
    (hj : j.tokenKind = .string) : i.chars ++ rest ≠ j.chars ++ rest' := by
  intro h
  obtain ⟨hne, htoken⟩ := token hi
  obtain ⟨c, cs, hc⟩ := List.exists_cons_of_ne_nil hne
  obtain ⟨s, -, hs⟩ := eq_str_of_tokenKind hj
  have hquote := htoken c (by rw [hc]; exact List.mem_cons_self)
  rw [hc, hs, Literal.quoted] at h
  rw [(List.cons.inj h).1] at hquote
  cases hquote

/-- **Inputs are told apart by their text**, in front of what is not part of a token. -/
theorem cuts : Text.Cuts chars isTokenChar fun _ => True := by
  intro i j rest rest' _ _ hrest hrest' h
  by_cases hi : i.tokenKind = .string <;> by_cases hj : j.tokenKind = .string
  · obtain ⟨s, rfl, hs⟩ := eq_str_of_tokenKind hi
    obtain ⟨s', rfl, hs'⟩ := eq_str_of_tokenKind hj
    rw [hs, hs'] at h
    obtain ⟨hvalue, hrest⟩ := Literal.quoted_cut h
    rw [String.toList_injective hvalue]
    exact ⟨rfl, hrest⟩
  · exact absurd h.symm (token_ne_quoted hj hi)
  · exact absurd h (token_ne_quoted hi hj)
  · obtain ⟨htext, hrest⟩ := Text.cut (token hi).2 (token hj).2 hrest hrest' h
    exact ⟨chars_injective htext, hrest⟩

theorem chars_start (i : Input) : ∃ c cs, i.chars = c :: cs ∧ (c = '\x27' ∨ isTokenChar c = true) := by
  by_cases hi : i.tokenKind = .string
  · obtain ⟨s, -, hs⟩ := eq_str_of_tokenKind hi
    exact ⟨_, _, hs, .inl rfl⟩
  · obtain ⟨hne, htoken⟩ := token hi
    obtain ⟨c, cs, hc⟩ := List.exists_cons_of_ne_nil hne
    exact ⟨c, cs, hc, .inr (htoken c (by rw [hc]; exact List.mem_cons_self))⟩

end Input

/-! ## Matrices -/

theorem scriptFloat_cuts : Text.Cuts (fun x => (scriptFloat x).toList) isTokenChar fun _ => True := by
  intro _ _ _ _ _ _ hrest hrest' h
  obtain ⟨htext, hrest⟩ := Text.cut (fun c hc => isTokenChar_of_mem_double hc)
    (fun c hc => isTokenChar_of_mem_double hc) hrest hrest' h
  exact ⟨scriptFloat_injective (String.toList_injective htext), hrest⟩

theorem scriptFloat_start (x : Float) (_ : True) : ∃ c cs, (scriptFloat x).toList = c :: cs ∧ c ≠ '"' := by
  obtain ⟨c, hhead, hc⟩ := startsNumber_double x
  obtain ⟨cs, htext⟩ := List.head?_eq_some_iff.1 hhead
  refine ⟨c, cs, htext, ?_⟩
  rintro rfl
  rcases hc with hc | hc | hc <;> cases hc

theorem toList_countText (n : UInt64) : (countText n).toList = Nat.toDigits 10 n.toNat := Nat.toList_repr

/-- The digits of a count end where no digit follows. -/
theorem count_cut {n n' : UInt64} {c : Char} {rest rest' : List Char} (hc : c.isDigit = false)
    (h : (countText n).toList ++ c :: rest = (countText n').toList ++ c :: rest') : n = n' ∧ rest = rest' := by
  rw [toList_countText, toList_countText] at h
  obtain ⟨htext, hrest⟩ := Text.cut_at (fun d hd => isDigit_of_mem_numeral hd) (fun d hd => isDigit_of_mem_numeral hd)
    hc h
  exact ⟨UInt64.toNat_inj.1 (numeral_injective htext), hrest⟩

namespace Dense

/-- What follows the opening parenthesis of a matrix that is written out. -/
def body (m : Dense) : List Char :=
  '"' :: ([' '].intercalate (m.values.toList.map fun x => (scriptFloat x).toList) ++ '"' :: (", rows=".toList ++
    ((countText m.rows).toList ++ ',' :: (" cols=".toList ++ ((countText m.cols).toList ++ [')'])))))

theorem toList_text (m : Dense) : m.text.toList = "matrix".toList ++ '(' :: m.body := by
  have hvalues : (" ".intercalate (m.values.toList.map scriptFloat)).toList =
      [' '].intercalate (m.values.toList.map fun x => (scriptFloat x).toList) := by
    rw [String.toList_intercalate, List.map_map]
    rfl
  simp only [text, body, String.toList_append, hvalues, List.append_assoc]
  rfl

theorem ext {m m' : Dense} (hrows : m.rows = m'.rows) (hcols : m.cols = m'.cols) (hvalues : m.values = m'.values) :
    m = m' := by
  cases m
  cases m'
  subst hrows hcols hvalues
  rfl

/-- **Matrices are told apart by their text.** -/
theorem body_cut {m m' : Dense} {rest rest' : List Char} (h : m.body ++ rest = m'.body ++ rest') :
    m = m' ∧ rest = rest' := by
  simp only [body, List.cons_append, List.append_assoc, List.cons.injEq, true_and] at h
  obtain ⟨hvalues, hsize⟩ := Text.intercalate_cut scriptFloat_cuts scriptFloat_start rfl rfl (by decide)
    (fun _ _ => trivial) (fun _ _ => trivial) h
  obtain ⟨hrows, hcols⟩ := count_cut rfl (List.append_cancel_left hsize)
  obtain ⟨hcols, hrest⟩ := count_cut rfl (List.append_cancel_left hcols)
  exact ⟨ext hrows hcols (Array.toList_inj.1 hvalues), hrest⟩

end Dense
end MatrixPlan
