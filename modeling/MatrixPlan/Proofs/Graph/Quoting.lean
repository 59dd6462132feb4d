import MatrixPlan.Proofs.Graph.Tokens
/-!
# Quoting — a quoted string ends at the first quote that is not escaped

A quote is escaped when it has an odd run of backslashes right before it.  In a quoted string every quote but the last is,
whatever backslashes and quotes the string has itself, so a reader that only counts backslashes finds where it ends; and
the escapes are undone from left to right.
-/
namespace MatrixPlan
namespace Literal

variable {cs before rest : List Char}

/-- A text with another one in the place of each occurrence of a character. -/
def substitute (c : Char) (text : List Char) (cs : List Char) : List Char :=
  cs.flatMap fun d => if d = c then text else [d]

/-- Undoes the two escapes, from left to right. -/
def unescape : List Char → List Char
  | '\\' :: '\\' :: rest => '\\' :: unescape rest
  | '\\' :: '\x27' :: rest => '\x27' :: unescape rest
  | c :: rest => c :: unescape rest
  | [] => []

/-- The backslashes at the end of a text. -/
def slashes (cs : List Char) : Nat := (cs.reverse.takeWhile (· == '\\')).length

/-- Whether a quote stands at a place, and is not escaped. -/
def isBareQuote (cs : List Char) (i : Nat) : Bool := cs[i]? == some '\x27' && slashes (cs.take i) % 2 == 0

/-- Takes a string off the front of a text: after its opening quote, what stands before the first bare quote, and what
follows this quote. -/
def takeQuoted? : List Char → Option (List Char × List Char)
  | '\x27' :: cs => ((List.range cs.length).find? (isBareQuote cs)).map fun i => (cs.take i, cs.drop (i + 1))
  | _ => none

/-- **Escaping is two substitutions**, that of backslashes before that of quotes: no quote is put in by the first. -/
theorem flatMap_escaped (cs : List Char) :
    cs.flatMap escaped = substitute '\x27' ['\\', '\x27'] (substitute '\\' ['\\', '\\'] cs) := by
  unfold substitute
  rw [List.flatMap_assoc]
  refine List.flatMap_congr fun c _ => ?_
  unfold escaped
  by_cases hslash : c = '\\'
  · subst hslash
    rfl
  · by_cases hquote : c = '\x27'
    · subst hquote
      rfl
    · rw [if_neg (not_or.2 ⟨hslash, hquote⟩), if_neg hslash, List.flatMap_singleton, if_neg hquote]

theorem unescape_cons {c : Char} (hc : c ≠ '\\') (rest : List Char) : unescape (c :: rest) = c :: unescape rest := by
  rw [unescape]
  · exact fun _ h => absurd h hc
  · exact fun _ h => absurd h hc

/-- **What is escaped is undone.** -/
theorem unescape_escaped (cs : List Char) : unescape (cs.flatMap escaped) = cs := by
  induction cs with
  | nil => rfl
  | cons c cs ih =>
    rw [List.flatMap_cons, escaped]
    by_cases hslash : c = '\\'
    · subst hslash
      rw [if_pos (.inl rfl), List.cons_append, List.cons_append, List.nil_append, unescape, ih]
    · by_cases hquote : c = '\x27'
      · subst hquote
        rw [if_pos (.inr rfl), List.cons_append, List.cons_append, List.nil_append, unescape, ih]
      · rw [if_neg (not_or.2 ⟨hslash, hquote⟩), List.cons_append, List.nil_append, unescape_cons hslash, ih]

theorem slashes_slash (cs : List Char) : slashes (cs ++ ['\\']) = slashes cs + 1 := by
  unfold slashes
  rw [List.reverse_append, List.reverse_singleton, List.singleton_append, List.takeWhile_cons_of_pos (by rfl),
    List.length_cons]

theorem slashes_other {c : Char} (hc : c ≠ '\\') (cs : List Char) : slashes (cs ++ [c]) = 0 := by
  unfold slashes
  rw [List.reverse_append, List.reverse_singleton, List.singleton_append, List.takeWhile_cons_of_neg (by simpa using hc),
    List.length_nil]

/-- An escaped character leaves an even run of backslashes: two more, or none. -/
theorem slashes_escaped_char (h : slashes before % 2 = 0) (c : Char) : slashes (before ++ escaped c) % 2 = 0 := by
  unfold escaped
  split
  · rw [show before ++ ['\\', c] = before ++ ['\\'] ++ [c] from (List.append_assoc before ['\\'] [c]).symm]
    by_cases hslash : c = '\\'
    · rw [hslash, slashes_slash, slashes_slash]
      omega
    · rw [slashes_other hslash]
  · rename_i hc
    rw [slashes_other (not_or.1 hc).1]

/-- Of an escaped character, only a quote has a quote, behind a backslash. -/
theorem slashes_quote_in_escaped (h : slashes before % 2 = 0) {c : Char} {i : Nat} (hi : (escaped c)[i]? = some '\x27') :
    slashes (before ++ (escaped c).take i) % 2 = 1 := by
  by_cases hc : c = '\\' ∨ c = '\x27'
  · rw [escaped, if_pos hc] at hi ⊢
    rcases i with _ | _ | i
    · cases hi
    · rw [List.take_succ_cons, List.take_zero, slashes_slash]
      omega
    · cases hi
  · rw [escaped, if_neg hc] at hi
    cases i with
    | zero => exact absurd (Option.some.inj hi) (not_or.1 hc).2
    | succ i => cases hi

/-- **In an escaped text each quote has an odd run of backslashes before it**, and the text ends with an even one. -/
theorem slashes_escaped (cs : List Char) (h : slashes before % 2 = 0) :
    slashes (before ++ cs.flatMap escaped) % 2 = 0 ∧
      ∀ i, (cs.flatMap escaped)[i]? = some '\x27' → slashes (before ++ (cs.flatMap escaped).take i) % 2 = 1 := by
  induction cs generalizing before with
  | nil => exact ⟨by rwa [List.flatMap_nil, List.append_nil], fun i hi => by cases hi⟩
  | cons c cs ih =>
    obtain ⟨hend, hquotes⟩ := ih (slashes_escaped_char h c)
    rw [List.flatMap_cons]
    refine ⟨by rwa [← List.append_assoc], fun i hi => ?_⟩
    rcases Nat.lt_or_ge i (escaped c).length with hlt | hge
    · rw [List.getElem?_append_left hlt] at hi
      rw [List.take_append_of_le_length hlt.le]
      exact slashes_quote_in_escaped h hi
    · rw [List.getElem?_append_right hge] at hi
      rw [List.take_append, List.take_of_length_le hge, ← List.append_assoc]
      exact hquotes _ hi

/-- **A reader that stops at the first bare quote reads the string**, whatever follows it. -/
theorem takeQuoted?_quoted (cs rest : List Char) : takeQuoted? (quoted cs ++ rest) = some (cs.flatMap escaped, rest) := by
  obtain ⟨hend, hquotes⟩ := @slashes_escaped [] cs rfl
  rw [List.nil_append] at hend
  generalize hinside : cs.flatMap escaped = inside at *
  have hquoted : quoted cs ++ rest = '\x27' :: (inside ++ '\x27' :: rest) := by
    rw [quoted, hinside, List.append_assoc]
    rfl
  have hfound : (List.range (inside ++ '\x27' :: rest).length).find? (isBareQuote (inside ++ '\x27' :: rest)) =
      some inside.length := by
    rw [List.find?_range_eq_some]
    refine ⟨?_, ?_, fun i hi => ?_⟩
    · rw [isBareQuote, List.getElem?_append_right (Nat.le_refl _), Nat.sub_self, List.take_left, hend]
      rfl
    · rw [List.mem_range, List.length_append, List.length_cons]
      omega
    · -- an earlier quote is one of the string, so it is escaped
      rw [Bool.not_eq_true', isBareQuote, List.getElem?_append_left hi, List.take_append_of_le_length hi.le,
        Bool.and_eq_false_iff]
      by_cases hquote : inside[i]? = some '\x27'
      · have hodd := hquotes i hquote
        rw [List.nil_append] at hodd
        exact .inr (by rw [hodd]; rfl)
      · exact .inl (beq_eq_false_iff_ne.2 hquote)
  rw [hquoted, takeQuoted?, hfound, Option.map_some, List.take_left, List.drop_append,
    List.drop_eq_nil_of_le (Nat.le_succ _), Nat.add_sub_cancel_left]
  rfl

/-- **Constants are unambiguous.**  Two with one text are one constant: of one kind and with one value, a double by its
bits, all patterns of `nan` being one.  A string is what stands between its two quotes after the backslashes and then the
quotes are replaced; there each quote is escaped, so that a reader that stops at the first one that is not takes the
string whatever follows it; and undoing the escapes gives the string back. -/
theorem text_unambiguous :
    (∀ l l' : Literal, l.text = l'.text ↔ l = l') ∧
    ∀ s : String, ∃ inside : List Char, (str s).text.toList = '\x27' :: inside ++ ['\x27'] ∧
      inside = substitute '\x27' ['\\', '\x27'] (substitute '\\' ['\\', '\\'] s.toList) ∧
      (∀ i, inside[i]? = some '\x27' → slashes (inside.take i) % 2 = 1) ∧
      (∀ rest, takeQuoted? ((str s).text.toList ++ rest) = some (inside, rest)) ∧
      unescape inside = s.toList := by
  refine ⟨fun l l' => text_injective.eq_iff,
    fun s => ⟨s.toList.flatMap escaped, ?_, flatMap_escaped _, ?_, ?_, unescape_escaped _⟩⟩
  · exact String.toList_ofList
  · exact (@slashes_escaped [] s.toList rfl).2
  · intro rest
    rw [text, String.toList_ofList]
    exact takeQuoted?_quoted s.toList rest

/-- A backslash in front of a quote, and one in front of the end. -/
def bristling : String := String.ofList ['\\', '\x27', '\\']

/-- The quote in this string is behind three backslashes, and the closing one behind two; a whole number and a double are
written differently. -/
theorem text_unambiguous_bristling : ∃ inside : List Char, inside[3]? = some '\x27' ∧ slashes (inside.take 3) % 2 = 1 ∧
    takeQuoted? ((str bristling).text.toList ++ [',', '\x27', ')']) = some (inside, [',', '\x27', ')']) ∧
    (float 1.0).text ≠ (int 1).text := by
  obtain ⟨hvalues, hstrings⟩ := text_unambiguous
  obtain ⟨inside, -, hinside, hquotes, hreader, -⟩ := hstrings bristling
  have hplace : inside[3]? = some '\x27' := by
    rw [hinside, bristling, String.toList_ofList]
    rfl
  exact ⟨inside, hplace, hquotes 3 hplace, hreader _, fun h => Literal.noConfusion ((hvalues _ _).1 h)⟩

end Literal
end MatrixPlan
