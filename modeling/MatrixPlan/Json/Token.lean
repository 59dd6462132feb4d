import MatrixPlan.Json.Basic
import MatrixPlan.Text.Hex
/-!
# Token — the words of a JSON text

A text is cut into brackets, separators, strings, numbers and the three words.  Blanks between them are dropped.  The
first place where no token starts is the token `stray`, and nothing is read after it.
-/
namespace MatrixPlan
namespace Json

inductive Token where
  | openArray
  | closeArray
  | openObject
  | closeObject
  | comma
  | colon
  | string (text : Json.Text)
  | number (text : List Char)
  | word (value : Json)
  | stray

/-- What a string holds before its surrogate pairs are joined: characters, and 16-bit units written in base sixteen. -/
inductive Piece where
  | char (c : Char)
  | unit (n : Nat)

def unescaped? (c : Char) : Option Char :=
  if c = '"' then some '"'
  else if c = '\\' then some '\\'
  else if c = '/' then some '/'
  else if c = 'b' then some '\x08'
  else if c = 'f' then some '\x0c'
  else if c = 'n' then some '\n'
  else if c = 'r' then some '\r'
  else if c = 't' then some '\t'
  else none

/-- The pieces of a string up to its closing quote, after the pieces `acc` in reverse, and the rest of the text. -/
def stringPieces? (acc : List Piece) : List Char → Option (List Piece × List Char)
  | [] => none
  | '"' :: cs => some (acc.reverse, cs)
  | '\\' :: 'u' :: a :: b :: c :: d :: cs => match Text.ofHex? 0 [a, b, c, d] with
    | some n => stringPieces? (.unit n :: acc) cs
    | none => none
  | '\\' :: c :: cs => match unescaped? c with
    | some c => stringPieces? (.char c :: acc) cs
    | none => none
  | c :: cs => if c = '\\' ∨ c.toNat < 0x20 then none else stringPieces? (.char c :: acc) cs

def isHighSurrogate (n : Nat) : Bool := decide (0xD800 ≤ n ∧ n < 0xDC00)

def isLowSurrogate (n : Nat) : Bool := decide (0xDC00 ≤ n ∧ n < 0xE000)

/-- The characters of a string, unless it holds half a surrogate pair. -/
def joinPieces? : List Piece → Option (List Char)
  | [] => some []
  | .char c :: ps => (joinPieces? ps).map (c :: ·)
  | .unit high :: .unit low :: ps =>
    if isHighSurrogate high then
      if isLowSurrogate low then
        (joinPieces? ps).map (Char.ofNat (0x10000 + (high - 0xD800) * 0x400 + (low - 0xDC00)) :: ·)
      else none
    else if isLowSurrogate high then none
    else (joinPieces? (.unit low :: ps)).map (Char.ofNat high :: ·)
  | .unit n :: ps =>
    if isHighSurrogate n || isLowSurrogate n then none else (joinPieces? ps).map (Char.ofNat n :: ·)

/-- A run of at least one digit, and the rest of the text. -/
def spanDigits? (cs : List Char) : Option (List Char × List Char) :=
  if cs.takeWhile Char.isDigit = [] then none else some (cs.takeWhile Char.isDigit, cs.dropWhile Char.isDigit)

/-- The whole part of a number, without leading zeros, and the rest of the text. -/
def spanWhole? (cs : List Char) : Option (List Char × List Char) :=
  (spanDigits? cs).bind fun (ds, rest) => if ds.head? = some '0' ∧ ds.length ≠ 1 then none else some (ds, rest)

def spanFraction? : List Char → Option (List Char × List Char)
  | '.' :: cs => (spanDigits? cs).map fun (ds, rest) => ('.' :: ds, rest)
  | cs => some ([], cs)

def spanPower? : List Char → Option (List Char × List Char)
  | [] => some ([], [])
  | mark :: cs =>
    if mark = 'e' ∨ mark = 'E' then
      match cs with
      | '-' :: cs => (spanDigits? cs).map fun (ds, rest) => (mark :: '-' :: ds, rest)
      | '+' :: cs => (spanDigits? cs).map fun (ds, rest) => (mark :: '+' :: ds, rest)
      | cs => (spanDigits? cs).map fun (ds, rest) => (mark :: ds, rest)
    else some ([], mark :: cs)

def spanMagnitude? (cs : List Char) : Option (List Char × List Char) :=
  (spanWhole? cs).bind fun (whole, cs) =>
  (spanFraction? cs).bind fun (fraction, cs) =>
  (spanPower? cs).map fun (power, cs) => (whole ++ fraction ++ power, cs)

def spanNumber? : List Char → Option (List Char × List Char)
  | '-' :: cs => (spanMagnitude? cs).map fun (text, rest) => ('-' :: text, rest)
  | cs => spanMagnitude? cs

def isGap (c : Char) : Bool := c == ' ' || c == '\n' || c == '\r' || c == '\t'

/-- The token at the front of a text that does not start with a gap, and the rest of the text. -/
def token? : List Char → Option (Token × List Char)
  | '[' :: cs => some (.openArray, cs)
  | ']' :: cs => some (.closeArray, cs)
  | '{' :: cs => some (.openObject, cs)
  | '}' :: cs => some (.closeObject, cs)
  | ',' :: cs => some (.comma, cs)
  | ':' :: cs => some (.colon, cs)
  | '"' :: cs => (stringPieces? [] cs).map fun (ps, rest) => (.string ((joinPieces? ps).map String.ofList), rest)
  | 'n' :: 'u' :: 'l' :: 'l' :: cs => some (.word null, cs)
  | 't' :: 'r' :: 'u' :: 'e' :: cs => some (.word (bool true), cs)
  | 'f' :: 'a' :: 'l' :: 's' :: 'e' :: cs => some (.word (bool false), cs)
  | cs => (spanNumber? cs).map fun (text, rest) => (.number text, rest)

theorem stringPieces?_length {acc : List Piece} {cs : List Char} {ps : List Piece} {rest : List Char}
    (h : stringPieces? acc cs = some (ps, rest)) : rest.length < cs.length := by
  fun_induction stringPieces? acc cs with
  | case1 => simp at h
  | case2 acc cs => simp_all
  | case3 acc a b c d cs n hn ih => have := ih h; simp only [List.length_cons]; omega
  | case4 => simp at h
  | case5 acc cs c hu c' hc ih => have := ih h; simp only [List.length_cons]; omega
  | case6 => simp at h
  | case7 => simp at h
  | case8 acc c cs hq hu he hc ih => have := ih h; simp only [List.length_cons]; omega

theorem spanDigits?_length {cs ds rest : List Char} (h : spanDigits? cs = some (ds, rest)) :
    rest.length < cs.length := by
  unfold spanDigits? at h
  split at h
  · simp at h
  · next hne =>
    simp only [Option.some.injEq, Prod.mk.injEq] at h
    obtain ⟨-, rfl⟩ := h
    have hl := congrArg List.length (List.takeWhile_append_dropWhile (p := Char.isDigit) (l := cs))
    have := List.length_pos_iff.2 hne
    rw [List.length_append] at hl
    omega

theorem spanWhole?_length {cs ds rest : List Char} (h : spanWhole? cs = some (ds, rest)) :
    rest.length < cs.length := by
  obtain ⟨⟨ds', rest'⟩, hd, hr⟩ := Option.bind_eq_some_iff.1 h
  simp only at hr
  split at hr
  · simp at hr
  · cases hr; exact spanDigits?_length hd

theorem spanFraction?_length {cs ds rest : List Char} (h : spanFraction? cs = some (ds, rest)) :
    rest.length ≤ cs.length := by
  unfold spanFraction? at h
  split at h
  · obtain ⟨⟨ds', rest'⟩, hd, hr⟩ := Option.map_eq_some_iff.1 h
    cases hr
    have := spanDigits?_length hd
    simp only [List.length_cons]; omega
  · cases h; exact Nat.le_refl _

theorem spanPower?_length {cs ds rest : List Char} (h : spanPower? cs = some (ds, rest)) :
    rest.length ≤ cs.length := by
  unfold spanPower? at h
  split at h
  · cases h; exact Nat.le_refl _
  · split at h
    · split at h <;>
      · obtain ⟨⟨ds', rest'⟩, hd, hr⟩ := Option.map_eq_some_iff.1 h
        cases hr
        have := spanDigits?_length hd
        simp only [List.length_cons]; omega
    · cases h; exact Nat.le_refl _

theorem spanMagnitude?_length {cs ds rest : List Char} (h : spanMagnitude? cs = some (ds, rest)) :
    rest.length < cs.length := by
  obtain ⟨⟨w, cs₁⟩, hw, h⟩ := Option.bind_eq_some_iff.1 h
  obtain ⟨⟨f, cs₂⟩, hf, h⟩ := Option.bind_eq_some_iff.1 h
  obtain ⟨⟨p, cs₃⟩, hp, h⟩ := Option.map_eq_some_iff.1 h
  cases h
  have := spanWhole?_length hw
  have := spanFraction?_length hf
  have := spanPower?_length hp
  omega

theorem spanNumber?_length {cs ds rest : List Char} (h : spanNumber? cs = some (ds, rest)) :
    rest.length < cs.length := by
  unfold spanNumber? at h
  split at h
  · obtain ⟨⟨ds', rest'⟩, hd, hr⟩ := Option.map_eq_some_iff.1 h
    cases hr
    have := spanMagnitude?_length hd
    simp only [List.length_cons]; omega
  · exact spanMagnitude?_length h

/-- Every token takes at least one character. -/
theorem token?_length {cs rest : List Char} {t : Token} (h : token? cs = some (t, rest)) :
    rest.length < cs.length := by
  unfold token? at h
  split at h
  case h_7 =>
    obtain ⟨⟨ps, rest'⟩, hd, hr⟩ := Option.map_eq_some_iff.1 h
    cases hr
    have := stringPieces?_length hd
    simp only [List.length_cons]; omega
  case h_11 =>
    obtain ⟨⟨ds, rest'⟩, hd, hr⟩ := Option.map_eq_some_iff.1 h
    cases hr
    exact spanNumber?_length hd
  all_goals
    cases h
    simp only [List.length_cons]; omega

def tokens : List Char → List Token
  | [] => []
  | c :: cs =>
    if isGap c then tokens cs
    else match h : token? (c :: cs) with
      | none => [.stray]
      | some (t, rest) => t :: tokens rest
termination_by cs => cs.length
decreasing_by
  · exact Nat.lt_succ_self cs.length
  · exact token?_length h

end Json
end MatrixPlan
