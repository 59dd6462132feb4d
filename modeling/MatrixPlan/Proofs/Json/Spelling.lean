import MatrixPlan.Proofs.Json.Words
/-!
# Spelling — the tokens of a JSON value

Each value has a spelling, its tokens in text order.  Both printers write it, one with blanks and one without: what a
`Writable` value is printed as is cut into the tokens of its spelling.
-/
namespace MatrixPlan
namespace Json

mutual

/-- **The tokens of a value.** -/
def spelling : Json → List Token
  | null => [.word null]
  | bool b => [.word (bool b)]
  | number text => [.number text]
  | string text => [.string text]
  | array items => .openArray :: itemsSpelling items ++ [.closeArray]
  | object members => .openObject :: membersSpelling members ++ [.closeObject]
  | broken => []

def itemsSpelling : List Json → List Token
  | [] => []
  | [v] => spelling v
  | v :: vs => spelling v ++ .comma :: itemsSpelling vs

def membersSpelling : List (Json.Text × Json) → List Token
  | [] => []
  | [(key, v)] => .string key :: .colon :: spelling v
  | (key, v) :: ms => .string key :: .colon :: spelling v ++ .comma :: membersSpelling ms

end

mutual

/-- **What can be printed**: numbers are numbers, strings name a text, and nothing is broken. -/
def Writable : Json → Prop
  | null | bool _ => True
  | number text => NumberText text
  | string text => text.isSome
  | array items => ItemsWritable items
  | object members => MembersWritable members
  | broken => False

def ItemsWritable : List Json → Prop
  | [] => True
  | v :: vs => Writable v ∧ ItemsWritable vs

def MembersWritable : List (Json.Text × Json) → Prop
  | [] => True
  | (key, v) :: ms => key.isSome ∧ Writable v ∧ MembersWritable ms

end

mutual

theorem isWhole_of_writable : ∀ {v : Json}, v.Writable → v.isWhole = true
  | .null, _ | .bool _, _ | .number _, _ | .string _, _ => rfl
  | .array _, h => areWhole_of_writable h
  | .object _, h => membersWhole_of_writable h

theorem areWhole_of_writable : ∀ {vs : List Json}, ItemsWritable vs → areWhole vs = true
  | [], _ => rfl
  | _ :: _, h => Bool.and_eq_true_iff.2 ⟨isWhole_of_writable h.1, areWhole_of_writable h.2⟩

theorem membersWhole_of_writable : ∀ {ms : List (Json.Text × Json)}, MembersWritable ms → membersWhole ms = true
  | [], _ => rfl
  | (_, _) :: _, h => Bool.and_eq_true_iff.2 ⟨isWhole_of_writable h.2.1, membersWhole_of_writable h.2.2⟩

end

/-- **A text that is cut into tokens**, in front of what does not go on with a character of a number. -/
def Reads (cs : List Char) (ts : List Token) : Prop :=
  ∀ rest, ¬ Text.Continues isNumberChar rest → tokens (cs ++ rest) = ts ++ tokens rest

variable {cs cs' ds rest : List Char} {ts ts' : List Token} {c : Char} {t : Token}

theorem tokens_gap (hc : isGap c = true) (cs : List Char) : tokens (c :: cs) = tokens cs := by
  rw [tokens, if_pos hc]

theorem tokens_of_token? (hgap : ¬ Text.Continues isGap cs) (h : token? cs = some (t, rest)) :
    tokens cs = t :: tokens rest := by
  cases cs with
  | nil => cases h
  | cons c cs =>
    rw [tokens, if_neg fun hc => hgap ⟨c, rfl, hc⟩]
    split
    · rename_i hnone
      rw [hnone] at h
      cases h
    · rename_i t' rest' hsome
      cases hsome.symm.trans h
      rfl

namespace Reads

theorem nil : Reads [] [] := fun _ _ => rfl

theorem tokens_eq (h : Reads cs ts) : tokens cs = ts := by
  have hread := h [] (by rintro ⟨_, ⟨⟩, _⟩)
  rwa [List.append_nil, tokens, List.append_nil] at hread

theorem gap (hc : isGap c = true) (h : Reads cs ts) : Reads (c :: cs) ts := fun rest hrest => by
  rw [List.cons_append, tokens_gap hc, h rest hrest]

/-- A character that is a token by itself, in front of a text. -/
theorem mark (ht : ∀ cs, token? (c :: cs) = some (t, cs)) (hc : isGap c = false) (h : Reads cs ts) :
    Reads (c :: cs) (t :: ts) := fun rest hrest => by
  rw [List.cons_append, tokens_of_token? (Text.not_continues_cons hc) (ht _), h rest hrest, List.cons_append]

/-- One text after another, which does not go on with a character of a number. -/
theorem append (h : Reads cs ts) (h' : Reads cs' ts') (hstart : ¬ Text.Continues isNumberChar cs') :
    Reads (cs ++ cs') (ts ++ ts') := fun rest hrest => by
  have hstop : ¬ Text.Continues isNumberChar (cs' ++ rest) := by
    cases cs' with
    | nil => exact hrest
    | cons c cs' => exact hstart
  rw [List.append_assoc, h _ hstop, h' rest hrest, List.append_assoc]

theorem newline (level : Nat) (h : Reads cs ts) : Reads (Json.newline level ++ cs) ts := by
  refine gap rfl ?_
  generalize 2 * level = n
  induction n with
  | zero => exact h
  | succ n ih => exact gap rfl ih

theorem comma (h : Reads cs ts) : Reads (',' :: cs) (.comma :: ts) := .mark (fun _ => rfl) rfl h

theorem colon (h : Reads cs ts) : Reads (':' :: cs) (.colon :: ts) := .mark (fun _ => rfl) rfl h

theorem closeArray : Reads [']'] [.closeArray] := .mark (fun _ => rfl) rfl .nil

theorem closeObject : Reads ['}'] [.closeObject] := .mark (fun _ => rfl) rfl .nil

theorem string {text : Json.Text} (h : text.isSome) : Reads (textChars text) [.string text] := fun rest _ => by
  obtain ⟨s, rfl⟩ := Option.isSome_iff_exists.1 h
  exact tokens_of_token? (Text.not_continues_cons rfl) (token?_quoted s rest)

theorem number (h : NumberText ds) : Reads ds [.number ds] := fun rest hrest => by
  have hgap : ¬ Text.Continues isGap (ds ++ rest) := by
    obtain ⟨c, cs, rfl, hc⟩ := h.head
    refine Text.not_continues_cons ?_
    rcases hc with rfl | hc
    · rfl
    · unfold isGap
      simp only [Bool.or_eq_false_iff, beq_eq_false_iff_ne]
      refine ⟨⟨⟨?_, ?_⟩, ?_⟩, ?_⟩ <;> rintro rfl <;> cases hc
  rw [tokens_of_token? hgap (token?_number h hrest), List.singleton_append]

theorem word (b : Bool) : Reads (compact (.bool b)) [.word (.bool b)] := fun _ _ => by
  cases b <;> exact tokens_of_token? (Text.not_continues_cons rfl) rfl

theorem null : Reads (compact .null) [.word .null] := fun _ _ =>
  tokens_of_token? (Text.not_continues_cons rfl) rfl

end Reads

/-! ## What is printed -/

theorem stop_comma (cs : List Char) : ¬ Text.Continues isNumberChar (',' :: cs) := Text.not_continues_cons rfl

theorem stop_colon (cs : List Char) : ¬ Text.Continues isNumberChar (':' :: cs) := Text.not_continues_cons rfl

theorem stop_newline (level : Nat) (cs : List Char) : ¬ Text.Continues isNumberChar (newline level ++ cs) :=
  Text.not_continues_cons rfl

mutual

/-- **A value that is printed without blanks is cut into its spelling.** -/
theorem reads_compact : ∀ {v : Json}, v.Writable → Reads v.compact v.spelling
  | .null, _ => .null
  | .bool b, _ => .word b
  | .number _, h => .number h
  | .string _, h => .string h
  | .array _, h => .mark (fun _ => rfl) rfl ((reads_compactItems h).append .closeArray (Text.not_continues_cons rfl))
  | .object _, h => .mark (fun _ => rfl) rfl ((reads_compactMembers h).append .closeObject (Text.not_continues_cons rfl))

theorem reads_compactItems : ∀ {vs : List Json}, ItemsWritable vs → Reads (compactItems vs) (itemsSpelling vs)
  | [], _ => .nil
  | [_], h => reads_compact h.1
  | _ :: _ :: _, h => (reads_compact h.1).append (reads_compactItems h.2).comma (stop_comma _)

theorem reads_compactMembers :
    ∀ {ms : List (Json.Text × Json)}, MembersWritable ms → Reads (compactMembers ms) (membersSpelling ms)
  | [], _ => .nil
  | [(_, _)], h => (Reads.string h.1).append (reads_compact h.2.1).colon (stop_colon _)
  | (_, _) :: _ :: _, h => ((Reads.string h.1).append (reads_compact h.2.1).colon (stop_colon _)).append
      (reads_compactMembers h.2.2).comma (stop_comma _)

end

mutual

/-- **A value that is printed with one part a line is cut into its spelling.** -/
theorem reads_pretty : ∀ {v : Json} (level : Nat), v.Writable → Reads (v.pretty level) v.spelling
  | .null, _, _ => .null
  | .bool true, _, _ => .word true
  | .bool false, _, _ => .word false
  | .number _, _, h => .number h
  | .string _, _, h => .string h
  | .array [], _, _ => .mark (fun _ => rfl) rfl .closeArray
  | .array (_ :: _), level, h => by
    have hitems := (reads_prettyItems (level + 1) h).append (Reads.closeArray.newline level) (stop_newline level _)
    rw [← List.append_assoc] at hitems
    exact .mark (fun _ => rfl) rfl hitems
  | .object [], _, _ => .mark (fun _ => rfl) rfl .closeObject
  | .object (_ :: _), level, h => by
    have hmembers := (reads_prettyMembers (level + 1) h).append (Reads.closeObject.newline level) (stop_newline level _)
    rw [← List.append_assoc] at hmembers
    exact .mark (fun _ => rfl) rfl hmembers

theorem reads_prettyItems :
    ∀ {vs : List Json} (level : Nat), ItemsWritable vs → Reads (prettyItems level vs) (itemsSpelling vs)
  | [], _, _ => .nil
  | [_], level, h => (reads_pretty level h.1).newline level
  | _ :: _ :: _, level, h =>
    ((reads_pretty level h.1).newline level).append (reads_prettyItems level h.2).comma (stop_comma _)

theorem reads_prettyMembers :
    ∀ {ms : List (Json.Text × Json)} (level : Nat), MembersWritable ms → Reads (prettyMembers level ms) (membersSpelling ms)
  | [], _, _ => .nil
  | [(_, _)], level, h =>
    ((Reads.string h.1).newline level).append ((reads_pretty level h.2.1).gap rfl).colon (stop_colon _)
  | (_, _) :: _ :: _, level, h =>
    (((Reads.string h.1).newline level).append ((reads_pretty level h.2.1).gap rfl).colon (stop_colon _)).append
      (reads_prettyMembers level h.2.2).comma (stop_comma _)

end

end Json
end MatrixPlan
