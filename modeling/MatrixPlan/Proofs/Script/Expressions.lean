import MatrixPlan.Proofs.Script.Spelling
import MatrixPlan.Workspace.Application
import MatrixPlan.Workspace.Source
/-!
# Expressions — the right side of a statement tells what its node is made from

The arguments of a call are told apart by commas, and the form of an expression by what it starts with.  So an expression,
whatever follows its semicolon, tells all that a node is made from but its metadata (`NodeSpec.expression_cut`), as long
as the node is spelled like those of sources and applications.
-/
namespace MatrixPlan

open Lowering (variableName)

/-- A name that is not empty, with characters of one class. -/
structure IsWord (p : Char → Bool) (name : String) : Prop where
  nonempty : name.toList ≠ []
  all : name.toList.all p = true

instance (p : Char → Bool) (name : String) : Decidable (IsWord p name) :=
  decidable_of_iff (name.toList ≠ [] ∧ name.toList.all p = true) ⟨fun h => ⟨h.1, h.2⟩, fun h => ⟨h.1, h.2⟩⟩

theorem IsWord.of_mem {p : Char → Bool} {name : String} (h : IsWord p name) : ∀ c ∈ name.toList, p c = true :=
  List.all_eq_true.1 h.all

/-! ## Arguments -/

namespace Argument

/-- An argument, with its name if it has one. -/
def chars : Option String × Input → List Char
  | (none, i) => i.chars
  | (some name, i) => name.toList ++ '=' :: i.chars

/-- Names of arguments are made of letters. -/
def Named (a : Option String × Input) : Prop := ∀ name, a.1 = some name → IsWord Char.isAlpha name

def isArgumentChar (c : Char) : Bool := isTokenChar c || c == '='

variable {rest rest' : List Char}

theorem isTokenChar_of_isAlpha {c : Char} (hc : c.isAlpha = true) : isTokenChar c = true := by
  rw [isTokenChar, Char.isAlphanum, hc, Bool.true_or, Bool.true_or, Bool.true_or]

theorem not_continues_token (h : ¬ Text.Continues isArgumentChar rest) : ¬ Text.Continues isTokenChar rest :=
  Text.not_continues_mono (fun c hc => by rw [isArgumentChar, hc, Bool.true_or]) h

/-- An argument with a name is told from one without: a token ends at the sign after the name, and no string starts with
a letter. -/
theorem unnamed_ne_named {i j : Input} {name : String} (hname : IsWord Char.isAlpha name)
    (hrest : ¬ Text.Continues isArgumentChar rest) : chars (none, i) ++ rest ≠ chars (some name, j) ++ rest' := by
  intro h
  have hletters : ∀ c ∈ name.toList, isTokenChar c = true := fun c hc => isTokenChar_of_isAlpha (hname.of_mem c hc)
  simp only [chars, List.append_assoc, List.cons_append] at h
  by_cases hi : i.tokenKind = .string
  · obtain ⟨s, -, hs⟩ := Input.eq_str_of_tokenKind hi
    obtain ⟨c, cs, hc⟩ := List.exists_cons_of_ne_nil hname.nonempty
    have hquote := hletters c (by rw [hc]; exact List.mem_cons_self)
    rw [hs, hc, Literal.quoted] at h
    rw [← (List.cons.inj h).1] at hquote
    cases hquote
  · obtain ⟨-, hsign⟩ := Text.cut (Input.token hi).2 hletters (not_continues_token hrest)
      (Text.not_continues_cons (by rfl)) h
    rw [hsign] at hrest
    exact hrest ⟨'=', rfl, rfl⟩

/-- **Arguments are told apart by their text.** -/
theorem cuts : Text.Cuts chars isArgumentChar Named := by
  intro a b rest rest' ha hb hrest hrest' h
  obtain ⟨_ | name, i⟩ := a <;> obtain ⟨_ | name', j⟩ := b
  · obtain ⟨rfl, hrest⟩ := Input.cuts trivial trivial (not_continues_token hrest)
      (not_continues_token hrest') h
    exact ⟨rfl, hrest⟩
  · exact absurd h (unnamed_ne_named (hb name' rfl) hrest)
  · exact absurd h.symm (unnamed_ne_named (ha name rfl) hrest')
  · simp only [chars, List.append_assoc, List.cons_append] at h
    obtain ⟨hname, hvalue⟩ := Text.cut_at (fun c hc => isTokenChar_of_isAlpha ((ha name rfl).of_mem c hc))
      (fun c hc => isTokenChar_of_isAlpha ((hb name' rfl).of_mem c hc)) (by rfl) h
    obtain ⟨rfl, hrest⟩ := Input.cuts trivial trivial (not_continues_token hrest)
      (not_continues_token hrest') hvalue
    rw [String.toList_injective hname]
    exact ⟨rfl, hrest⟩

theorem chars_start {a : Option String × Input} (ha : Named a) :
    ∃ c cs, chars a = c :: cs ∧ (c = '\x27' ∨ isTokenChar c = true) := by
  obtain ⟨_ | name, i⟩ := a
  · exact i.chars_start
  · obtain ⟨c, cs, hc⟩ := List.exists_cons_of_ne_nil (ha name rfl).nonempty
    refine ⟨c, cs ++ '=' :: i.chars, by rw [chars, hc, List.cons_append], .inr ?_⟩
    exact isTokenChar_of_isAlpha ((ha name rfl).of_mem c (by rw [hc]; exact List.mem_cons_self))

/-- The arguments of a call, those without a name first. -/
def all (unnamed : List Input) (named : List (String × Input)) : List (Option String × Input) :=
  unnamed.map (fun i => (none, i)) ++ named.map fun p => (some p.1, p.2)

variable {unnamed unnamed' : List Input} {named named' : List (String × Input)}

theorem named_of_mem_all (hnamed : ∀ p ∈ named, IsWord Char.isAlpha p.1) : ∀ a ∈ all unnamed named, Named a := by
  intro a ha name hname
  rcases List.mem_append.1 ha with ha | ha
  · obtain ⟨i, -, rfl⟩ := List.mem_map.1 ha
    cases hname
  · obtain ⟨p, hp, rfl⟩ := List.mem_map.1 ha
    cases hname
    exact hnamed p hp

/-- The arguments tell which inputs have names. -/
theorem all_inj (h : all unnamed named = all unnamed' named') : unnamed = unnamed' ∧ named = named' := by
  have hunnamed : ∀ unnamed named, (all unnamed named).filterMap (fun a => if a.1.isNone then some a.2 else none) =
      unnamed := by
    intro unnamed named
    simp [all, List.filterMap_append, List.filterMap_map]
  have hnamed : ∀ unnamed named, (all unnamed named).filterMap (fun a => a.1.map fun name => (name, a.2)) = named := by
    intro unnamed named
    simp [all, List.filterMap_append, List.filterMap_map]
  exact ⟨by rw [← hunnamed unnamed named, h, hunnamed], by rw [← hnamed unnamed named, h, hnamed]⟩

/-- What follows the opening parenthesis of a call. -/
def body (unnamed : List Input) (named : List (String × Input)) : List Char :=
  [',', ' '].intercalate ((all unnamed named).map chars) ++ [')']

/-- **The arguments of calls are told apart by their text.** -/
theorem body_cut (hnamed : ∀ p ∈ named, IsWord Char.isAlpha p.1) (hnamed' : ∀ p ∈ named', IsWord Char.isAlpha p.1)
    (h : body unnamed named ++ rest = body unnamed' named' ++ rest') :
    unnamed = unnamed' ∧ named = named' ∧ rest = rest' := by
  have hstart : ∀ a, Named a → ∃ c cs, chars a = c :: cs ∧ c ≠ ')' := fun a ha => by
    obtain ⟨c, cs, htext, hc⟩ := chars_start ha
    refine ⟨c, cs, htext, ?_⟩
    rintro rfl
    rcases hc with hc | hc <;> cases hc
  simp only [body, List.append_assoc] at h
  obtain ⟨harguments, hrest⟩ := Text.intercalate_cut cuts hstart rfl rfl (by decide) (named_of_mem_all hnamed)
    (named_of_mem_all hnamed') h
  obtain ⟨hunnamed, hnames⟩ := all_inj harguments
  exact ⟨hunnamed, hnames, hrest⟩

/-- No argument starts as the cells of a matrix do. -/
theorem dense_ne_body {m : Dense} (hnamed : ∀ p ∈ named, IsWord Char.isAlpha p.1) :
    m.body ++ rest ≠ body unnamed named ++ rest' := by
  intro h
  have hall : ∀ a ∈ all unnamed named, Named a := named_of_mem_all hnamed
  rw [Dense.body, body] at h
  cases harguments : all unnamed named with
  | nil =>
    rw [harguments] at h
    cases h
  | cons a arguments =>
    rw [harguments] at h hall
    obtain ⟨c, cs, htext, hc⟩ := chars_start (hall a List.mem_cons_self)
    rw [List.map_cons, Text.intercalate_cons_eq, htext] at h
    rw [← (List.cons.inj h).1] at hc
    rcases hc with hc | hc <;> cases hc

end Argument

/-! ## Expressions -/

/-- What an expression looks like. -/
inductive NodeKind.Form where
  /-- `operation(…)` -/
  | called
  | operator
  | constant

namespace NodeKind

def form : NodeKind → Form
  | .call | .dense _ => .called
  | .operator => .operator
  | .constant => .constant

/-- The form of an expression, from its first character. -/
def formOf (cs : List Char) : Form :=
  match cs.head? with
  | some c => if c.isLower then .called else if c = 'V' then .operator else .constant
  | none => .constant

theorem formOf_word {name : String} (h : IsWord Char.isLower name) (rest : List Char) :
    formOf (name.toList ++ rest) = .called := by
  obtain ⟨c, cs, hc⟩ := List.exists_cons_of_ne_nil h.nonempty
  have hlower : c.isLower = true := h.of_mem c (by rw [hc]; exact List.mem_cons_self)
  rw [hc, List.cons_append, formOf, List.head?_cons]
  exact if_pos hlower

theorem formOf_number {c : Char} (hc : startsNumber c) (cs : List Char) : formOf (c :: cs) = .constant := by
  have hlower : ¬ c.isLower = true := by
    rw [isLower_of_startsNumber hc]
    exact Bool.false_ne_true
  have hname : c ≠ 'V' := by
    rintro rfl
    rcases hc with hc | hc | hc <;> cases hc
  rw [formOf, List.head?_cons]
  dsimp only
  rw [if_neg hlower, if_neg hname]

end NodeKind

namespace NodeSpec

/-- **A node is spelled like those of sources and applications.** -/
inductive Spelled : NodeSpec → Prop where
  | call {operation : String} {output : OutputType} {unnamed : List Input} {named : List (String × Input)}
      {metadata : Metadata} (word : IsWord Char.isLower operation) (names : ∀ p ∈ named, IsWord Char.isAlpha p.1)
      (result : output = if operation ∈ ["sum", "auc"] then .scalar else .matrix) :
      Spelled ⟨operation, .call, output, unnamed, named, metadata⟩
  | dense {m : Dense} {metadata : Metadata} : Spelled ⟨"matrix", .dense m, .matrix, [], [], metadata⟩
  | operator {operation : String} {r : Nat} {i : Input} {metadata : Metadata}
      (spaceless : operation.toList.all (· != ' ') = true) :
      Spelled ⟨operation, .operator, .matrix, [.node r, i], [], metadata⟩
  | constant {x : Float} {metadata : Metadata} :
      Spelled ⟨"literal", .constant, .scalar, [.literal (.float x)], [], metadata⟩

/-- All that a node is made from but its metadata. -/
def bare (s : NodeSpec) : NodeSpec := { s with metadata := .unknown }

section

variable {operation : String} {output : OutputType} {unnamed : List Input} {named : List (String × Input)}
  {metadata : Metadata}

theorem toList_call : (expression ⟨operation, .call, output, unnamed, named, metadata⟩ variableName).toList =
    operation.toList ++ '(' :: Argument.body unnamed named := by
  have hnamed : (String.toList ∘ fun p : String × Input => p.1 ++ "=" ++ Input.text variableName p.2) =
      Argument.chars ∘ fun p => (some p.1, p.2) := by
    funext p
    simp [Argument.chars, Input.chars, String.toList_append]
  have harguments : (unnamed.map (Input.text variableName) ++
      named.map fun p => p.1 ++ "=" ++ Input.text variableName p.2).map String.toList =
      (Argument.all unnamed named).map Argument.chars := by
    rw [List.map_append, List.map_map, List.map_map, hnamed, Argument.all, List.map_append, List.map_map, List.map_map]
    rfl
  simp only [expression, String.toList_append, String.toList_intercalate, harguments, List.append_assoc]
  rfl

theorem toList_operator {r : Nat} {i : Input} :
    (expression ⟨operation, .operator, output, [.node r, i], named, metadata⟩ variableName).toList =
      (Input.node r).chars ++ ' ' :: (operation.toList ++ ' ' :: i.chars) := by
  simp only [expression, List.map_cons, List.map_nil, String.toList_intercalate, String.toList_append,
    List.intercalate_cons_cons, List.intercalate_singleton, List.append_assoc]
  rfl

theorem toList_constant {l : Literal} :
    (expression ⟨operation, .constant, output, [.literal l], named, metadata⟩ variableName).toList =
      (Input.literal l).chars := by
  simp only [expression, List.map_cons, List.map_nil, String.toList_intercalate, List.intercalate_singleton]
  rfl

end

variable {s s' : NodeSpec} {rest rest' : List Char}

/-- **The form of an expression shows in its first character**: an operation is lower-case, and a variable is not a
number. -/
theorem formOf_expression (hs : s.Spelled) (rest : List Char) :
    NodeKind.formOf ((s.expression variableName).toList ++ rest) = s.kind.form := by
  cases hs with
  | call word =>
    rw [toList_call, List.append_assoc]
    exact NodeKind.formOf_word word _
  | dense =>
    rw [expression, Dense.toList_text, List.append_assoc]
    exact NodeKind.formOf_word (by decide) _
  | operator =>
    rw [toList_operator, Input.chars, Input.text, toList_variableName]
    rfl
  | @constant x =>
    obtain ⟨c, hhead, hc⟩ := startsNumber_double x
    obtain ⟨cs, htext⟩ := List.head?_eq_some_iff.1 hhead
    rw [toList_constant, Input.chars, Input.text, Literal.text, htext]
    exact NodeKind.formOf_number hc _

/-- **An expression tells what its node is made from**, but for the metadata, whatever follows the semicolon. -/
theorem expression_cut (hs : s.Spelled) (hs' : s'.Spelled)
    (h : (s.expression variableName).toList ++ ';' :: rest = (s'.expression variableName).toList ++ ';' :: rest') :
    s.bare = s'.bare ∧ rest = rest' := by
  have hform : s.kind.form = s'.kind.form := by
    rw [← formOf_expression hs (';' :: rest), h, formOf_expression hs']
  cases hs with
  | call word names result => cases hs' with
    | call word' names' result' =>
      rw [toList_call, toList_call, List.append_assoc, List.append_assoc] at h
      obtain ⟨hoperation, hbody⟩ := Text.cut_at word.of_mem word'.of_mem (by rfl) h
      obtain ⟨rfl, rfl, hrest⟩ := Argument.body_cut names names' hbody
      cases String.toList_injective hoperation
      rw [bare, bare, result, result']
      exact ⟨rfl, (List.cons.inj hrest).2⟩
    | dense =>
      rw [toList_call, expression, Dense.toList_text, List.append_assoc, List.append_assoc] at h
      obtain ⟨-, hbody⟩ := Text.cut_at word.of_mem (List.all_eq_true.1 (by decide)) (by rfl) h
      exact absurd hbody.symm (Argument.dense_ne_body names)
    | operator => cases hform
    | constant => cases hform
  | dense => cases hs' with
    | call word' names' =>
      rw [toList_call, expression, Dense.toList_text, List.append_assoc, List.append_assoc] at h
      obtain ⟨-, hbody⟩ := Text.cut_at (List.all_eq_true.1 (by decide)) word'.of_mem (by rfl) h
      exact absurd hbody (Argument.dense_ne_body names')
    | dense =>
      rw [expression, expression, Dense.toList_text, Dense.toList_text, List.append_assoc, List.append_assoc] at h
      obtain ⟨rfl, hrest⟩ := Dense.body_cut (List.cons.inj (List.append_cancel_left h)).2
      exact ⟨rfl, (List.cons.inj hrest).2⟩
    | operator => cases hform
    | constant => cases hform
  | operator spaceless => cases hs' with
    | operator spaceless' =>
      rw [toList_operator, toList_operator] at h
      simp only [List.append_assoc, List.cons_append] at h
      obtain ⟨hleft, hmiddle⟩ := Input.cuts.at trivial trivial (by rfl) h
      obtain ⟨hoperation, hright⟩ := Text.cut_at (List.all_eq_true.1 spaceless) (List.all_eq_true.1 spaceless') (by rfl)
        hmiddle
      obtain ⟨rfl, hrest⟩ := Input.cuts.at trivial trivial (by rfl) hright
      cases hleft
      cases String.toList_injective hoperation
      exact ⟨rfl, hrest⟩
    | call => cases hform
    | dense => cases hform
    | constant => cases hform
  | constant => cases hs' with
    | constant =>
      rw [toList_constant, toList_constant] at h
      obtain ⟨hvalue, hrest⟩ := Input.cuts.at trivial trivial (by rfl) h
      cases hvalue
      exact ⟨rfl, hrest⟩
    | call => cases hform
    | dense => cases hform
    | operator => cases hform

end NodeSpec
end MatrixPlan
