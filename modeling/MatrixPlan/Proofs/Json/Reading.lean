import MatrixPlan.Json.Reader
import MatrixPlan.Proofs.Json.Spelling
/-!
# Reading — a text is read as the value that it spells

The reader takes the spelling of a value off the front of the tokens, whatever is open around it, so what is printed is
read back.  Conversely, what it has taken at any time is the spelling of what is open, so a text that is read to its end
is the spelling of what it is read as.
-/
namespace MatrixPlan
namespace Json

/-- What is read on after a value. -/
def finish (v : Json) (ts : List Token) : List Frame → Document
  | [] => ⟨v, ts.isEmpty⟩
  | f :: below => readTokens ts .more (f.add v :: below)

/-- Where a value may start. -/
def Expectation.TakesValue (ex : Expectation) : Prop := ex = .value ∨ ex = .firstItem

/-- Where a key may start. -/
def Expectation.TakesKey (ex : Expectation) : Prop := ex = .firstKey ∨ ex = .key

section

variable {ex : Expectation} (ts : List Token) (stack : List Frame)

theorem readTokens_null (hex : ex.TakesValue) : readTokens (.word .null :: ts) ex stack = finish .null ts stack := by
  rcases hex with rfl | rfl <;> cases stack <;> rfl

theorem readTokens_bool (hex : ex.TakesValue) (b : Bool) :
    readTokens (.word (.bool b) :: ts) ex stack = finish (.bool b) ts stack := by
  rcases hex with rfl | rfl <;> cases stack <;> rfl

theorem readTokens_number (hex : ex.TakesValue) (ds : List Char) :
    readTokens (.number ds :: ts) ex stack = finish (.number ds) ts stack := by
  rcases hex with rfl | rfl <;> cases stack <;> rfl

theorem readTokens_string (hex : ex.TakesValue) (s : Json.Text) :
    readTokens (.string s :: ts) ex stack = finish (.string s) ts stack := by
  rcases hex with rfl | rfl <;> cases stack <;> rfl

theorem readTokens_openArray (hex : ex.TakesValue) :
    readTokens (.openArray :: ts) ex stack = readTokens ts .firstItem (.array [] :: stack) := by
  rcases hex with rfl | rfl <;> cases stack <;> rfl

theorem readTokens_openObject (hex : ex.TakesValue) :
    readTokens (.openObject :: ts) ex stack = readTokens ts .firstKey (.object [] none :: stack) := by
  rcases hex with rfl | rfl <;> cases stack <;> rfl

theorem readTokens_key (hex : ex.TakesKey) (key : Json.Text) (members : List (Json.Text × Json)) (old : Json.Text) :
    readTokens (.string key :: .colon :: ts) ex (.object members old :: stack) =
      readTokens ts .value (.object members key :: stack) := by
  rcases hex with rfl | rfl <;> rfl

end

mutual

/-- **The spelling of a value is read as this value**, inside of whatever is open. -/
theorem readTokens_spelling : ∀ {v : Json} {ex : Expectation}, v.isWhole = true → ex.TakesValue →
    ∀ (ts : List Token) (stack : List Frame), readTokens (v.spelling ++ ts) ex stack = finish v ts stack
  | .null, _, _, hex, ts, stack => readTokens_null ts stack hex
  | .bool b, _, _, hex, ts, stack => readTokens_bool ts stack hex b
  | .number ds, _, _, hex, ts, stack => readTokens_number ts stack hex ds
  | .string s, _, _, hex, ts, stack => readTokens_string ts stack hex s
  | .array [], _, _, hex, ts, stack => by
    refine (readTokens_openArray _ stack hex).trans ?_
    cases stack <;> rfl
  | .array (v :: vs), _, h, hex, ts, stack => by
    rw [spelling, List.cons_append, List.cons_append, readTokens_openArray _ stack hex, List.append_assoc]
    exact readTokens_items (List.cons_ne_nil v vs) h (.inr rfl) [] ts stack
  | .object [], _, _, hex, ts, stack => by
    refine (readTokens_openObject _ stack hex).trans ?_
    cases stack <;> rfl
  | .object (m :: ms), _, h, hex, ts, stack => by
    rw [spelling, List.cons_append, List.cons_append, readTokens_openObject _ stack hex, List.append_assoc]
    exact readTokens_members (List.cons_ne_nil m ms) h (.inl rfl) [] none ts stack

theorem readTokens_items : ∀ {vs : List Json} {ex : Expectation}, vs ≠ [] → areWhole vs = true → ex.TakesValue →
    ∀ (read : List Json) (ts : List Token) (stack : List Frame),
      readTokens (itemsSpelling vs ++ .closeArray :: ts) ex (.array read :: stack) =
        finish (.array (read.reverse ++ vs)) ts stack
  | [v], _, _, h, hex, read, ts, stack => by
    rw [areWhole, Bool.and_eq_true] at h
    refine (readTokens_spelling h.1 hex (.closeArray :: ts) (.array read :: stack)).trans ?_
    rw [finish, Frame.add, ← List.reverse_cons]
    cases stack <;> rfl
  | v :: w :: vs, _, _, h, hex, read, ts, stack => by
    rw [areWhole, Bool.and_eq_true] at h
    have hrest := readTokens_items (List.cons_ne_nil w vs) h.2 (.inl rfl) (v :: read) ts stack
    rw [List.reverse_cons, List.append_assoc, List.singleton_append] at hrest
    rw [itemsSpelling, List.append_assoc, readTokens_spelling h.1 hex]
    · exact hrest
    · exact List.cons_ne_nil w vs

theorem readTokens_members : ∀ {ms : List (Json.Text × Json)} {ex : Expectation}, ms ≠ [] → membersWhole ms = true →
    ex.TakesKey → ∀ (read : List (Json.Text × Json)) (old : Json.Text) (ts : List Token) (stack : List Frame),
      readTokens (membersSpelling ms ++ .closeObject :: ts) ex (.object read old :: stack) =
        finish (.object (read.reverse ++ ms)) ts stack
  | [(key, v)], _, _, h, hex, read, old, ts, stack => by
    rw [membersWhole, Bool.and_eq_true] at h
    refine (readTokens_key _ stack hex key read old).trans ?_
    refine (readTokens_spelling h.1 (.inl rfl) (.closeObject :: ts) (.object read key :: stack)).trans ?_
    rw [finish, Frame.add, ← List.reverse_cons]
    cases stack <;> rfl
  | (key, v) :: m :: ms, _, _, h, hex, read, old, ts, stack => by
    rw [membersWhole, Bool.and_eq_true] at h
    have hrest := readTokens_members (List.cons_ne_nil m ms) h.2 (.inr rfl) ((key, v) :: read) none ts stack
    rw [List.reverse_cons, List.append_assoc, List.singleton_append] at hrest
    rw [membersSpelling, List.append_assoc]
    · refine (readTokens_key _ stack hex key read old).trans ?_
      exact (readTokens_spelling h.1 (.inl rfl) _ _).trans hrest
    · exact List.cons_ne_nil m ms

end

/-! ## What has been read -/

/-- What stands in a text for a word. -/
def Plain (ts : List Token) : Prop := ∀ w, .word w ∈ ts → w = .null ∨ ∃ b, w = .bool b

theorem token?_word {cs rest : List Char} {w : Json} (h : token? cs = some (.word w, rest)) :
    w = .null ∨ ∃ b, w = .bool b := by
  unfold token? at h
  split at h
  case h_7 =>
    obtain ⟨p, -, hp⟩ := Option.map_eq_some_iff.1 h
    cases hp
  case h_11 =>
    obtain ⟨p, -, hp⟩ := Option.map_eq_some_iff.1 h
    cases hp
  all_goals cases h
  · exact .inl rfl
  · exact .inr ⟨true, rfl⟩
  · exact .inr ⟨false, rfl⟩

theorem plain_tokens (cs : List Char) : Plain (tokens cs) := by
  intro w hw
  fun_induction tokens cs with
  | case1 => cases hw
  | case2 c cs hc ih => exact ih hw
  | case3 c cs hc h => cases List.mem_singleton.1 hw
  | case4 c cs hc t rest h ih =>
    rcases List.mem_cons.1 hw with rfl | hw
    · exact token?_word h
    · exact ih hw

/-- The tokens of an open array or object, with a comma after each of its parts. -/
def Frame.opened : Frame → List Token
  | .array items => .openArray :: items.reverse.flatMap fun v => v.spelling ++ [.comma]
  | .object members _ =>
    .openObject :: members.reverse.flatMap fun m => .string m.1 :: .colon :: m.2.spelling ++ [.comma]

/-- The tokens of an open array or object in front of the value that is read next. -/
def Frame.begun : Frame → List Token
  | .array items => opened (.array items)
  | .object members key => opened (.object members key) ++ [.string key, .colon]

/-- The tokens of an open array or object after its last part. -/
def Frame.filled : Frame → List Token
  | .array items => .openArray :: itemsSpelling items.reverse
  | .object members _ => .openObject :: membersSpelling members.reverse

def Frame.IsWhole : Frame → Prop
  | .array items => areWhole items = true
  | .object members _ => membersWhole members = true

def begun (stack : List Frame) : List Token := stack.reverse.flatMap Frame.begun

theorem areWhole_iff {vs : List Json} : areWhole vs = true ↔ ∀ v ∈ vs, v.isWhole = true := by
  induction vs with
  | nil => simp [areWhole]
  | cons v vs ih => rw [areWhole, Bool.and_eq_true, ih, List.forall_mem_cons]

theorem membersWhole_iff {ms : List (Json.Text × Json)} :
    membersWhole ms = true ↔ ∀ m ∈ ms, m.2.isWhole = true := by
  induction ms with
  | nil => simp [membersWhole]
  | cons m ms ih => rw [membersWhole, Bool.and_eq_true, ih, List.forall_mem_cons]

theorem areWhole_reverse {vs : List Json} (h : areWhole vs = true) : areWhole vs.reverse = true :=
  areWhole_iff.2 fun v hv => areWhole_iff.1 h v (List.mem_reverse.1 hv)

theorem membersWhole_reverse {ms : List (Json.Text × Json)} (h : membersWhole ms = true) :
    membersWhole ms.reverse = true :=
  membersWhole_iff.2 fun m hm => membersWhole_iff.1 h m (List.mem_reverse.1 hm)

/-- **The tokens that have been read** when something is expected inside of what is open. -/
def taken : Expectation → List Frame → List Token
  | .value, stack | .firstItem, stack => begun stack
  | .firstKey, f :: below | .key, f :: below => begun below ++ f.opened
  | .colon, .object members key :: below => begun below ++ Frame.opened (.object members key) ++ [.string key]
  | .more, f :: below => begun below ++ f.filled
  | _, _ => []

/-- What may be open where something is expected. -/
def Fits : Expectation → List Frame → Prop
  | .value, _ => True
  | .firstItem, .array items :: _ => items = []
  | .firstKey, .object members _ :: _ => members = []
  | .key, .object _ _ :: _ | .colon, .object _ _ :: _ => True
  | .more, f :: _ => f.filled ++ [.comma] = f.opened
  | _, _ => False

theorem itemsSpelling_append (vs : List Json) (v : Json) :
    itemsSpelling (vs ++ [v]) = (vs.flatMap fun v => v.spelling ++ [.comma]) ++ v.spelling := by
  induction vs with
  | nil => rfl
  | cons w vs ih =>
    rw [List.cons_append, itemsSpelling, ih, List.flatMap_cons]
    · simp only [List.append_assoc, List.cons_append, List.nil_append]
    · exact List.append_ne_nil_of_right_ne_nil _ (List.cons_ne_nil _ _)

theorem membersSpelling_append (ms : List (Json.Text × Json)) (key : Json.Text) (v : Json) :
    membersSpelling (ms ++ [(key, v)]) =
      (ms.flatMap fun m => .string m.1 :: .colon :: m.2.spelling ++ [.comma]) ++ .string key :: .colon :: v.spelling := by
  induction ms with
  | nil => rfl
  | cons m ms ih =>
    obtain ⟨k, w⟩ := m
    rw [List.cons_append, membersSpelling, ih, List.flatMap_cons]
    · simp only [List.append_assoc, List.cons_append, List.nil_append]
    · exact List.append_ne_nil_of_right_ne_nil _ (List.cons_ne_nil _ _)

theorem Frame.filled_add (f : Frame) (v : Json) : (f.add v).filled = f.begun ++ v.spelling := by
  cases f with
  | array items => rw [add, filled, List.reverse_cons, itemsSpelling_append]; rfl
  | object members key =>
    rw [add, filled, List.reverse_cons, membersSpelling_append]
    simp [begun, opened]

theorem Frame.opened_add (f : Frame) (v : Json) : (f.add v).opened = (f.add v).filled ++ [.comma] := by
  rw [filled_add]
  cases f <;> simp [add, opened, begun]

theorem begun_cons (f : Frame) (stack : List Frame) : begun (f :: stack) = begun stack ++ f.begun := by
  simp [begun]

/-- Whether tokens that are read to the end of a value spell it, with those before them. -/
def SpelledBy (ts : List Token) (ex : Expectation) (stack : List Frame) : Prop :=
  ∀ d : Json, readTokens ts ex stack = ⟨d, true⟩ → Plain ts → Fits ex stack → (∀ f ∈ stack, f.IsWhole) →
    d.isWhole = true ∧ taken ex stack ++ ts = d.spelling

theorem abandon_ne (stack : List Frame) (d : Json) : abandon stack ≠ ⟨d, true⟩ := by
  intro h
  cases congrArg Document.ended h

section

variable {t : Token} {ts : List Token} {ex : Expectation} {stack below : List Frame} {v d : Json}
  (ih : ∀ (ex : Expectation) (stack : List Frame), SpelledBy ts ex stack)
include ih

/-- A value is read in full: it becomes a part of what is open, or it is the document. -/
theorem spelledBy_finish (h : finish v ts stack = ⟨d, true⟩) (hts : Plain ts) (hv : v.isWhole = true)
    (hw : ∀ f ∈ stack, f.IsWhole) : d.isWhole = true ∧ begun stack ++ (v.spelling ++ ts) = d.spelling := by
  cases stack with
  | nil =>
    obtain ⟨rfl, hempty⟩ : v = d ∧ ts.isEmpty = true := by simpa [finish] using h
    rw [List.isEmpty_iff.1 hempty, List.append_nil]
    exact ⟨hv, rfl⟩
  | cons f below =>
    have hadd : (f.add v).IsWhole := by
      have hf := hw f List.mem_cons_self
      cases f with
      | array items => exact Bool.and_eq_true_iff.2 ⟨hv, hf⟩
      | object members key => exact Bool.and_eq_true_iff.2 ⟨hv, hf⟩
    obtain ⟨hd, htaken⟩ := ih .more (f.add v :: below) d h hts (Frame.opened_add f v).symm
      (List.forall_mem_cons.2 ⟨hadd, fun g hg => hw g (List.mem_cons_of_mem f hg)⟩)
    refine ⟨hd, ?_⟩
    rw [← htaken, taken, Frame.filled_add, begun_cons]
    simp only [List.append_assoc]

/-- A value starts where it may, unless an array is closed. -/
theorem spelledBy_value (hex : ex.TakesValue) (h : readTokens (t :: ts) ex stack = ⟨d, true⟩) (hts : Plain (t :: ts))
    (hw : ∀ f ∈ stack, f.IsWhole) :
    (ex = .firstItem ∧ t = .closeArray) ∨ d.isWhole = true ∧ begun stack ++ t :: ts = d.spelling := by
  have hrest : Plain ts := fun w hmem => hts w (List.mem_cons_of_mem t hmem)
  cases t with
  | string s =>
    rw [readTokens_string ts stack hex] at h
    exact .inr (spelledBy_finish ih h hrest rfl hw)
  | number ds =>
    rw [readTokens_number ts stack hex] at h
    exact .inr (spelledBy_finish ih h hrest rfl hw)
  | word w =>
    rcases hts w List.mem_cons_self with rfl | ⟨b, rfl⟩
    · rw [readTokens_null ts stack hex] at h
      exact .inr (spelledBy_finish ih h hrest rfl hw)
    · rw [readTokens_bool ts stack hex] at h
      exact .inr (spelledBy_finish ih h hrest rfl hw)
  | openArray =>
    rw [readTokens_openArray ts stack hex] at h
    obtain ⟨hd, htaken⟩ := ih _ _ d h hrest rfl (List.forall_mem_cons.2 ⟨rfl, hw⟩)
    rw [taken, begun_cons, List.append_assoc] at htaken
    exact .inr ⟨hd, htaken⟩
  | openObject =>
    rw [readTokens_openObject ts stack hex] at h
    obtain ⟨hd, htaken⟩ := ih _ _ d h hrest rfl (List.forall_mem_cons.2 ⟨rfl, hw⟩)
    rw [taken, List.append_assoc] at htaken
    exact .inr ⟨hd, htaken⟩
  | closeArray =>
    rcases hex with rfl | rfl
    · cases stack <;> exact absurd h (abandon_ne _ d)
    · exact .inl ⟨rfl, rfl⟩
  | closeObject | comma | colon | stray =>
    rcases hex with rfl | rfl <;> cases stack <;> exact absurd h (abandon_ne _ d)

/-- A key starts where it may, unless an object is closed. -/
theorem spelledBy_key {members : List (Json.Text × Json)} {old : Json.Text} (hex : ex.TakesKey)
    (h : readTokens (t :: ts) ex (.object members old :: below) = ⟨d, true⟩) (hts : Plain ts)
    (hm : membersWhole members = true) (hw : ∀ f ∈ below, f.IsWhole) :
    (ex = .firstKey ∧ t = .closeObject) ∨
      d.isWhole = true ∧ begun below ++ (Frame.object members old).opened ++ t :: ts = d.spelling := by
  cases t with
  | string key =>
    have hcolon : readTokens ts .colon (.object members key :: below) = ⟨d, true⟩ := by
      rcases hex with rfl | rfl <;> exact h
    obtain ⟨hd, htaken⟩ := ih _ _ d hcolon hts trivial (List.forall_mem_cons.2 ⟨hm, hw⟩)
    rw [taken, List.append_assoc] at htaken
    exact .inr ⟨hd, htaken⟩
  | closeObject =>
    rcases hex with rfl | rfl
    · exact .inl ⟨rfl, rfl⟩
    · exact absurd h (abandon_ne _ d)
  | number | word | openArray | openObject | closeArray | comma | colon | stray =>
    rcases hex with rfl | rfl <;> exact absurd h (abandon_ne _ d)

/-- A comma or the end follows a part. -/
theorem spelledBy_more {f : Frame} (h : readTokens (t :: ts) .more (f :: below) = ⟨d, true⟩) (hts : Plain ts)
    (hopened : f.filled ++ [.comma] = f.opened) (hf : f.IsWhole) (hw : ∀ g ∈ below, g.IsWhole) :
    d.isWhole = true ∧ begun below ++ f.filled ++ t :: ts = d.spelling := by
  have hall := List.forall_mem_cons.2 ⟨hf, hw⟩
  cases t with
  | comma =>
    suffices htaken : d.isWhole = true ∧ begun below ++ f.opened ++ ts = d.spelling by
      rw [← hopened] at htaken
      simpa only [List.append_assoc, List.singleton_append] using htaken
    cases f with
    | array items =>
      obtain ⟨hd, htaken⟩ := ih .value (.array items :: below) d h hts trivial hall
      rw [taken, begun_cons] at htaken
      exact ⟨hd, htaken⟩
    | object members key => exact ih .key (.object members key :: below) d h hts trivial hall
  | closeArray =>
    cases f with
    | array items =>
      have hfinish : finish (.array items.reverse) ts below = ⟨d, true⟩ := by
        cases below <;> exact h
      obtain ⟨hd, htaken⟩ := spelledBy_finish ih hfinish hts (areWhole_reverse hf) hw
      refine ⟨hd, ?_⟩
      rw [← htaken, spelling, Frame.filled]
      simp only [List.append_assoc, List.cons_append, List.nil_append]
    | object members key => exact absurd h (abandon_ne _ d)
  | closeObject =>
    cases f with
    | array items => exact absurd h (abandon_ne _ d)
    | object members key =>
      have hfinish : finish (.object members.reverse) ts below = ⟨d, true⟩ := by
        cases below <;> exact h
      obtain ⟨hd, htaken⟩ := spelledBy_finish ih hfinish hts (membersWhole_reverse hf) hw
      refine ⟨hd, ?_⟩
      rw [← htaken, spelling, Frame.filled]
      simp only [List.append_assoc, List.cons_append, List.nil_append]
  | string | number | word | openArray | openObject | colon | stray =>
    cases f <;> exact absurd h (abandon_ne _ d)

end

/-- **What is read to the end of a value is its spelling.** -/
theorem spelledBy (ts : List Token) (ex : Expectation) (stack : List Frame) : SpelledBy ts ex stack := by
  induction ts generalizing ex stack with
  | nil => exact fun d h _ _ _ => absurd h (abandon_ne stack d)
  | cons t ts ih =>
    intro d h hts hfits hw
    have hrest : Plain ts := fun w hmem => hts w (List.mem_cons_of_mem t hmem)
    cases ex with
    | value =>
      rcases spelledBy_value ih (.inl rfl) h hts hw with ⟨hex, -⟩ | hspelled
      · cases hex
      · exact hspelled
    | firstItem =>
      rcases spelledBy_value ih (.inr rfl) h hts hw with ⟨-, rfl⟩ | hspelled
      · match stack, hfits with
        | .array _ :: below, rfl =>
          have hfinish : finish (.array []) ts below = ⟨d, true⟩ := by
            cases below <;> exact h
          obtain ⟨hd, htaken⟩ := spelledBy_finish ih hfinish hrest rfl (List.forall_mem_cons.1 hw).2
          refine ⟨hd, ?_⟩
          rw [← htaken, taken, begun_cons, List.append_assoc]
          rfl
      · exact hspelled
    | firstKey =>
      match stack, hfits with
      | .object _ _ :: below, rfl =>
        rcases spelledBy_key ih (.inl rfl) h hrest rfl (List.forall_mem_cons.1 hw).2 with ⟨-, rfl⟩ | hspelled
        · have hfinish : finish (.object []) ts below = ⟨d, true⟩ := by
            cases below <;> exact h
          obtain ⟨hd, htaken⟩ := spelledBy_finish ih hfinish hrest rfl (List.forall_mem_cons.1 hw).2
          refine ⟨hd, ?_⟩
          rw [← htaken, taken, List.append_assoc]
          rfl
        · exact hspelled
    | key =>
      match stack, hfits with
      | .object members _ :: below, _ =>
        obtain ⟨hm, hbelow⟩ := List.forall_mem_cons.1 hw
        rcases spelledBy_key ih (.inr rfl) h hrest hm hbelow with ⟨hex, -⟩ | hspelled
        · cases hex
        · exact hspelled
    | colon =>
      match stack, hfits with
      | .object members key :: below, _ =>
        cases t with
        | colon =>
          obtain ⟨hd, htaken⟩ := ih .value _ d h hrest trivial hw
          refine ⟨hd, ?_⟩
          rw [← htaken, taken, taken, begun_cons, Frame.begun]
          simp only [List.append_assoc, List.cons_append, List.nil_append]
        | string | number | word | openArray | openObject | closeArray | closeObject | comma | stray =>
          exact absurd h (abandon_ne _ d)
    | more =>
      cases stack with
      | nil => exact hfits.elim
      | cons f below =>
        obtain ⟨hf, hbelow⟩ := List.forall_mem_cons.1 hw
        exact spelledBy_more ih h hrest hfits hf hbelow

/-- **A text is read to its end as a value if and only if it has the tokens of this value**, which is whole. -/
theorem read_eq_iff {text : String} {v : Json} :
    read text = ⟨v, true⟩ ↔ v.isWhole = true ∧ tokens text.toList = v.spelling := by
  constructor
  · intro h
    exact spelledBy _ .value [] v h (plain_tokens _) trivial fun _ hf => by cases hf
  · rintro ⟨hv, htokens⟩
    have hread := readTokens_spelling hv (.inl rfl) [] []
    rw [List.append_nil] at hread
    rw [read, htokens, hread, finish, List.isEmpty_nil]

/-- **What a value is printed as**, with blanks or without. -/
def Prints (v : Json) (text : String) : Prop := text = v.toText ∨ text = v.toPrettyText

/-- **What is printed is read back.** -/
theorem read_printed {text : String} {v : Json} (h : v.Writable) (htext : v.Prints text) : read text = ⟨v, true⟩ := by
  refine read_eq_iff.2 ⟨isWhole_of_writable h, ?_⟩
  rcases htext with rfl | rfl
  · rw [toText, String.toList_ofList, (reads_compact h).tokens_eq]
  · rw [toPrettyText, String.toList_ofList, (reads_pretty 0 h).tokens_eq]

end Json
end MatrixPlan
