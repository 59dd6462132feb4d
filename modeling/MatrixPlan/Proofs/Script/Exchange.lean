import MatrixPlan.Codec.Script
import MatrixPlan.Proofs.Json.Decoding
import MatrixPlan.Proofs.Script.Validity
import MatrixPlan.Proofs.Stamp.Uuid
/-!
# Exchange — scripts go through their JSON text

A script that passes its check is read back from its text as it was, whatever characters its statements have; one that
does not is refused with its fault.  Nothing else is ever read: a text is accepted when its tokens are those of an object
with the members of a script, and the script passes its check.
-/
namespace MatrixPlan

theorem OutputType.ofJson?_toJson (t : OutputType) : ofJson? t.toJson = some t := by cases t <;> rfl

theorem ContextId.ofJson?_toJson (c : ContextId) : ofJson? c.toJson = some c := by
  have htext : Uuid.ofText? c.text = some c.uuid := Uuid.ofText?_text c.uuid
  rw [ofJson?, toJson, Json.ofString, Json.toString?, Option.bind_some, htext, Option.map_some]

namespace Script

/-- The members of a script, all of which are written. -/
def fields (s : Script) : List (String × Option Json) :=
  memberNames.zip [some (.ofString s.version), some (.ofString s.scriptId.text), some (.ofString s.createdAt.text),
    some s.contextId.toJson, some (.array (s.statements.map .ofString)), some (.ofString s.output), some s.outputType.toJson]

theorem toJson_eq (s : Script) : s.toJson = .ofMembers (Json.present s.fields) := rfl

theorem writable_toJson (s : Script) : s.toJson.Writable := by
  have hstatements : (Json.array (s.statements.map .ofString)).Writable := by
    refine Json.itemsWritable_iff.2 fun v hv => ?_
    obtain ⟨t, -, rfl⟩ := List.mem_map.1 hv
    rfl
  rw [toJson, Json.writable_ofMembers]
  suffices hvalues : ∀ v ∈ [Json.ofString s.version, .ofString s.scriptId.text, .ofString s.createdAt.text,
      s.contextId.toJson, .array (s.statements.map .ofString), .ofString s.output, s.outputType.toJson], v.Writable from
    fun m hm => hvalues m.2 (List.of_mem_zip hm).2
  simp only [List.forall_mem_cons]
  exact ⟨rfl, rfl, rfl, rfl, hstatements, rfl, rfl, List.forall_mem_nil _⟩

/-- **A script is decoded from what it is encoded as**, if the text of its time is read as this time. -/
theorem ofJson?_toJson {s : Script} (htime : Timestamp.ofText? s.createdAt.text = some s.createdAt) :
    ofJson? s.toJson = some s := by
  have hnames : s.fields.map Prod.fst = memberNames := rfl
  have hfields : s.toJson.fields? memberNames memberNames.length = some (s.fields.map Prod.snd) := by
    rw [toJson_eq, ← hnames]
    exact Json.fields?_present s.fields (by rw [hnames]; decide) _
  have hid : Uuid.ofText? s.scriptId.text = some s.scriptId := Uuid.ofText?_text _
  have hstatements : Json.toList? Json.toString? (.array (s.statements.map .ofString)) = some s.statements :=
    Json.toList?_map fun _ _ => rfl
  rw [ofJson?, hfields]
  simp only [fields, memberNames, List.zip_cons_cons, List.zip_nil_right, List.map_cons, List.map_nil, Json.required,
    Json.ofString, Json.toString?, Option.bind_some, hid, htime, hstatements, ContextId.ofJson?_toJson,
    OutputType.ofJson?_toJson]
  rfl

/-- **What is a text of a script**: one with the tokens of a JSON value from which the script is decoded. -/
def Spells (text : String) (s : Script) : Prop :=
  ∃ v : Json, v.isWhole = true ∧ Json.tokens text.toList = v.spelling ∧ ofJson? v = some s

variable {s : Script} {text : String}

theorem ofText_of_spells (h : Spells text s) : ofText text = match s.fault? with
    | some cause => .error (.validation cause)
    | none => .ok s := by
  obtain ⟨v, hv, htokens, hs⟩ := h
  rw [ofText, decodeText, Json.read_eq_iff.2 ⟨hv, htokens⟩]
  dsimp only
  rw [hs]
  rfl

theorem ofText_of_not_spells (h : ∀ s, ¬ Spells text s) : ∃ message, ofText text = .error (.internal message) := by
  have hread := @Json.read_eq_iff text (Json.read text).value
  rw [ofText, decodeText]
  cases hs : ofJson? (Json.read text).value with
  | none => exact ⟨_, rfl⟩
  | some s =>
    cases hended : (Json.read text).ended with
    | false => exact ⟨_, rfl⟩
    | true =>
      obtain ⟨hv, htokens⟩ := hread.1 (by rw [← hended])
      exact absurd ⟨_, hv, htokens, hs⟩ (h s)

theorem spells_toPrettyText (htime : Timestamp.ofText? s.createdAt.text = some s.createdAt) :
    Spells s.toPrettyText s := by
  have hread : Json.read s.toPrettyText = ⟨s.toJson, true⟩ := Json.read_printed s.writable_toJson (.inr rfl)
  obtain ⟨hv, htokens⟩ := Json.read_eq_iff.1 hread
  exact ⟨s.toJson, hv, htokens, ofJson?_toJson htime⟩

/-- **Scripts go through their texts.**  Whatever characters it has, a script is read back from its text as it was if it
passes its check, and is refused with its fault if not, as long as the text of its time is read as this time.  A text that
is accepted spells the script it is read as, which passes its check; exactly the texts that spell no script are refused as
such.  The script of any root of any graph passes its check and is read back. -/
theorem exchange_exact :
    (∀ s : Script, Timestamp.ofText? s.createdAt.text = some s.createdAt →
      (s.fault? = none → ofText s.toPrettyText = .ok s) ∧
      ∀ cause, s.fault? = some cause → ofText s.toPrettyText = .error (.validation cause)) ∧
    (∀ text s, ofText text = .ok s → Spells text s ∧ s.fault? = none) ∧
    (∀ text, (∃ message, ofText text = .error (.internal message)) ↔ ∀ s, ¬ Spells text s) ∧
    (∀ (g : Graph) (root : Nat) (stamp : Stamp) (context : ContextId), root < g.size →
      (ofGraph g stamp context root).fault? = none ∧
      (Timestamp.ofText? stamp.time.text = some stamp.time →
        ofText (ofGraph g stamp context root).toPrettyText = .ok (ofGraph g stamp context root))) := by
  refine ⟨fun s htime => ⟨fun hnone => ?_, fun cause hcause => ?_⟩, fun text s hok => ?_, fun text => ⟨?_, ?_⟩,
    fun g root stamp context hroot => ⟨fault?_ofGraph hroot stamp context, fun htime => ?_⟩⟩
  · rw [ofText_of_spells (spells_toPrettyText htime), hnone]
  · rw [ofText_of_spells (spells_toPrettyText htime), hcause]
  · by_cases hspells : ∃ s, Spells text s
    · obtain ⟨s', hs'⟩ := hspells
      rw [ofText_of_spells hs'] at hok
      split at hok
      · cases hok
      · rename_i hnone
        cases hok
        exact ⟨hs', hnone⟩
    · obtain ⟨message, herror⟩ := ofText_of_not_spells fun s hs => hspells ⟨s, hs⟩
      rw [herror] at hok
      cases hok
  · rintro ⟨message, herror⟩ s hs
    rw [ofText_of_spells hs] at herror
    split at herror <;> cases herror
  · exact ofText_of_not_spells
  · have hspells : Spells (ofGraph g stamp context root).toPrettyText (ofGraph g stamp context root) :=
      spells_toPrettyText (s := ofGraph g stamp context root) htime
    rw [ofText_of_spells hspells, fault?_ofGraph hroot stamp context]

/-- A script with quotes, a backslash, control characters and other alphabets in its texts. -/
def manifold : Script where
  version := "1.0\u00e9"
  scriptId := Uuid.ofNat 1
  createdAt := Timestamp.ofSeconds 1
  contextId := ⟨Uuid.ofNat 2⟩
  statements := ["V0 = read('\"\\\n\t\x01\u2028');", ""]
  output := "V0"
  outputType := .matrix

/-- The same, with a result that has no identifier. -/
def misnamed : Script := { manifold with output := "V 0" }

/-- The one script is read back, and the other refused with its fault. -/
theorem exchange_exact_manifold : Timestamp.ofText? manifold.createdAt.text = some manifold.createdAt ∧
    manifold.fault? = none ∧ ofText manifold.toPrettyText = .ok manifold ∧
    misnamed.fault? = some (.invalidIdentifier "output" "V 0") ∧
    ofText misnamed.toPrettyText = .error (.validation (.invalidIdentifier "output" "V 0")) := by
  have htime : Timestamp.ofText? manifold.createdAt.text = some manifold.createdAt := by decide
  have hnone : manifold.fault? = none := by decide
  have hfault : misnamed.fault? = some (.invalidIdentifier "output" "V 0") := by decide
  exact ⟨htime, hnone, (exchange_exact.1 manifold htime).1 hnone, hfault, (exchange_exact.1 misnamed htime).2 _ hfault⟩

end Script
end MatrixPlan
