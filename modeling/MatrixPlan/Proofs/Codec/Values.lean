import MatrixPlan.Codec.Values
import MatrixPlan.Proofs.Json.Doubles
/-!
# Values — values go through their JSON texts

Each of the types with a JSON form is decoded from what it is encoded as.  What is lost on the way is a double that is not
finite: it is written as `null`, and wherever it stands the whole text is refused.
-/
namespace MatrixPlan

open Json (present ReadsNearest)

theorem knownMember_eq {α : Type} (name : String) (encode : α → Json) (o : Option α) :
    knownMember name encode o = present [(name, o.map encode)] := by cases o <;> rfl

theorem Json.present_append (fs gs : List (String × Option Json)) : present (fs ++ gs) = present fs ++ present gs :=
  List.filterMap_append

theorem Json.optional_ofCount (o : Option UInt64) : optional toCount? (o.map ofCount) = some o := by
  cases o with
  | none => rfl
  | some n =>
    change (toCount? (ofCount n)).map some = _
    rw [toCount?_ofCount, Option.map_some]

/-- The members of a record can be printed when its fields can. -/
theorem Json.writable_present {fields : List (String × Option Json)} (h : ∀ f ∈ fields, ∀ v, f.2 = some v → v.Writable) :
    (Json.ofMembers (present fields)).Writable := by
  rw [writable_ofMembers]
  intro m hm
  obtain ⟨f, hf, hmap⟩ := List.mem_filterMap.1 hm
  obtain ⟨v, hv, rfl⟩ := Option.map_eq_some_iff.1 hmap
  exact h f hf v hv

theorem Json.writable_of_map_ofCount {o : Option UInt64} {v : Json} (h : o.map ofCount = some v) : v.Writable := by
  obtain ⟨n, -, rfl⟩ := Option.map_eq_some_iff.1 h
  exact writable_ofCount n

/-! ## Metadata -/

namespace Metadata

def fields (m : Metadata) : List (String × Option Json) :=
  [("rows", m.rows.map .ofCount), ("cols", m.cols.map .ofCount), ("nnz", m.nnz.map .ofCount)]

theorem toJson_eq (m : Metadata) : m.toJson = .ofMembers (present m.fields) := by
  rw [toJson, knownMember_eq, knownMember_eq, knownMember_eq, ← Json.present_append, ← Json.present_append]
  rfl

theorem writable_toJson (m : Metadata) : m.toJson.Writable := by
  rw [toJson_eq]
  refine Json.writable_present fun f hf v hv => ?_
  simp only [fields, List.mem_cons, List.not_mem_nil, or_false] at hf
  rcases hf with rfl | rfl | rfl <;> exact Json.writable_of_map_ofCount hv

theorem ofJson?_toJson (m : Metadata) : ofJson? m.toJson = some m := by
  have hfields : m.toJson.fields? ["rows", "cols", "nnz"] 3 = some (m.fields.map Prod.snd) := by
    rw [toJson_eq]
    exact Json.fields?_present m.fields (by simp [fields]) 3
  rw [ofJson?, hfields]
  simp only [fields, List.map_cons, List.map_nil, Json.optional_ofCount]
  rfl

end Metadata

/-! ## Operations -/

namespace Operation

theorem writable_toJson (op : Operation) : op.toJson.Writable := by
  cases op with
  | reshape rows cols =>
    refine Json.writable_ofMembers.2 fun m hm => ?_
    simp only [List.mem_cons, List.not_mem_nil, or_false] at hm
    rcases hm with rfl | rfl | rfl
    · rfl
    · exact Json.writable_ofCount rows
    · exact Json.writable_ofCount cols
  | _ => exact Json.writable_ofMembers.2 fun m hm => by rw [List.mem_singleton.1 hm]; rfl

theorem canSetAside_ofCount (n : UInt64) : (Json.ofCount n).canSetAside = true := by
  rw [Json.canSetAside, Json.isKeepable_ofCount]
  rfl

theorem ofJson?_toJson (op : Operation) : ofJson? op.toJson = some op := by
  cases op with
  | reshape rows cols =>
    have hfields : (Json.ofMembers [("rows", .ofCount rows), ("cols", .ofCount cols)]).fields? ["rows", "cols"] 2 =
        some [some (.ofCount rows), some (.ofCount cols)] :=
      Json.fields?_present [("rows", some (.ofCount rows)), ("cols", some (.ofCount cols))] (by simp) 2
    have hreshape : reshapeOf? (.ofMembers [("rows", .ofCount rows), ("cols", .ofCount cols)]) =
        some (reshape rows cols) := by
      rw [reshapeOf?, hfields]
      simp only [Json.required, Json.toCount?_ofCount]
      rfl
    have hsplit : splitWord? [(some "op", .ofString "reshape"), (some "rows", .ofCount rows), (some "cols", .ofCount cols)] =
        some (.ofString "reshape", [(some "rows", .ofCount rows), (some "cols", .ofCount cols)]) := by
      simp [splitWord?, canSetAside_ofCount]
    rw [toJson, Json.ofMembers, List.map_cons, List.map_cons, List.map_cons, List.map_nil, ofJson?, name, hsplit]
    exact hreshape
  | _ => decide

end Operation

/-! ## Settings -/

namespace Config

theorem writable_toJson (c : Config) : c.toJson.Writable := by
  refine Json.writable_ofMembers.2 fun m hm => ?_
  simp only [List.mem_cons, List.not_mem_nil, or_false] at hm
  rcases hm with rfl | rfl | rfl
  · rfl
  · trivial
  · exact Json.writable_ofCount c.maxNodes

theorem ofJson?_toJson (c : Config) : ofJson? c.toJson = some c := by
  have hfields : c.toJson.fields? ["estimator", "validate_on_submit", "max_nodes"] 0 =
      some [some (.ofString c.estimator.choice), some (.bool c.validateOnSubmit), some (.ofCount c.maxNodes)] :=
    Json.fields?_present [("estimator", some (.ofString c.estimator.choice)),
      ("validate_on_submit", some (.bool c.validateOnSubmit)), ("max_nodes", some (.ofCount c.maxNodes))] (by simp) 0
  have hestimator : Estimator.ofJson? (.ofString c.estimator.choice) = some c.estimator := by cases c.estimator <;> decide
  rw [ofJson?, hfields]
  simp only [Json.withDefault, Json.toBool?, Json.toCount?_ofCount, hestimator]
  rfl

end Config

/-! ## Random matrices -/

namespace RandSpec

def fields (r : RandSpec) : List (String × Option Json) :=
  [("rows", some (.ofCount r.rows)), ("cols", some (.ofCount r.cols)), ("min", some (.ofFloat r.min)),
    ("max", some (.ofFloat r.max)), ("sparsity", some (.ofFloat r.sparsity)), ("seed", r.seed.map .ofCount)]

theorem toJson_eq (r : RandSpec) : r.toJson = .ofMembers (present r.fields) := by
  rw [toJson, knownMember_eq]
  rfl

theorem writable_toJson (r : RandSpec) : r.toJson.Writable := by
  rw [toJson_eq]
  refine Json.writable_present fun f hf v hv => ?_
  simp only [fields, List.mem_cons, List.not_mem_nil, or_false] at hf
  rcases hf with rfl | rfl | rfl | rfl | rfl | rfl
  · exact Option.some_inj.1 hv ▸ Json.writable_ofCount r.rows
  · exact Option.some_inj.1 hv ▸ Json.writable_ofCount r.cols
  · exact Option.some_inj.1 hv ▸ Json.writable_ofFloat r.min
  · exact Option.some_inj.1 hv ▸ Json.writable_ofFloat r.max
  · exact Option.some_inj.1 hv ▸ Json.writable_ofFloat r.sparsity
  · exact Json.writable_of_map_ofCount hv

/-- What is decoded hangs on the three doubles. -/
theorem ofJson?_toJson_eq (r : RandSpec) : ofJson? r.toJson =
    (Json.toFloat? (.ofFloat r.min)).bind fun least => (Json.toFloat? (.ofFloat r.max)).bind fun greatest =>
      (Json.toFloat? (.ofFloat r.sparsity)).map fun sparsity =>
        { r with min := least, max := greatest, sparsity := sparsity } := by
  have hfields : r.toJson.fields? ["rows", "cols", "min", "max", "sparsity", "seed"] 6 = some (r.fields.map Prod.snd) := by
    rw [toJson_eq]
    exact Json.fields?_present r.fields (by simp [fields]) 6
  rw [ofJson?, hfields]
  simp only [fields, List.map_cons, List.map_nil, Json.optional_ofCount, Json.required, Json.toCount?_ofCount]
  cases Json.toFloat? (.ofFloat r.min) <;> cases Json.toFloat? (.ofFloat r.max) <;>
    cases Json.toFloat? (.ofFloat r.sparsity) <;> rfl

def doubles (r : RandSpec) : List Float := [r.min, r.max, r.sparsity]

end RandSpec

/-! ## Matrices -/

namespace Dense

theorem writable_toJson (m : Dense) : m.toJson.Writable := by
  refine Json.writable_ofMembers.2 fun f hf => ?_
  simp only [List.mem_cons, List.not_mem_nil, or_false] at hf
  rcases hf with rfl | rfl | rfl
  · exact Json.writable_ofCount m.rows
  · exact Json.writable_ofCount m.cols
  · refine Json.itemsWritable_iff.2 fun v hv => ?_
    obtain ⟨x, -, rfl⟩ := List.mem_map.1 hv
    exact Json.writable_ofFloat x

theorem ofValues_values (m : Dense) : ofValues m.rows m.cols m.values = .ok m := dif_pos ⟨m.size_eq, m.size_lt⟩

/-- What is decoded hangs on the list of cells. -/
theorem partsOfJson?_toJson (m : Dense) : partsOfJson? m.toJson =
    (Json.toList? Json.toFloat? (.array (m.values.toList.map .ofFloat))).map fun values => (m.rows, m.cols, values) := by
  have hfields : m.toJson.fields? ["rows", "cols", "values"] 3 =
      some [some (.ofCount m.rows), some (.ofCount m.cols), some (.array (m.values.toList.map .ofFloat))] :=
    Json.fields?_present [("rows", some (.ofCount m.rows)), ("cols", some (.ofCount m.cols)),
      ("values", some (.array (m.values.toList.map .ofFloat)))] (by simp) 3
  rw [partsOfJson?, hfields]
  simp only [Json.required, Json.toCount?_ofCount]
  cases Json.toList? Json.toFloat? (.array (m.values.toList.map .ofFloat)) <;> rfl

/-- **A matrix is decoded with its cells.** -/
theorem ofJson_toJson {m : Dense} (h : ∀ x ∈ m.values.toList, Json.toFloat? (.ofFloat x) = some x) :
    ofJson m.toJson = .ok m := by
  rw [ofJson, partsOfJson?_toJson, Json.toList?_map h, Option.map_some]
  dsimp only
  rw [Array.toArray_toList, ofValues_values]
  rfl

/-- **A matrix with a cell that is not decoded is malformed.** -/
theorem ofJson_toJson_eq_malformed {m : Dense} {x : Float} (hx : x ∈ m.values.toList)
    (h : Json.toFloat? (.ofFloat x) = none) : ofJson m.toJson = .error .malformed := by
  rw [ofJson, partsOfJson?_toJson, Json.toList?_eq_none (List.mem_map_of_mem hx) h]
  rfl

end Dense

/-! ## Constants and replies -/

theorem tagged?_taggedJson (kind : String) (content : Json) :
    (taggedJson kind content).tagged? "type" "value" = some ⟨.ofString kind, some content, true⟩ := by
  simp [taggedJson, Json.ofMembers, Json.tagged?, Json.taggedMembers?, Json.contentAfter?, Json.noneLeft]

theorem writable_taggedJson {content : Json} (kind : String) (h : content.Writable) :
    (taggedJson kind content).Writable := by
  refine Json.writable_ofMembers.2 fun m hm => ?_
  simp only [List.mem_cons, List.not_mem_nil, or_false] at hm
  rcases hm with rfl | rfl
  · rfl
  · exact h

namespace Literal

theorem writable_toJson (l : Literal) : l.toJson.Writable := by
  cases l with
  | float x => exact writable_taggedJson _ (Json.writable_ofFloat x)
  | int n => exact writable_taggedJson _ (Json.writable_ofInt n)
  | bool => exact writable_taggedJson _ trivial
  | str => exact writable_taggedJson _ rfl

def doubles : Literal → List Float
  | float x => [x]
  | _ => []

theorem ofJson?_taggedJson (kind : String) (content : Json) :
    ofJson? (taggedJson kind content) = ofContent? kind content := by
  rw [ofJson?, tagged?_taggedJson]
  change (ofContent? kind content).bind (fun l => if true then some l else none) = _
  cases ofContent? kind content <;> rfl

theorem ofJson?_toJson {l : Literal} (h : ∀ x ∈ l.doubles, Json.toFloat? (.ofFloat x) = some x) :
    ofJson? l.toJson = some l := by
  cases l with
  | float x =>
    rw [toJson, ofJson?_taggedJson]
    change (Json.toFloat? (.ofFloat x)).map float = _
    rw [h x (List.mem_singleton_self x), Option.map_some]
  | int n =>
    rw [toJson, ofJson?_taggedJson]
    change (Json.toInt? (.ofInt n)).map int = _
    rw [Json.toInt?_ofInt, Option.map_some]
  | bool b =>
    rw [toJson, ofJson?_taggedJson]
    rfl
  | str s =>
    rw [toJson, ofJson?_taggedJson]
    rfl

theorem ofJson?_toJson_eq_none {l : Literal} {x : Float} (hx : x ∈ l.doubles) (h : Json.toFloat? (.ofFloat x) = none) :
    ofJson? l.toJson = none := by
  cases l with
  | float y =>
    obtain rfl := List.mem_singleton.1 hx
    rw [toJson, ofJson?_taggedJson]
    change (Json.toFloat? (.ofFloat x)).map float = _
    rw [h, Option.map_none]
  | _ => cases hx

end Literal

namespace EngineValue

theorem writable_toJson (v : EngineValue) : v.toJson.Writable := by
  cases v with
  | scalar x => exact writable_taggedJson _ (Json.writable_ofFloat x)
  | matrix m => exact writable_taggedJson _ m.writable_toJson
  | empty => exact Json.writable_ofMembers.2 fun m hm => by rw [List.mem_singleton.1 hm]; rfl

def doubles : EngineValue → List Float
  | scalar x => [x]
  | matrix m => m.values.toList
  | empty => []

theorem ofJson_taggedJson (kind : String) (content : Json) :
    ofJson (taggedJson kind content) = ofContent kind (some content) := by
  rw [ofJson, tagged?_taggedJson]
  change (ofContent kind (some content)).bind (fun v => if true then .ok v else .error .malformed) = _
  cases ofContent kind (some content) <;> rfl

theorem ofJson_toJson {v : EngineValue} (h : ∀ x ∈ v.doubles, Json.toFloat? (.ofFloat x) = some x) :
    ofJson v.toJson = .ok v := by
  cases v with
  | scalar x =>
    rw [toJson, ofJson_taggedJson]
    change (wellFormed (Json.toFloat? (.ofFloat x))).map scalar = _
    rw [h x (List.mem_singleton_self x)]
    rfl
  | matrix m =>
    rw [toJson, ofJson_taggedJson]
    change (Dense.ofJson m.toJson).map matrix = _
    rw [Dense.ofJson_toJson h]
    rfl
  | empty => rfl

theorem ofJson_toJson_eq_malformed {v : EngineValue} {x : Float} (hx : x ∈ v.doubles)
    (h : Json.toFloat? (.ofFloat x) = none) : ofJson v.toJson = .error .malformed := by
  cases v with
  | scalar y =>
    obtain rfl := List.mem_singleton.1 hx
    rw [toJson, ofJson_taggedJson]
    change (wellFormed (Json.toFloat? (.ofFloat x))).map scalar = _
    rw [h]
    rfl
  | matrix m =>
    rw [toJson, ofJson_taggedJson]
    change (Dense.ofJson m.toJson).map matrix = _
    rw [Dense.ofJson_toJson_eq_malformed hx h]
    rfl
  | empty => cases hx

end EngineValue

/-! ## Texts -/

/-- **A type goes through its JSON texts**, without blanks and with: a value is decoded as it was when its doubles are
finite and a reader takes their numbers for the nearest doubles, and a value with a double that is not finite is refused,
whatever the reader does. -/
def Exchanges {α : Type} (encode : α → Json) (decode : Json → Except DecodeError α) (doubles : α → List Float) : Prop :=
  ∀ v text, (encode v).Prints text →
    ((∀ x ∈ doubles v, x.isFinite = true ∧ ReadsNearest (jsonLayout.chars (.ofFloat x))) → decodeText decode text = .ok v) ∧
    ((∃ x ∈ doubles v, x.isFinite ≠ true) → decodeText decode text = .error .malformed)

variable {α : Type} {encode : α → Json} {decode : Json → Except DecodeError α} {doubles : α → List Float}

theorem decodeText_whole {v : Json} {text : String} (hread : Json.read text = ⟨v, true⟩) :
    decodeText decode text = decode v := by
  rw [decodeText, hread]
  dsimp only
  cases decode v <;> rfl

/-- A text that is decoded is one of a JSON value, with nothing after it. -/
theorem whole_of_decodeText {text : String} {x : α} (h : decodeText decode text = .ok x) :
    ∃ v, Json.read text = ⟨v, true⟩ ∧ decode v = .ok x := by
  rw [decodeText] at h
  split at h
  · rename_i y hy
    split at h
    · rename_i hended
      cases h
      exact ⟨(Json.read text).value, by rw [← hended], hy⟩
    · cases h
  · cases h

theorem decodeText_printed {v : Json} {text : String} (hw : v.Writable) (htext : v.Prints text) :
    decodeText decode text = decode v := decodeText_whole (Json.read_printed hw htext)

/-- A type goes through its texts if its values are decoded and refused by their doubles. -/
theorem exchanges_of (hw : ∀ v, (encode v).Writable)
    (hok : ∀ v, (∀ x ∈ doubles v, Json.toFloat? (.ofFloat x) = some x) → decode (encode v) = .ok v)
    (hbad : ∀ v, ∀ x ∈ doubles v, Json.toFloat? (.ofFloat x) = none → decode (encode v) = .error .malformed) :
    Exchanges encode decode doubles := by
  intro v text htext
  rw [decodeText_printed (hw v) htext]
  refine ⟨fun h => hok v fun x hx => ?_, fun ⟨x, hx, hinf⟩ => hbad v x hx (Json.toFloat?_ofFloat_eq_none hinf)⟩
  obtain ⟨hfinite, hread⟩ := h x hx
  exact Json.toFloat?_ofFloat hfinite hread

/-- A type without doubles goes through its texts if its values are decoded. -/
theorem exchanges_of_no_doubles {ofJson? : Json → Option α} (hw : ∀ v, (encode v).Writable)
    (h : ∀ v, ofJson? (encode v) = some v) : Exchanges encode (fun v => wellFormed (ofJson? v)) fun _ => [] := by
  refine exchanges_of hw (fun v _ => ?_) (fun v x hx => nomatch hx)
  rw [h v]
  rfl

theorem RandSpec.exchanges : Exchanges toJson (fun v => wellFormed (ofJson? v)) RandSpec.doubles := by
  refine exchanges_of writable_toJson (fun r h => ?_) (fun r x hx hnone => ?_)
  · simp only [RandSpec.doubles, List.forall_mem_cons] at h
    obtain ⟨hmin, hmax, hsparsity, -⟩ := h
    rw [ofJson?_toJson_eq, hmin, Option.bind_some, hmax, Option.bind_some, hsparsity, Option.map_some]
    rfl
  · simp only [RandSpec.doubles, List.mem_cons, List.not_mem_nil, or_false] at hx
    have hbad : ofJson? r.toJson = none := by
      rw [ofJson?_toJson_eq]
      rcases hx with rfl | rfl | rfl
      · rw [hnone, Option.bind_none]
      · rw [hnone]
        cases Json.toFloat? (.ofFloat r.min) <;> rfl
      · rw [hnone]
        cases Json.toFloat? (.ofFloat r.min) <;> cases Json.toFloat? (.ofFloat r.max) <;> rfl
    rw [hbad]
    rfl

/-- **Values go through their JSON texts**: metadata, operations, random matrices, settings, constants, matrices and replies.
Counts and integers of any size, absent fields, the characters of strings and the bits of finite doubles come back, `-0.0`
apart from `0.0`; a double that is not finite is refused wherever it stands. -/
theorem values_exchange :
    Exchanges Metadata.toJson (fun v => wellFormed (Metadata.ofJson? v)) (fun _ => []) ∧
    Exchanges Operation.toJson (fun v => wellFormed (Operation.ofJson? v)) (fun _ => []) ∧
    Exchanges RandSpec.toJson (fun v => wellFormed (RandSpec.ofJson? v)) RandSpec.doubles ∧
    Exchanges Config.toJson (fun v => wellFormed (Config.ofJson? v)) (fun _ => []) ∧
    Exchanges Literal.toJson (fun v => wellFormed (Literal.ofJson? v)) Literal.doubles ∧
    Exchanges Dense.toJson Dense.ofJson (fun m => m.values.toList) ∧
    Exchanges EngineValue.toJson EngineValue.ofJson EngineValue.doubles := by
  refine ⟨exchanges_of_no_doubles Metadata.writable_toJson Metadata.ofJson?_toJson,
    exchanges_of_no_doubles Operation.writable_toJson Operation.ofJson?_toJson, RandSpec.exchanges,
    exchanges_of_no_doubles Config.writable_toJson Config.ofJson?_toJson,
    exchanges_of Literal.writable_toJson (fun l h => ?_) (fun l x hx hnone => ?_),
    exchanges_of Dense.writable_toJson (fun m => Dense.ofJson_toJson) (fun m x => Dense.ofJson_toJson_eq_malformed),
    exchanges_of EngineValue.writable_toJson (fun v => EngineValue.ofJson_toJson)
      (fun v x => EngineValue.ofJson_toJson_eq_malformed)⟩
  · rw [Literal.ofJson?_toJson h]
    rfl
  · rw [Literal.ofJson?_toJson_eq_none hx hnone]
    rfl

/-- A reply with a minus zero among its cells, and a fraction that is no double. -/
def EngineValue.motley : EngineValue := matrix ⟨1, 2, #[-0.0, 0.1], rfl, by decide⟩

theorem values_exchange_motley :
    (∀ x ∈ EngineValue.motley.doubles, x.isFinite = true ∧ ReadsNearest (jsonLayout.chars (.ofFloat x))) ∧
    decodeText EngineValue.ofJson EngineValue.motley.toJson.toText = .ok .motley ∧
    (∃ x ∈ (EngineValue.scalar (0.0 / 0.0)).doubles, x.isFinite ≠ true) ∧
    decodeText EngineValue.ofJson (EngineValue.scalar (0.0 / 0.0)).toJson.toText = .error .malformed := by
  have hexchange := values_exchange.2.2.2.2.2.2
  have hzero : Numeral.ofChars? (jsonLayout.chars (.ofFloat (-0.0))) = some ⟨true, ['0'], ['0'], 0⟩ := by decide +kernel
  have htenth : Numeral.ofChars? (jsonLayout.chars (.ofFloat 0.1)) = some ⟨false, ['0'], ['1'], 0⟩ := by decide +kernel
  have hfinite : ∀ x ∈ EngineValue.motley.doubles, x.isFinite = true ∧ ReadsNearest (jsonLayout.chars (.ofFloat x)) := by
    intro x hx
    change x ∈ [-0.0, 0.1] at hx
    simp only [List.mem_cons, List.not_mem_nil, or_false] at hx
    rcases hx with rfl | rfl
    · exact ⟨by decide +kernel, Json.readsNearest_of_short hzero (by decide) (by decide)⟩
    · exact ⟨by decide +kernel, Json.readsNearest_of_short htenth (by decide) (by decide)⟩
  have hnan : ∃ x ∈ (EngineValue.scalar (0.0 / 0.0)).doubles, x.isFinite ≠ true :=
    ⟨_, List.mem_singleton_self _, by decide +kernel⟩
  exact ⟨hfinite, (hexchange _ _ (.inl rfl)).1 hfinite, hnan, (hexchange _ _ (.inl rfl)).2 hnan⟩

end MatrixPlan
