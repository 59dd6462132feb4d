import MatrixPlan.Json.Decode
import MatrixPlan.Json.Printer
import MatrixPlan.Json.Reader
import MatrixPlan.Workspace.Basic
import MatrixPlan.Workspace.Source
/-!
# Values — the JSON form of metadata, matrices, constants, replies and settings

Each type has a `toJson`, with its members in a fixed order, and an `ofJson?`.  What is not known is left out.  A
double that is not finite is written as `null`, which is not read as a double.  What was written is read back, but for
doubles of many digits, which may be read as one close by.
-/
namespace MatrixPlan

/-- Why a JSON text is not a value of the type asked for. -/
inductive DecodeError where
  /-- The text is not JSON, or not of the right form. -/
  | malformed
  /-- A matrix has another number of values than its extents ask for. -/
  | dense (cause : ValidationError)

def wellFormed : Option α → Except DecodeError α
  | some v => .ok v
  | none => .error .malformed

/-- Reads a text that holds one value and nothing else. -/
def decodeText (decode : Json → Except DecodeError α) (text : String) : Except DecodeError α :=
  let d := Json.read text
  match decode d.value with
  | .ok v => if d.ended then .ok v else .error .malformed
  | .error e => .error e

/-- A member for what is known. -/
def knownMember (name : String) (toJson : α → Json) : Option α → List (String × Json)
  | some v => [(name, toJson v)]
  | none => []

namespace Metadata

def toJson (m : Metadata) : Json :=
  .ofMembers (knownMember "rows" .ofCount m.rows ++ knownMember "cols" .ofCount m.cols
    ++ knownMember "nnz" .ofCount m.nnz)

def ofJson? (v : Json) : Option Metadata :=
  match v.fields? ["rows", "cols", "nnz"] 3 with
  | some [rows, cols, nnz] => return ⟨← Json.optional Json.toCount? rows, ← Json.optional Json.toCount? cols,
      ← Json.optional Json.toCount? nnz⟩
  | _ => none

end Metadata

namespace Dense

def toJson (m : Dense) : Json :=
  .ofMembers [("rows", .ofCount m.rows), ("cols", .ofCount m.cols),
    ("values", .array (m.values.toList.map .ofFloat))]

/-- The extents and values of a matrix, not yet compared with each other. -/
def partsOfJson? (v : Json) : Option (UInt64 × UInt64 × List Float) :=
  match v.fields? ["rows", "cols", "values"] 3 with
  | some [rows, cols, values] => return (← Json.required Json.toCount? rows, ← Json.required Json.toCount? cols,
      ← Json.required (Json.toList? Json.toFloat?) values)
  | _ => none

def ofJson (v : Json) : Except DecodeError Dense :=
  match partsOfJson? v with
  | some (rows, cols, values) => (Dense.ofValues rows cols values.toArray).mapError .dense
  | none => .error .malformed

end Dense

def taggedJson (kind : String) (content : Json) : Json := .ofMembers [("type", .ofString kind), ("value", content)]

namespace EngineValue

def toJson : EngineValue → Json
  | scalar x => taggedJson "scalar" (.ofFloat x)
  | matrix m => taggedJson "matrix" m.toJson
  | empty => .ofMembers [("type", .ofString "empty")]

def ofContent (kind : String) (content : Option Json) : Except DecodeError EngineValue :=
  match kind, content with
  | "scalar", some v => (wellFormed v.toFloat?).map scalar
  | "matrix", some v => (Dense.ofJson v).map matrix
  | "empty", none => .ok empty
  | "empty", some .null => .ok empty
  | _, _ => .error .malformed

def ofJson (v : Json) : Except DecodeError EngineValue := do
  let t ← wellFormed (v.tagged? "type" "value")
  let kind ← wellFormed t.tag.choice?
  let value ← ofContent kind t.content
  if t.restFits then return value else throw .malformed

end EngineValue

namespace Literal

def toJson : Literal → Json
  | float x => taggedJson "float" (.ofFloat x)
  | int n => taggedJson "int" (.ofInt n)
  | bool b => taggedJson "bool" (.bool b)
  | str s => taggedJson "str" (.ofString s)

def ofContent? (kind : String) (content : Json) : Option Literal :=
  match kind with
  | "float" => content.toFloat?.map float
  | "int" => content.toInt?.map int
  | "bool" => content.toBool?.map bool
  | "str" => content.toString?.map str
  | _ => none

def ofJson? (v : Json) : Option Literal := do
  let t ← v.tagged? "type" "value"
  let literal ← ofContent? (← t.tag.choice?) (← t.content)
  if t.restFits then some literal else none

end Literal

namespace RandSpec

def toJson (r : RandSpec) : Json :=
  .ofMembers ([("rows", .ofCount r.rows), ("cols", .ofCount r.cols), ("min", .ofFloat r.min), ("max", .ofFloat r.max),
    ("sparsity", .ofFloat r.sparsity)] ++ knownMember "seed" .ofCount r.seed)

def ofJson? (v : Json) : Option RandSpec :=
  match v.fields? ["rows", "cols", "min", "max", "sparsity", "seed"] 6 with
  | some [rows, cols, least, greatest, sparsity, seed] => return {
      rows := ← Json.required Json.toCount? rows
      cols := ← Json.required Json.toCount? cols
      min := ← Json.required Json.toFloat? least
      max := ← Json.required Json.toFloat? greatest
      sparsity := ← Json.required Json.toFloat? sparsity
      seed := ← Json.optional Json.toCount? seed }
  | _ => none

end RandSpec

namespace Estimator

def ofJson? (v : Json) : Option Estimator := v.choice?.bind ofChoice?

end Estimator

namespace Config

def toJson (c : Config) : Json :=
  .ofMembers [("estimator", .ofString c.estimator.choice), ("validate_on_submit", .bool c.validateOnSubmit),
    ("max_nodes", .ofCount c.maxNodes)]

/-- A setting that is left out has its default. -/
def ofJson? (v : Json) : Option Config :=
  match v.fields? ["estimator", "validate_on_submit", "max_nodes"] 0 with
  | some [estimator, validateOnSubmit, maxNodes] =>
    let default : Config := {}
    return {
      estimator := ← Json.withDefault default.estimator Estimator.ofJson? estimator
      validateOnSubmit := ← Json.withDefault default.validateOnSubmit Json.toBool? validateOnSubmit
      maxNodes := ← Json.withDefault default.maxNodes Json.toCount? maxNodes }
  | _ => none

end Config

namespace Operation

def toJson (op : Operation) : Json :=
  match op with
  | reshape rows cols =>
    .ofMembers [("op", .ofString op.name), ("rows", .ofCount rows), ("cols", .ofCount cols)]
  | op => .ofMembers [("op", .ofString op.name)]

def reshapeOf? (v : Json) : Option Operation :=
  match v.fields? ["rows", "cols"] 2 with
  | some [rows, cols] => return reshape (← Json.required Json.toCount? rows) (← Json.required Json.toCount? cols)
  | _ => none

/-- The operation of a word, its data in the members beside the word. -/
def ofMembers? (word : String) (members : List (Json.Text × Json)) : Option Operation :=
  if word = "reshape" then reshapeOf? (.object members) else ofName? word

/-- The operation of a word, its data in the items after the word. -/
def ofItems? (word : String) (items : List Json) : Option Operation :=
  if word = "reshape" then reshapeOf? (.array items)
  else if items.isEmpty then ofName? word
  else none

/-- The member that holds the word, which stands there once, and the others. -/
def splitWord? (members : List (Json.Text × Json)) : Option (Json × List (Json.Text × Json)) :=
  match members.partition fun m => m.1 == some "op" with
  | ([(_, word)], others) =>
    if others.all fun m => m.1.isSome && m.2.canSetAside then some (word, others) else none
  | _ => none

def ofJson? : Json → Option Operation
  | .object members => do
    let (word, others) ← splitWord? members
    ofMembers? (← word.toString?) others
  | .array (word :: items) => do
    if items.all Json.canSetAside then ofItems? (← word.toString?) items else none
  | _ => none

end Operation

namespace OutputType

def toJson (t : OutputType) : Json := .ofString t.name

def ofJson? (v : Json) : Option OutputType := v.choice?.bind ofName?

end OutputType

namespace ContextId

def toJson (c : ContextId) : Json := .ofString c.text

def ofJson? (v : Json) : Option ContextId := v.toString?.bind fun s => (Uuid.ofText? s).map fun u => ⟨u⟩

end ContextId
end MatrixPlan
