import MatrixPlan.Codec.Values
/-!
# Script — scripts as JSON text

A script that is read is also checked: what has no version, no statement or no identifier to hold the result is refused
with the first of these faults.
-/
namespace MatrixPlan
namespace Script

def memberNames : List String :=
  ["version", "script_id", "created_at", "context_id", "statements", "output", "output_type"]

def toJson (s : Script) : Json :=
  .ofMembers (memberNames.zip [.ofString s.version, .ofString s.scriptId.text, .ofString s.createdAt.text,
    s.contextId.toJson, .array (s.statements.map .ofString), .ofString s.output, s.outputType.toJson])

def ofJson? (v : Json) : Option Script :=
  match v.fields? memberNames memberNames.length with
  | some [version, scriptId, createdAt, contextId, statements, output, outputType] => return {
      version := ← Json.required Json.toString? version
      scriptId := ← Json.required (fun v => v.toString?.bind Uuid.ofText?) scriptId
      createdAt := ← Json.required (fun v => v.toString?.bind Timestamp.ofText?) createdAt
      contextId := ← Json.required ContextId.ofJson? contextId
      statements := ← Json.required (Json.toList? Json.toString?) statements
      output := ← Json.required Json.toString? output
      outputType := ← Json.required OutputType.ofJson? outputType }
  | _ => none

/-- The text of a script, one member or statement a line. -/
def toPrettyText (s : Script) : String := s.toJson.toPrettyText

/-- Reads and checks a script. -/
def ofText (text : String) : Except PlanError Script :=
  match decodeText (fun v => wellFormed (ofJson? v)) text with
  | .error _ => .error (.internal "deserialize script: the text is not a script")
  | .ok s => match s.fault? with
    | some cause => .error (.validation cause)
    | none => .ok s

/-- Whether a script is read back from its text as it was. -/
def survives (s : Script) : Bool :=
  match ofText s.toPrettyText with
  | .ok t => t == s
  | .error _ => false

end Script
end MatrixPlan
