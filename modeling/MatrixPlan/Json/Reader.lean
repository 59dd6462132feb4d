import MatrixPlan.Json.Token
/-!
# Reader — JSON text as values

The tokens are read one by one with the arrays and objects that are still open on a stack.  At the first token that does
not fit, what is open is closed with `broken` as its last part.
-/
namespace MatrixPlan
namespace Json

/-- An array or object whose end has not been read, with its parts so far in reverse.  An object has the key of the
member being read. -/
inductive Frame where
  | array (items : List Json)
  | object (members : List (Json.Text × Json)) (key : Json.Text)

/-- What may come next. -/
inductive Expectation where
  | value
  /-- A value, or the end of the array just opened. -/
  | firstItem
  /-- A key, or the end of the object just opened. -/
  | firstKey
  | key
  | colon
  /-- A comma, or the end of what is open. -/
  | more

/-- What a text starts with, and whether nothing follows it. -/
structure Document where
  value : Json
  ended : Bool

def Frame.close (last : Json) : Frame → Json
  | .array items => .array (items.reverse ++ [last])
  | .object members key => .object (members.reverse ++ [(key, last)])

/-- What has been read when the text breaks inside the given frames, the innermost first. -/
def abandon (stack : List Frame) : Document := ⟨stack.foldl Frame.close broken, false⟩

/-- A frame with one more part, its key used up. -/
def Frame.add (v : Json) : Frame → Frame
  | .array items => .array (v :: items)
  | .object members key => .object ((key, v) :: members) none

/-- Reads the tokens inside the given frames. -/
def readTokens : List Token → Expectation → List Frame → Document
  | [], _, stack => abandon stack
  | t :: ts, expected, stack =>
    -- a value has been read in full
    let finish (v : Json) (stack : List Frame) : Document := match stack with
      | [] => ⟨v, ts.isEmpty⟩
      | f :: below => readTokens ts .more (f.add v :: below)
    match expected, t, stack with
    | .value, .string s, stack | .firstItem, .string s, stack => finish (.string s) stack
    | .value, .number s, stack | .firstItem, .number s, stack => finish (.number s) stack
    | .value, .word v, stack | .firstItem, .word v, stack => finish v stack
    | .value, .openArray, stack | .firstItem, .openArray, stack => readTokens ts .firstItem (.array [] :: stack)
    | .value, .openObject, stack | .firstItem, .openObject, stack =>
      readTokens ts .firstKey (.object [] none :: stack)
    | .firstItem, .closeArray, .array items :: below | .more, .closeArray, .array items :: below =>
      finish (.array items.reverse) below
    | .firstKey, .closeObject, .object members _ :: below | .more, .closeObject, .object members _ :: below =>
      finish (.object members.reverse) below
    | .firstKey, .string key, .object members _ :: below | .key, .string key, .object members _ :: below =>
      readTokens ts .colon (.object members key :: below)
    | .colon, .colon, stack => readTokens ts .value stack
    | .more, .comma, .array items :: below => readTokens ts .value (.array items :: below)
    | .more, .comma, .object members key :: below => readTokens ts .key (.object members key :: below)
    | _, _, stack => abandon stack

def read (text : String) : Document := readTokens (tokens text.toList) .value []

end Json
end MatrixPlan
