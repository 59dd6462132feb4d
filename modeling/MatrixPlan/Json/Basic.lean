/-!
# Json — values of the JSON format

A number is kept as its text, so that a reader may ask for a count, an integer or a double.  Reading is total: a text
that stops being JSON is read as far as it goes, with `broken` at that point, and a decoder that walks the value in
text order meets whichever comes first, a bad member or the broken text.
-/
namespace MatrixPlan

/-- The text a JSON string names.  A string with half a surrogate pair is well formed and names none. -/
abbrev Json.Text := Option String

inductive Json where
  | null
  | bool (value : Bool)
  | number (text : List Char)
  | string (text : Json.Text)
  | array (items : List Json)
  | object (members : List (Json.Text × Json))
  /-- Where a text stops being JSON. -/
  | broken

namespace Json

def ofString (s : String) : Json := .string (some s)

def ofMembers (members : List (String × Json)) : Json := .object (members.map fun m => (some m.1, m.2))

mutual

def isWhole : Json → Bool
  | null | bool _ | number _ | string _ => true
  | array items => areWhole items
  | object members => membersWhole members
  | broken => false

def areWhole : List Json → Bool
  | [] => true
  | v :: vs => isWhole v && areWhole vs

def membersWhole : List (Json.Text × Json) → Bool
  | [] => true
  | (_, v) :: ms => isWhole v && membersWhole ms

end

mutual

/-- How many arrays and objects are open at the deepest point of a value. -/
def depth : Json → Nat
  | array items => depths items + 1
  | object members => memberDepths members + 1
  | _ => 0

def depths : List Json → Nat
  | [] => 0
  | v :: vs => max (depth v) (depths vs)

def memberDepths : List (Json.Text × Json) → Nat
  | [] => 0
  | (_, v) :: ms => max (depth v) (memberDepths ms)

end

end Json
end MatrixPlan
