import MatrixPlan.Json.Number
/-!
# Decode — records and tagged values

A record is an object with its fields in any order, or an array of all its fields in order.  An unknown member is
skipped, a field given twice is refused.  A choice without data is its name, or an object with its name and `null`.
A tagged value has its tag and its content in two members, in either order, or in an array of two; in an array the tag
is a plain name.
-/
namespace MatrixPlan
namespace Json

/-- The members of an object sorted into fields, after those already `found`. -/
def sortFields? (names : List String) : List (Json.Text × Json) → List (Option Json) → Option (List (Option Json))
  | [], found => some found
  | (none, _) :: _, _ => none
  | (some key, v) :: ms, found => match names.idxOf? key with
    | some i => match found[i]? with
      | some none => sortFields? names ms (found.set i (some v))
      | _ => none
    | none => if v.isWhole then sortFields? names ms found else none

/-- The fields of a record, by name or by place.  A field that is not there is `none`; `least` is how many an array
must have. -/
def fields? (names : List String) (least : Nat) : Json → Option (List (Option Json))
  | .object members => sortFields? names members (names.map fun _ => none)
  | .array items =>
    if least ≤ items.length ∧ items.length ≤ names.length then
      some (items.map some ++ List.replicate (names.length - items.length) none)
    else none
  | _ => none

/-- A field that must be there. -/
def required (decode : Json → Option α) : Option Json → Option α
  | some v => decode v
  | none => none

/-- A field that may be left out or `null`. -/
def optional (decode : Json → Option α) : Option Json → Option (Option α)
  | none => some none
  | some .null => some none
  | some v => (decode v).map some

/-- A field that has a default when it is left out. -/
def withDefault (value : α) (decode : Json → Option α) : Option Json → Option α
  | some v => decode v
  | none => some value

def toList? (decode : Json → Option α) : Json → Option (List α)
  | .array items => items.mapM decode
  | _ => none

def choice? : Json → Option String
  | .string text => text
  | .object [(key, .null)] => key
  | _ => none

/-- How many arrays and objects may be open at once in a value that is set aside while its tag is looked for. -/
def maxDepth : Nat := 127

mutual

/-- Whether a value can be set aside: it is whole, its strings name a text and its numbers a double. -/
def isKeepable : Json → Bool
  | null | bool _ => true
  | number text => (toFloat? (number text)).isSome
  | string text => text.isSome
  | array items => areKeepable items
  | object members => membersKeepable members
  | broken => false

def areKeepable : List Json → Bool
  | [] => true
  | v :: vs => isKeepable v && areKeepable vs

def membersKeepable : List (Json.Text × Json) → Bool
  | [] => true
  | (key, v) :: ms => key.isSome && isKeepable v && membersKeepable ms

end

/-- Whether a member of an outermost object can be set aside. -/
def canSetAside (v : Json) : Bool := v.isKeepable && decide (v.depth < maxDepth)

/-- A tag and a content taken from a text, and whether what follows them is well formed too.  What follows is looked at
only after the content, so a fault of the content is reported first. -/
structure Tagged where
  tag : Json
  content : Option Json
  restFits : Bool

/-- Whether no tag and no content is among the members left over, and the text goes on well. -/
def noneLeft (tag content : String) : List (Json.Text × Json) → Bool
  | [] => true
  | (none, _) :: _ => false
  | (some key, v) :: ms => key != tag && key != content && v.isWhole && noneLeft tag content ms

def contentAfter? (tag content : String) (found : Json) : List (Json.Text × Json) → Option Tagged
  | [] => some ⟨found, none, true⟩
  | (none, _) :: _ => none
  | (some key, v) :: ms =>
    if key = tag then none
    else if key = content then some ⟨found, some v, noneLeft tag content ms⟩
    else if v.isWhole then contentAfter? tag content found ms
    else none

def tagAfter? (tag content : String) (found : Json) : List (Json.Text × Json) → Option Tagged
  | [] => none
  | (none, _) :: _ => none
  | (some key, v) :: ms =>
    if key = content then none
    else if key = tag then some ⟨v, some found, noneLeft tag content ms⟩
    else if v.isWhole then tagAfter? tag content found ms
    else none

/-- Looks for the tag or the content, whichever comes first. -/
def taggedMembers? (tag content : String) : List (Json.Text × Json) → Option Tagged
  | [] => none
  | (none, _) :: _ => none
  | (some key, v) :: ms =>
    if key = tag then contentAfter? tag content v ms
    else if key = content then if v.canSetAside then tagAfter? tag content v ms else none
    else if v.isWhole then taggedMembers? tag content ms
    else none

/-- The tag and the content of a tagged value. -/
def tagged? (tag content : String) : Json → Option Tagged
  | .object members => taggedMembers? tag content members
  | .array (.string tag :: c :: rest) => some ⟨.string tag, some c, rest.isEmpty⟩
  | _ => none

end Json
end MatrixPlan
