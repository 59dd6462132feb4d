import MatrixPlan.Json.Basic
import MatrixPlan.Text.Hex
/-!
# Printer — JSON text

`compact` writes no blanks.  `pretty` writes one item or member a line, two blanks a level, and nothing inside an empty
array or object.  A string escapes the quote, the backslash and the control characters, the common ones by a letter.
-/
namespace MatrixPlan
namespace Json

/-- A character as it stands inside a string. -/
def escaped (c : Char) : List Char :=
  if c = '"' then ['\\', '"']
  else if c = '\\' then ['\\', '\\']
  else if c = '\x08' then ['\\', 'b']
  else if c = '\x0c' then ['\\', 'f']
  else if c = '\n' then ['\\', 'n']
  else if c = '\r' then ['\\', 'r']
  else if c = '\t' then ['\\', 't']
  else if c.toNat < 0x20 then '\\' :: 'u' :: Text.hex 4 c.toNat
  else [c]

def quoted (s : String) : List Char := '"' :: s.toList.flatMap escaped ++ ['"']

def textChars : Json.Text → List Char
  | some s => quoted s
  | none => quoted ""

mutual

/-- A value without blanks. -/
def compact : Json → List Char
  | null => "null".toList
  | bool true => "true".toList
  | bool false => "false".toList
  | number text => text
  | string text => textChars text
  | array items => '[' :: compactItems items ++ [']']
  | object members => '{' :: compactMembers members ++ ['}']
  | broken => []

def compactItems : List Json → List Char
  | [] => []
  | [v] => compact v
  | v :: vs => compact v ++ ',' :: compactItems vs

def compactMembers : List (Json.Text × Json) → List Char
  | [] => []
  | [(key, v)] => textChars key ++ ':' :: compact v
  | (key, v) :: ms => textChars key ++ ':' :: compact v ++ ',' :: compactMembers ms

end

def newline (level : Nat) : List Char := '\n' :: List.replicate (2 * level) ' '

mutual

/-- A value with one item or member a line, inside `level` others. -/
def pretty (level : Nat) : Json → List Char
  | null => "null".toList
  | bool true => "true".toList
  | bool false => "false".toList
  | number text => text
  | string text => textChars text
  | array [] => ['[', ']']
  | array items => '[' :: prettyItems (level + 1) items ++ newline level ++ [']']
  | object [] => ['{', '}']
  | object members => '{' :: prettyMembers (level + 1) members ++ newline level ++ ['}']
  | broken => []

def prettyItems (level : Nat) : List Json → List Char
  | [] => []
  | [v] => newline level ++ pretty level v
  | v :: vs => newline level ++ pretty level v ++ ',' :: prettyItems level vs

def prettyMembers (level : Nat) : List (Json.Text × Json) → List Char
  | [] => []
  | [(key, v)] => newline level ++ textChars key ++ ':' :: ' ' :: pretty level v
  | (key, v) :: ms =>
    newline level ++ textChars key ++ ':' :: ' ' :: pretty level v ++ ',' :: prettyMembers level ms

end

def toText (v : Json) : String := String.ofList v.compact

def toPrettyText (v : Json) : String := String.ofList (v.pretty 0)

end Json
end MatrixPlan
