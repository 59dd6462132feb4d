import MatrixPlan.Text.Hex
/-!
# Uuid — 128-bit identifiers and their texts

An identifier is written as 32 lower-case hexadecimal digits in five groups.  It is read in groups, also in braces or
after `urn:uuid:`, or as 32 digits in a row; all letters may be in either case.
-/
namespace MatrixPlan

structure Uuid where
  bits : BitVec 128
  deriving DecidableEq, Repr

namespace Uuid

/-- The length of the groups. -/
def groups : List Nat := [8, 4, 4, 4, 12]

/-- A text cut into groups, a hyphen between two of them. -/
def hyphenate : List Nat → List Char → List Char
  | [], _ => []
  | [_], cs => cs
  | n :: ns, cs => cs.take n ++ '-' :: hyphenate ns (cs.drop n)

/-- A text of groups without its hyphens, each of them in its place. -/
def unhyphenate? : List Nat → List Char → Option (List Char)
  | [], _ => none
  | [n], cs => if cs.length = n then some cs else none
  | n :: ns, cs => match cs.drop n with
    | '-' :: rest => (unhyphenate? ns rest).map (cs.take n ++ ·)
    | _ => none

def chars (u : Uuid) : List Char := hyphenate groups (Text.hex 32 u.bits.toNat)

def text (u : Uuid) : String := String.ofList u.chars

def ofDigits? (cs : List Char) : Option Uuid :=
  if cs.length = 32 then (Text.ofHex? 0 cs).map fun n => ⟨BitVec.ofNat 128 n⟩ else none

def ofGroups? (cs : List Char) : Option Uuid := (unhyphenate? groups cs).bind ofDigits?

/-- What stands before the groups of an identifier that is written as a resource name. -/
def namespaceMark : List Char := "urn:uuid:".toList

def ofChars? (cs : List Char) : Option Uuid :=
  match cs with
  | '{' :: rest => if rest.getLast? = some '}' then ofGroups? rest.dropLast else none
  | cs =>
    if (cs.take namespaceMark.length).map Char.toLower = namespaceMark then ofGroups? (cs.drop namespaceMark.length)
    else if cs.length = 32 then ofDigits? cs
    else ofGroups? cs

def ofText? (s : String) : Option Uuid := ofChars? s.toList

def ofNat (n : Nat) : Uuid := ⟨BitVec.ofNat 128 n⟩

end Uuid
end MatrixPlan
