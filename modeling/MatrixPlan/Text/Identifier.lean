/-!
# Identifier — names a script may bind

An ASCII letter or an underscore, then ASCII letters, digits and underscores.
-/
namespace MatrixPlan
namespace Text

def isLetter (c : Char) : Bool := decide ('a' ≤ c ∧ c ≤ 'z') || decide ('A' ≤ c ∧ c ≤ 'Z') || c == '_'

def isLetterOrDigit (c : Char) : Bool := isLetter c || decide ('0' ≤ c ∧ c ≤ '9')

def isIdentifier : List Char → Bool
  | [] => false
  | c :: cs => isLetter c && cs.all isLetterOrDigit

end Text
end MatrixPlan
