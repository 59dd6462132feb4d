/-!
# Hex — numbers in base sixteen

A fixed number of lower-case digits writes a number; digits of either case are read.
-/
namespace MatrixPlan
namespace Text

/-- The lower-case digit of a number below sixteen. -/
def hexDigit (n : Nat) : Char := (n % 16).digitChar

/-- The last `width` base-sixteen digits of a number. -/
def hex : Nat → Nat → List Char
  | 0, _ => []
  | width + 1, n => hex width (n / 16) ++ [hexDigit n]

/-- The value of a digit of either case. -/
def hexValue? (c : Char) : Option Nat :=
  if '0' ≤ c ∧ c ≤ '9' then some (c.toNat - '0'.toNat)
  else if 'a' ≤ c ∧ c ≤ 'f' then some (c.toNat - 'a'.toNat + 10)
  else if 'A' ≤ c ∧ c ≤ 'F' then some (c.toNat - 'A'.toNat + 10)
  else none

/-- The number that digits write after the digits of `n`, if all of them are digits. -/
def ofHex? : Nat → List Char → Option Nat
  | n, [] => some n
  | n, c :: cs => match hexValue? c with
    | some d => ofHex? (16 * n + d) cs
    | none => none

end Text
end MatrixPlan
