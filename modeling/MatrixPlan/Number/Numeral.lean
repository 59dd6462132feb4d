import MatrixPlan.Number.Decimal
import MatrixPlan.Number.Saturation
/-!
# Numeral — decimals as they are written

A numeral is a sign, digits with a point among them and a power of ten.  `exact` is the decimal of all its digits;
`leading` that of the digits at its front that fit a word, for a reader who computes in words and doubles.
-/
namespace MatrixPlan

structure Numeral where
  negative : Bool
  whole : List Char
  fraction : List Char
  power : Int
  deriving DecidableEq, Repr

namespace Numeral

def spanDigits (cs : List Char) : List Char × List Char := cs.span Char.isDigit

/-- A sign at the front of a text, and what follows it. -/
def spanSign : List Char → Bool × List Char
  | '-' :: cs => (true, cs)
  | '+' :: cs => (false, cs)
  | cs => (false, cs)

/-- The power of ten at the end of a numeral: nothing, or a mark and a signed number. -/
def powerOf? : List Char → Option Int
  | [] => some 0
  | mark :: cs =>
    let (negative, cs) := spanSign cs
    if (mark = 'e' ∨ mark = 'E') ∧ cs ≠ [] ∧ cs.all Char.isDigit then
      some (if negative then -(Decimal.ofDigits cs : Int) else Decimal.ofDigits cs)
    else none

/-- The fraction at the front of a text that follows the whole part: its digits, and what follows them. -/
def spanFraction : List Char → List Char × List Char
  | '.' :: cs => spanDigits cs
  | cs => ([], cs)

/-- Reads a sign, digits with an optional point among them, and an optional power of ten. -/
def ofChars? (cs : List Char) : Option Numeral :=
  let (negative, cs) := spanSign cs
  let (whole, cs) := spanDigits cs
  let (fraction, cs) := spanFraction cs
  if whole = [] ∧ fraction = [] then none
  else (powerOf? cs).map fun power => ⟨negative, whole, fraction, power⟩

def exact (t : Numeral) : Decimal :=
  ⟨t.negative, Decimal.ofDigits (t.whole ++ t.fraction), t.power - t.fraction.length⟩

/-- Writes digits behind `n` as long as the number fits a word.  The first that does not fit ends this: the digits from
there on are left over. -/
def fillWord (n : Nat) : List Char → Nat × List Char
  | [] => (n, [])
  | c :: cs =>
    let m := n * 10 + (c.toNat - '0'.toNat)
    if m ≤ maxCount then fillWord m cs else (n, c :: cs)

/-- The decimal of the digits that fit a word.  The point stays where it is: a digit left over before it counts as a
zero, one left over behind it does not count. -/
def leading (t : Numeral) : Decimal :=
  let (n, skipped) := fillWord 0 t.whole
  let (n, dropped) := fillWord n t.fraction
  ⟨t.negative, n, t.power + skipped.length + dropped.length - t.fraction.length⟩

end Numeral
end MatrixPlan
