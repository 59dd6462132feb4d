import MatrixPlan.Number.Natural
/-!
# Blank — white space

The characters with the property White_Space, twenty-five of them, and a text without those in front of it.
-/
namespace MatrixPlan
namespace Text

/-- The ranges of the white-space characters. -/
def blankRanges : List (Nat × Nat) :=
  [(0x09, 0x0D), (0x20, 0x20), (0x85, 0x85), (0xA0, 0xA0), (0x1680, 0x1680), (0x2000, 0x200A), (0x2028, 0x2029),
    (0x202F, 0x202F), (0x205F, 0x205F), (0x3000, 0x3000)]

def isBlank (c : Char) : Bool := blankRanges.any fun r => decide (r.1 ≤ c.toNat ∧ c.toNat ≤ r.2)

def trimStart (cs : List Char) : List Char := cs.dropWhile isBlank

/-- Whether nothing but blanks is written, so that nothing is left without them. -/
def allBlank (cs : List Char) : Bool := cs.all isBlank

end Text
end MatrixPlan
