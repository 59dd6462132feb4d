import MatrixPlan.Stamp.Calendar
import MatrixPlan.Number.Decimal
import MatrixPlan.Number.Layout
import MatrixPlan.Text.Blank
/-!
# Timestamp — instants and their texts

An instant is a day, a second of the day and a fraction in nanoseconds; in a leap second the fraction goes on beyond
`10^9`.  It is written in UTC as `2024-03-01T12:30:45.120Z`, with none, three, six or nine places.  Reading takes an
offset, a blank or `t` for the `T`, blanks between the parts, and fields without leading zeros.
-/
namespace MatrixPlan

structure Timestamp where
  /-- Days since 1 January 1970. -/
  day : Int
  /-- Seconds since the start of the day. -/
  second : Nat
  /-- Nanoseconds since the start of the second; from `10^9` on in a leap second. -/
  nano : Nat
  deriving DecidableEq, Repr

namespace Timestamp

/-- The first and last year of the calendar's range. -/
def minYear : Int := -262143

def maxYear : Int := 262142

def inRange (year : Int) : Bool := decide (minYear ≤ year ∧ year ≤ maxYear)

/-- A number below `10^width` with leading zeros. -/
def padded (width n : Nat) : List Char :=
  let ds := FloatLayout.numeral n
  List.replicate (width - ds.length) '0' ++ ds

/-- A year of four digits, or with a sign and at least four. -/
def yearChars (year : Int) : List Char :=
  if 0 ≤ year ∧ year ≤ 9999 then padded 4 year.toNat
  else (if year < 0 then '-' else '+') :: padded 4 year.natAbs

/-- A fraction of a second with the fewest of 0, 3, 6 or 9 places. -/
def fractionChars (nano : Nat) : List Char :=
  if nano = 0 then []
  else if nano % 1000000 = 0 then '.' :: padded 3 (nano / 1000000)
  else if nano % 1000 = 0 then '.' :: padded 6 (nano / 1000)
  else '.' :: padded 9 nano

def chars (t : Timestamp) : List Char :=
  let (year, month, day) := Calendar.date t.day
  let leap := decide (1000000000 ≤ t.nano)
  let second := t.second % 60 + (if leap then 1 else 0)
  let nano := if leap then t.nano - 1000000000 else t.nano
  yearChars year ++ '-' :: padded 2 month ++ '-' :: padded 2 day
    ++ 'T' :: padded 2 (t.second / 3600) ++ ':' :: padded 2 (t.second / 60 % 60) ++ ':' :: padded 2 second
    ++ fractionChars nano ++ ['Z']

def text (t : Timestamp) : String := String.ofList t.chars

/-! ## Reading -/

/-- A number of at most `width` digits after blanks, and the rest of the text. -/
def number? (width : Nat) (cs : List Char) : Option (Nat × List Char) :=
  let cs := Text.trimStart cs
  let ds := (cs.take width).takeWhile Char.isDigit
  if ds = [] then none else some (Decimal.ofDigits ds, cs.drop ds.length)

/-- A year of at most four digits, or with a sign and any number of them. -/
def year? (cs : List Char) : Option (Int × List Char) :=
  match Text.trimStart cs with
  | '-' :: cs => (signed cs).map fun (n, rest) => (-(n : Int), rest)
  | '+' :: cs => (signed cs).map fun (n, rest) => ((n : Int), rest)
  | cs => (number? 4 cs).map fun (n, rest) => ((n : Int), rest)
where
  /-- The digits after a sign. -/
  signed (cs : List Char) : Option (Nat × List Char) :=
    let ds := cs.takeWhile Char.isDigit
    if ds = [] then none else some (Decimal.ofDigits ds, cs.drop ds.length)

/-- What follows a separator that may have blanks in front. -/
def after? (separator : Char) (cs : List Char) : Option (List Char) :=
  match Text.trimStart cs with
  | c :: rest => if c = separator then some rest else none
  | [] => none

def date? (cs : List Char) : Option ((Int × Nat × Nat) × List Char) := do
  let (year, cs) ← year? cs
  let (month, cs) ← number? 2 (← after? '-' cs)
  let (day, cs) ← number? 2 (← after? '-' cs)
  if Calendar.isDate year month day ∧ inRange year then some ((year, month, day), cs) else none

/-- A fraction in nanoseconds, its places after the ninth dropped, and the rest of the text. -/
def fraction? : List Char → Option (Nat × List Char)
  | '.' :: cs =>
    let ds := cs.takeWhile Char.isDigit
    if ds = [] then none
    else
      let kept := ds.take 9
      some (Decimal.ofDigits kept * 10 ^ (9 - kept.length), cs.drop ds.length)
  | cs => some (0, cs)

/-- A time of day and the rest of the text.  The second 60 is a leap second after the second 59. -/
def time? (cs : List Char) : Option ((Nat × Nat) × List Char) := do
  let (hour, cs) ← number? 2 cs
  let (minute, cs) ← number? 2 (← after? ':' cs)
  let (second, cs) ← number? 2 (← after? ':' cs)
  let (nano, cs) ← fraction? cs
  if hour < 24 ∧ minute < 60 ∧ second < 60 then some ((hour * 3600 + minute * 60 + second, nano), cs)
  else if hour < 24 ∧ minute < 60 ∧ second = 60 then
    some ((hour * 3600 + minute * 60 + 59, 1000000000 + nano), cs)
  else none

/-- Hours and minutes of an offset, in seconds. -/
def offsetSeconds? : List Char → Option (Nat × List Char)
  | a :: b :: cs => match cs.dropWhile (fun c => c == ':' || Text.isBlank c) with
    | c :: d :: rest =>
      if [a, b, c, d].all Char.isDigit ∧ c < '6' then
        some (Decimal.ofDigits [a, b] * 3600 + Decimal.ofDigits [c, d] * 60, rest)
      else none
    | _ => none
  | _ => none

/-- An offset from UTC in seconds, and the rest of the text. -/
def offset? (cs : List Char) : Option (Int × List Char) :=
  match Text.trimStart cs with
  | 'Z' :: rest | 'z' :: rest => some (0, rest)
  | '+' :: rest => (offsetSeconds? rest).map fun (n, rest) => ((n : Int), rest)
  | '-' :: rest | '\u2212' :: rest => (offsetSeconds? rest).map fun (n, rest) => (-(n : Int), rest)
  | u :: t :: c :: rest =>
    if u.toUpper = 'U' ∧ t.toUpper = 'T' ∧ c.toUpper = 'C' then some (0, rest) else none
  | _ => none

/-- The instant of a local date and time at an offset of less than a day. -/
def ofLocal? (date : Int × Nat × Nat) (second nano : Nat) (offset : Int) : Option Timestamp :=
  let total := Calendar.dayNumber date.1 date.2.1 date.2.2 * 86400 + second - offset
  let day := total / 86400
  if offset.natAbs < 86400 ∧ inRange (Calendar.date day).1 then some ⟨day, (total % 86400).toNat, nano⟩ else none

def ofChars? (cs : List Char) : Option Timestamp := do
  let (date, cs) ← date? cs
  let cs ← match cs with
    | c :: rest => if c = 'T' ∨ c = 't' ∨ c = ' ' then some rest else none
    | [] => none
  let ((second, nano), cs) ← time? cs
  let (offset, cs) ← offset? cs
  if Text.allBlank cs then ofLocal? date second nano offset else none

def ofText? (s : String) : Option Timestamp := ofChars? s.toList

/-- The instant `n` seconds after the start of 1970. -/
def ofSeconds (n : Nat) : Timestamp := ⟨n / 86400, n % 86400, 0⟩

end Timestamp
end MatrixPlan
