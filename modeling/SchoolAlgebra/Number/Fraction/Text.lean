import SchoolAlgebra.Number.Decimal
import SchoolAlgebra.Number.Fraction.Basic
import SchoolAlgebra.Text.Blank

/-!
# Reading fractions

A written fraction is an optional minus sign and then a whole number, a ratio or a mixed number:
`3`, `-1/2`, `1 1/2`. Spaces, tabs and line ends may surround the sign, the slash and the whole
text; between the whole part and the ratio of a mixed number at least one of them must stand.
-/

namespace SchoolAlgebra.Fraction

/-- Why a text is no fraction. -/
inductive TextError where
  | empty
  | malformed (text : String)
  | zeroDenominator
deriving DecidableEq, Repr

/-- The wording of the error. -/
def TextError.message : TextError → String
  | .empty => "empty fraction"
  | .malformed text => s!"malformed fraction `{text}`"
  | .zeroDenominator => "fraction has a zero denominator"

/-- Whether the character may stand between the parts of a written fraction. -/
def isGap (c : Char) : Bool := c == ' ' || c == '\t' || c == '\r' || c == '\n'

/-- The text after the gaps at its start. -/
def skipGaps (cs : List Char) : List Char := cs.dropWhile isGap

/-- The word written by the digits at the start of the text, and the text after them. -/
def takeWord? (cs : List Char) : Option (UInt64 × List Char) :=
  let digits := cs.takeWhile Decimal.isDigit
  if digits.isEmpty then none
  else (Word.uint64? (Decimal.natOfDigits digits)).map (·, cs.dropWhile Decimal.isDigit)

/-- The denominator after a slash, and the text after it. -/
def takeDenominator? (cs : List Char) : Option (UInt64 × List Char) :=
  match skipGaps cs with
  | '/' :: rest => takeWord? (skipGaps rest)
  | _ => none

/-- The numerator and the denominator of a ratio, and the text after them. -/
def takeRatio? (cs : List Char) : Option (UInt64 × UInt64 × List Char) := do
  let (numerator, rest) ← takeWord? cs
  let (denominator, rest) ← takeDenominator? rest
  return (numerator, denominator, rest)

/--
The whole part, the numerator and the denominator that the text starts with, and the text after
them. The longest of the three shapes wins: a mixed number, a ratio, a whole number.
-/
def takeParts? (cs : List Char) : Option ((UInt64 × UInt64 × UInt64) × List Char) := do
  let (first, rest) ← takeWord? cs
  let mixed : Option (UInt64 × UInt64 × List Char) :=
    if (rest.head?.map isGap).getD false then takeRatio? (skipGaps rest) else none
  match mixed, takeDenominator? rest with
  | some (numerator, denominator, rest), _ => return ((first, numerator, denominator), rest)
  | none, some (denominator, rest) => return ((0, first, denominator), rest)
  | none, none => return ((first, 0, 1), rest)

/-- The sign of the text, which is set by a minus, and the text after it. -/
def takeSign (cs : List Char) : Bool × List Char :=
  match cs with
  | '-' :: rest => (true, skipGaps rest)
  | _ => (false, cs)

/-- The fraction written by the text. -/
def ofText (text : String) : Except TextError Fraction :=
  let cs := text.toList
  if cs.all Text.isBlank then .error .empty
  else
    let (negative, body) := takeSign (skipGaps cs)
    match takeParts? body with
    | some ((whole, numerator, denominator), rest) =>
      if (skipGaps rest).isEmpty then
        (ofParts? negative whole numerator denominator).elim (.error .zeroDenominator) .ok
      else .error (.malformed text)
    | none => .error (.malformed text)

end SchoolAlgebra.Fraction
