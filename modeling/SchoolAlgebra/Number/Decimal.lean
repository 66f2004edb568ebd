import SchoolAlgebra.Number.Binary64

/-!
# Decimal numerals

A decimal numeral is a coefficient and a power of ten. It is read from digits, rounded to the
nearest double, and written in positional notation, never with an exponent.

A double is written as the shortest numeral that reads back as it. On each grid of decimals, from
one digit upward, only the two neighbours of the exact value are tried, and the test is the reading
itself.
-/

namespace SchoolAlgebra

/-- The number `coefficient * 10 ^ exponent`. -/
structure Decimal where
  coefficient : Nat
  exponent : Int
deriving DecidableEq, Repr

namespace Decimal

/-- Whether the character is one of the ASCII digits. -/
def isDigit (c : Char) : Bool := decide ('0' ≤ c ∧ c ≤ '9')

/-- The number written by a run of digits, most significant first. -/
def natOfDigits (digits : List Char) : Nat :=
  digits.foldl (fun n c ↦ 10 * n + (c.toNat - '0'.toNat)) 0

/-- The digits of `n`, most significant first. -/
def digits (n : Nat) : List Char := Nat.toDigits 10 n

/-- The numeral with the given digits before and after its point. -/
def ofDigits (whole fractional : List Char) : Decimal where
  coefficient := natOfDigits (whole ++ fractional)
  exponent := -(fractional.length : Int)

/-- The double nearest to the numeral, or to its negation. -/
def toFloat (d : Decimal) (negative : Bool) : Float :=
  let scale := Nat.pow 10 d.exponent.natAbs
  if d.exponent < 0 then Binary64.ofQuotient negative d.coefficient scale
  else Binary64.ofQuotient negative (d.coefficient * scale) 1

/-- Drops the zeros at the end of a run of digits. -/
def trimZeros (digits : List Char) : List Char :=
  (digits.reverse.dropWhile (· == '0')).reverse

/-- The text of the numeral in positional notation, without zeros after the last digit needed. -/
def toText (d : Decimal) : String :=
  let shift := d.exponent.natAbs
  let all := digits d.coefficient
  if d.exponent < 0 then
    let padded := List.replicate (shift + 1 - all.length) '0' ++ all
    let whole := padded.take (padded.length - shift)
    let fractional := trimZeros (padded.drop (padded.length - shift))
    String.ofList (if fractional.isEmpty then whole else whole ++ '.' :: fractional)
  else String.ofList (all ++ List.replicate shift '0')

/-- The exact value of a finite double, its sign left aside. -/
def exact (x : Float) : Decimal where
  coefficient := Binary64.units x * Nat.pow 5 1074
  exponent := -1074

/-- The numeral `d` without its last `dropped` digits, and the next one of that length. -/
def neighbours (d : Decimal) (dropped : Nat) : Decimal × Decimal :=
  let kept := d.coefficient / Nat.pow 10 dropped
  (⟨kept, d.exponent + dropped⟩, ⟨kept + 1, d.exponent + dropped⟩)

/--
The neighbour of `d` without its last `dropped` digits that reads back as `x`, if there is one. Of
two the nearer is taken, and the upper one at equal distance.
-/
def roundTrip? (x : Float) (d : Decimal) (dropped : Nat) : Option Decimal :=
  let (below, above) := d.neighbours dropped
  let reads (e : Decimal) : Bool := e.toFloat (Binary64.hasSignBit x) == x
  let unit := Nat.pow 10 dropped
  let upperNearer := decide (unit ≤ 2 * (d.coefficient - below.coefficient * unit))
  match reads below, reads above with
  | true, true => some (if upperNearer then above else below)
  | true, false => some below
  | false, true => some above
  | false, false => none

/-- The shortest numeral that reads back as the finite double `x`, its sign left aside. -/
def shortest (x : Float) : Decimal :=
  let d := exact x
  let length := (digits d.coefficient).length
  ((List.range 17).findSome? fun n ↦ roundTrip? x d (length - (n + 1))).getD d

/-- The text of a double: its shortest numeral, or `inf` or `NaN`. -/
def ofFloat (x : Float) : String :=
  let sign := if Binary64.hasSignBit x then "-" else ""
  if x.isNaN then "NaN"
  else if x.isInf then sign ++ "inf"
  else if Binary64.units x = 0 then sign ++ "0"
  else sign ++ (shortest x).toText

end Decimal

end SchoolAlgebra
