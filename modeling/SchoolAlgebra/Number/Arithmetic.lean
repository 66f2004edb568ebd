import SchoolAlgebra.Number.Basic

/-!
# Arithmetic of numbers

Two integers give an integer, except where a division leaves a remainder. With a fraction the result
is a fraction, and with a double it is a double. Where an exact result exceeds words, the double of
the same operation takes its place; no double turns back into an exact number.
-/

namespace SchoolAlgebra.Number

/-- The fraction that an exact number is written as. -/
def toFraction? : Number → Option Fraction
  | integer v => some (.ofInt64 v)
  | fraction f => some f
  | float _ => none

/-- The exact result of an operation on two exact numbers, unless it exceeds words. -/
def exactResult? (onIntegers : Int → Int → Int)
    (onFractions : Fraction → Fraction → Option Fraction) : Number → Number → Option Number
  | integer v, integer w => (Word.int64? (onIntegers v.toInt w.toInt)).map integer
  | a, b => do
    let f ← a.toFraction?
    let g ← b.toFraction?
    (onFractions f g).map fraction

def add (a b : Number) : Number :=
  (exactResult? (· + ·) Fraction.add? a b).getD (float (a.toFloat + b.toFloat))

def sub (a b : Number) : Number :=
  (exactResult? (· - ·) Fraction.sub? a b).getD (float (a.toFloat - b.toFloat))

def mul (a b : Number) : Number :=
  (exactResult? (· * ·) Fraction.mul? a b).getD (float (a.toFloat * b.toFloat))

/-- The number of opposite sign. -/
def neg : Number → Number
  | integer v =>
    ((Word.int64? (-v.toInt)).map integer).getD (float (-Binary64.ofInt v.toInt))
  | fraction f => fraction f.negated
  | float x => float (-x)

instance : Add Number := ⟨add⟩

instance : Sub Number := ⟨sub⟩

instance : Mul Number := ⟨mul⟩

instance : Neg Number := ⟨neg⟩

/--
The quotient of two integers, the second not zero: the integer that it is, if that fits a word, and
otherwise a fraction.
-/
def divIntegers (a b : Int64) (hb : b ≠ 0) : Number :=
  match if b.toInt ∣ a.toInt then Word.int64? (a.toInt.tdiv b.toInt) else none with
  | some q => integer q
  | none => fraction (.quotient a b hb)

/-- The exact quotient of two exact numbers, unless it exceeds words or the divisor is zero. -/
def exactQuotient? : Number → Number → Option Number
  | integer v, integer w => if hw : w ≠ 0 then some (divIntegers v w hw) else none
  | a, b => do
    let f ← a.toFraction?
    let g ← b.toFraction?
    (f.div? g).map fraction

/--
The quotient, unless the divisor is an exact zero. By a zero among the doubles it is infinite, or
NaN for zero over zero.
-/
def div? (a b : Number) : Option Number :=
  if b.isExact && b.isZero then none
  else some ((exactQuotient? a b).getD (float (a.toFloat / b.toFloat)))

end SchoolAlgebra.Number
