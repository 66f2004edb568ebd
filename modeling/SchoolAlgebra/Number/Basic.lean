import SchoolAlgebra.Number.Decimal
import SchoolAlgebra.Number.Fraction.Basic

/-!
# Numbers

A number is an integer, a fraction or a double. Integers and fractions are exact, and
`Number.toRat?` is the rational that an exact number denotes. Numbers are compared in three ways:
by representation (`same`), by value up to a tolerance (`isNear`), and by a total order of values
(`compare`).
-/

namespace SchoolAlgebra

/-- An exact integer, an exact fraction, or a double. -/
inductive Number where
  | integer (value : Int64)
  | fraction (value : Fraction)
  | float (value : Float)
deriving DecidableEq

namespace Number

/-- The rational that an exact number denotes. -/
def toRat? : Number → Option Rat
  | integer v => some v.toInt
  | fraction f => some f.toRat
  | float _ => none

@[simp] theorem toRat?_integer (v : Int64) : (integer v).toRat? = some (v.toInt : Rat) := rfl

@[simp] theorem toRat?_fraction (f : Fraction) : (fraction f).toRat? = some f.toRat := rfl

@[simp] theorem toRat?_float (x : Float) : (float x).toRat? = none := rfl

/-- Whether the number is an integer or a fraction. -/
def isExact : Number → Bool
  | integer _ | fraction _ => true
  | float _ => false

/--
The double that stands for the number: the nearest one to an integer, and for a fraction the one
that its parts make up.
-/
def toFloat : Number → Float
  | integer v => Binary64.ofInt v.toInt
  | fraction f => f.toFloat
  | float x => x

/-- Whether the number is zero; both zeros of the doubles are. -/
def isZero : Number → Bool
  | integer v => v == 0
  | fraction f => f.isZero
  | float x => x == 0

/-- Whether the number lies below zero. -/
def isNegative : Number → Bool
  | integer v => decide (v < 0)
  | fraction f => f.isNegative
  | float x => decide (x < 0)

/-- Whether the number is the double NaN. -/
def isNaN : Number → Bool
  | float x => x.isNaN
  | _ => false

/-- The exact number of value `q`: an integer if `preferInteger` and it is one, else a fraction. -/
def ofRat? (preferInteger : Bool) (q : Rat) : Option Number :=
  match if preferInteger && q.den == 1 then Word.int64? q.num else none with
  | some v => some (integer v)
  | none => (Fraction.ofRat? q).map fraction

/-- The exact number of value `q`, or the nearest double if its parts exceed words. -/
def ofRat (preferInteger : Bool) (q : Rat) : Number :=
  (ofRat? preferInteger q).getD (float (Binary64.ofRat q))

/-- The word of which the number is the exact value. -/
def toInt64? : Number → Option Int64
  | integer v => some v
  | fraction f => if f.toRat.den = 1 then Word.int64? f.toRat.num else none
  | float _ => none

/-- A fraction of whole value becomes an integer; every other number stays. -/
def simplified (a : Number) : Number :=
  match a with
  | fraction _ => (a.toInt64?.map integer).getD a
  | _ => a

/-- Whether two numbers agree in kind and parts. Doubles agree if they compare equal. -/
def same : Number → Number → Bool
  | integer a, integer b => a == b
  | fraction a, fraction b => decide (a = b)
  | float x, float y => x == y
  | _, _ => false

/-- The tolerance for values that count as equal. -/
def tolerance : Float := 1e-5

/-- Whether the doubles of the numbers differ by less than `epsilon`. -/
def isWithin (epsilon : Float) (a b : Number) : Bool :=
  decide ((a.toFloat - b.toFloat).abs < epsilon)

/-- Whether two numbers count as equal in value. -/
def isNear (a b : Number) : Bool := isWithin tolerance a b

/-- Whether the number counts as zero. -/
def isNearZero (a : Number) : Bool := decide (a.toFloat.abs < tolerance)

/-- The order of two rationals. -/
def compareRat (p q : Rat) : Ordering :=
  Ord.compare (p.num * q.den) (q.num * p.den)

/--
The order of two numbers: by exact value if both are exact, and otherwise by the total order of
their doubles. There is one NaN, above infinity. A NaN with the sign bit, which would stand below
minus infinity, is not represented.
-/
def compare (a b : Number) : Ordering :=
  match a.toRat?, b.toRat? with
  | some p, some q => compareRat p q
  | _, _ => Binary64.totalCompare a.toFloat b.toFloat

/-- The text of the number as it stands. -/
def toText : Number → String
  | integer v => toString v.toInt
  | fraction f => f.toText
  | float x => Decimal.ofFloat x

/--
The text of the number in a formula: a fraction with a proper part is written improper and reduced,
and as its double if its numerator exceeds a word.
-/
def toInlineText (a : Number) : String :=
  match a with
  | fraction f =>
    if f.hasProperPart then
      match f.simplest? with
      | some g =>
        let ratio := s!"{g.numerator.toNat}/{g.denominator.toNat}"
        if g.isNegative then "-" ++ ratio else ratio
      | none => Decimal.ofFloat f.toFloat
    else f.toText
  | _ => a.toText

end Number

end SchoolAlgebra
