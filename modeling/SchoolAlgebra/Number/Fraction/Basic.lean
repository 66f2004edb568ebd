import SchoolAlgebra.Number.Binary64
import SchoolAlgebra.Number.Word

/-!
# Mixed fractions

A fraction keeps the shape in which it was written: a sign, a whole part, a numerator and a
denominator. So `3/1`, `6/2` and `1 1/2` are three fractions, and the first two have one value.

Arithmetic is done on the values, which are rationals, and answers with the reduced mixed number of
the result. It answers `none` if a part of that mixed number is not a 64-bit word.
-/

namespace SchoolAlgebra

/-- A signed mixed number with its parts as they were written. -/
structure Fraction where
  negative : Bool
  whole : UInt64
  numerator : UInt64
  denominator : UInt64
  denominator_ne_zero : denominator ≠ 0 := by decide
deriving DecidableEq

namespace Fraction

/-- The numerator after the whole part is folded into it. -/
def improperNumerator (f : Fraction) : Nat :=
  f.whole.toNat * f.denominator.toNat + f.numerator.toNat

/-- The rational that the fraction denotes. -/
def toRat (f : Fraction) : Rat :=
  let magnitude := mkRat f.improperNumerator f.denominator.toNat
  if f.negative then -magnitude else magnitude

/-- The reduced mixed number of value `q`, unless a part of it exceeds a word. -/
def ofRat? (q : Rat) : Option Fraction :=
  if h : q.num.natAbs / q.den < UInt64.size ∧ q.den < UInt64.size then
    some
      { negative := decide (q.num < 0)
        whole := .ofNat (q.num.natAbs / q.den)
        numerator := .ofNat (q.num.natAbs % q.den)
        denominator := .ofNat q.den
        denominator_ne_zero := by
          intro hzero
          have hden := congrArg UInt64.toNat hzero
          rw [UInt64.toNat_ofNat_of_lt' h.2] at hden
          exact q.den_nz hden }
  else none

/--
The double that the parts of the fraction make up. Each part becomes the double nearest to it, the
quotient and the sum are rounded in turn, and the sign is put last. So this need not be the double
nearest to the value.
-/
def toFloat (f : Fraction) : Float :=
  let part (n : UInt64) := Binary64.ofInt n.toNat
  let magnitude := part f.whole + part f.numerator / part f.denominator
  if f.negative then -magnitude else magnitude

/-- The fraction with the given parts, if its denominator is not zero. -/
def ofParts? (negative : Bool) (whole numerator denominator : UInt64) : Option Fraction :=
  if h : denominator ≠ 0 then some ⟨negative, whole, numerator, denominator, h⟩ else none

/-- The fraction without a proper part whose whole part is `n`. -/
def ofInt64 (n : Int64) : Fraction where
  negative := decide (n < 0)
  whole := .ofNat n.toInt.natAbs
  numerator := 0
  denominator := 1

theorem natAbs_toInt_lt_size (n : Int64) : n.toInt.natAbs < UInt64.size := by
  have hlo := n.minValue_le_toInt
  have hhi := n.toInt_le
  have hmin : Int64.minValue.toInt = -9223372036854775808 := rfl
  have hmax : Int64.maxValue.toInt = 9223372036854775807 := rfl
  have hsize : UInt64.size = 18446744073709551616 := rfl
  omega

theorem natAbs_toInt_pos {d : Int64} (hd : d ≠ 0) : 0 < d.toInt.natAbs := by
  rw [Int.natAbs_pos]
  intro h
  exact hd (Int64.toInt_inj.1 h)

/-- The quotient of two words as a reduced mixed number. -/
def quotient (n d : Int64) (hd : d ≠ 0) : Fraction :=
  let g := Nat.gcd n.toInt.natAbs d.toInt.natAbs
  let numerator := n.toInt.natAbs / g
  let denominator := d.toInt.natAbs / g
  { negative := decide (n < 0) != decide (d < 0) && numerator != 0
    whole := .ofNat (numerator / denominator)
    numerator := .ofNat (numerator % denominator)
    denominator := .ofNat denominator
    denominator_ne_zero := by
      intro hzero
      have hpos := Nat.div_gcd_pos_of_pos_right n.toInt.natAbs (natAbs_toInt_pos hd)
      have hlt := Nat.lt_of_le_of_lt (Nat.div_le_self _ g) (natAbs_toInt_lt_size d)
      have hden := congrArg UInt64.toNat hzero
      rw [UInt64.toNat_ofNat_of_lt' hlt] at hden
      exact absurd hden (Nat.ne_of_gt hpos) }

/-- One half. -/
def half : Fraction where
  negative := false
  whole := 0
  numerator := 1
  denominator := 2

/-- Whether both parts are zero. -/
def isZero (f : Fraction) : Bool := f.whole == 0 && f.numerator == 0

/-- Whether the value lies below zero. -/
def isNegative (f : Fraction) : Bool := f.negative && !f.isZero

/-- Whether there is a proper part, even one of whole value. -/
def hasProperPart (f : Fraction) : Bool := f.numerator != 0

/-- The whole part as a signed word. A part of `2 ^ 63` and above wraps around. -/
def signedWhole (f : Fraction) : Int64 :=
  if f.negative then -f.whole.toInt64 else f.whole.toInt64

/-- The fraction with its whole part folded into the numerator. -/
def improper? (f : Fraction) : Option Fraction :=
  (Word.uint64? f.improperNumerator).map fun n ↦ { f with whole := 0, numerator := n }

/-- The reduced mixed number of the same value. -/
def proper? (f : Fraction) : Option Fraction := ofRat? f.toRat

/-- The reduced improper fraction of the same value. -/
def simplest? (f : Fraction) : Option Fraction := f.proper?.bind improper?

def add? (a b : Fraction) : Option Fraction := ofRat? (a.toRat + b.toRat)

def sub? (a b : Fraction) : Option Fraction := ofRat? (a.toRat - b.toRat)

def mul? (a b : Fraction) : Option Fraction := ofRat? (a.toRat * b.toRat)

/-- The quotient, unless the divisor is zero. -/
def div? (a b : Fraction) : Option Fraction :=
  if b.isZero then none else ofRat? (a.toRat / b.toRat)

/-- The same parts with the opposite sign; zero loses its sign. -/
def negated (f : Fraction) : Fraction :=
  { f with negative := !f.negative && !f.isZero }

/-- The reciprocal, unless the fraction is zero. -/
def reciprocal? (f : Fraction) : Option Fraction := div? (ofInt64 1) f

/--
The power with a whole exponent; there is no negative power of zero. Past the sixty-fourth power
in either direction a value other than zero and plus or minus one has no mixed number of words.
-/
def pow? (f : Fraction) (n : Int) : Option Fraction :=
  let q := f.toRat
  if q.num = 0 then
    if n < 0 then none else some (ofInt64 (if n = 0 then 1 else 0))
  else if q.num.natAbs = 1 ∧ q.den = 1 then
    some (ofInt64 (if q.num < 0 ∧ n % 2 ≠ 0 then -1 else 1))
  else if n.natAbs ≤ 64 then ofRat? (q ^ n)
  else none

/--
The text of the fraction. A proper part over one is added to the whole part, and a zero part is left
out. The sum is one of natural numbers and is shown in full even if it exceeds a word, where words
overflow. `Fraction.ShowsWord` leaves such fractions out.
-/
def toText (f : Fraction) : String :=
  let whole := f.whole.toNat
  let numerator := f.numerator.toNat
  let denominator := f.denominator.toNat
  let magnitude :=
    if numerator = 0 then s!"{whole}"
    else if denominator = 1 then s!"{whole + numerator}"
    else if whole = 0 then s!"{numerator}/{denominator}"
    else s!"{whole} {numerator}/{denominator}"
  if f.isNegative then "-" ++ magnitude else magnitude

end Fraction

end SchoolAlgebra
