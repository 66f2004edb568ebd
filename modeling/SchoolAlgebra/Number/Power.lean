import SchoolAlgebra.Number.Arithmetic
import SchoolAlgebra.Number.Root

/-!
# Powers of numbers

An exact base with an exact exponent `p / q` in lowest terms has an exact power if its `q`-th root
is a rational; otherwise the power is a double. The power is absent where it is undefined over the
reals: an even root of a negative number, or a negative power of zero. A double as base or exponent
makes the power a double, which is NaN where it is undefined.
-/

namespace SchoolAlgebra.Number

/-- The greatest order of a root that is taken exactly, and the greatest whole power of a word. -/
def maxOrder : Nat := UInt32.size - 1

/-- The power of a double with a whole exponent; beyond 32 bits the exponent is rounded first. -/
def powFloat (x : Float) (n : Int) : Float :=
  if Int32.minValue.toInt ≤ n ∧ n ≤ Int32.maxValue.toInt then Binary64.powWhole x n
  else x.pow (Binary64.ofInt n)

/-- The power of a fraction with a whole exponent, or the double in its place. -/
def powFraction (f : Fraction) (n : Int) : Number :=
  ((f.pow? n).map fraction).getD (float (f.toFloat.pow (Binary64.ofInt n)))

/-- The power with a whole exponent. -/
def powWhole? (a : Number) (n : Int) : Option Number :=
  match a with
  | integer v =>
    if 0 ≤ n then
      let exact := if n.toNat ≤ maxOrder then Word.pow? v n.toNat else none
      some ((exact.map integer).getD
        (float ((Binary64.ofInt v.toInt).pow (Binary64.ofInt n))))
    else if v = 0 then none
    else some (powFraction (.ofInt64 v) n)
  | fraction f => if n < 0 ∧ f.isZero then none else some (powFraction f n)
  | float x => some (float (powFloat x n))

/--
The power of an exact number of value `base` with the exponent `p / q` in lowest terms, where `q` is
at least two. An integer stays one if it can. The power is exact if the root is and the numerator of
the exponent is small enough for words.
-/
def powRational? (preferInteger : Bool) (base : Rat) (p : Int) (q : Nat) : Option Number :=
  if base.num < 0 ∧ q % 2 = 0 then none
  else if base.num = 0 ∧ p < 0 then none
  else
    match if q ≤ maxOrder ∧ p.natAbs ≤ 64 then Root.ofRat? q base else none with
    | some root => some (ofRat preferInteger (root ^ p))
    | none =>
      let magnitude := (Binary64.ofQuotient false base.num.natAbs base.den).pow
        (Binary64.ofInt p / Binary64.ofInt q)
      some (float (if base.num < 0 ∧ p % 2 ≠ 0 then -magnitude else magnitude))

/-- The power with a fraction as exponent, which is reduced first. -/
def powFraction? (a : Number) (exponent : Fraction) : Option Number :=
  match Word.int64? exponent.toRat.num, Word.int64? exponent.toRat.den with
  | some p, some q =>
    if q = 1 then a.powWhole? p.toInt
    else
      match a with
      | integer v => powRational? true v.toInt p.toInt q.toInt.toNat
      | fraction f => powRational? false f.toRat p.toInt q.toInt.toNat
      | float x => some (float (x.pow (Binary64.ofInt p.toInt / Binary64.ofInt q.toInt)))
  | _, _ => some (float (a.toFloat.pow exponent.toFloat))

/-- The power, unless it is undefined over the reals for an exact base and an exact exponent. -/
def pow? (a exponent : Number) : Option Number :=
  match exponent with
  | integer n => a.powWhole? n.toInt
  | fraction f => a.powFraction? f
  | float x => some (float (a.toFloat.pow x))

/-- The square root, which is the power with exponent one half. -/
def sqrt? (a : Number) : Option Number := a.pow? (fraction .half)

end SchoolAlgebra.Number
