import SchoolAlgebra.Number.Arithmetic

/-!
# Arithmetic faults

The strict forms of construction and division, which refuse a zero below the line with a fault
instead of answering nothing.
-/

namespace SchoolAlgebra

/-- A zero below the line. -/
inductive Fault where
  | zeroDenominator
  | zeroDivisor (dividend : Number)
deriving DecidableEq

/-- The wording of the fault. -/
def Fault.message : Fault → String
  | .zeroDenominator => "fraction denominator must be non-zero"
  | .zeroDivisor dividend => "attempted to divide " ++ dividend.toText ++ " by exact zero"

namespace Fraction

/-- The fraction with the given parts. -/
def ofParts (negative : Bool) (whole numerator denominator : UInt64) : Except Fault Fraction :=
  (ofParts? negative whole numerator denominator).elim (.error .zeroDenominator) .ok

/-- The reduced mixed number of value `n / d`. -/
def ofQuotient (n d : Int64) : Except Fault Fraction :=
  if hd : d ≠ 0 then .ok (quotient n d hd) else .error .zeroDenominator

end Fraction

def Number.div (a b : Number) : Except Fault Number :=
  (a.div? b).elim (.error (.zeroDivisor a)) .ok

end SchoolAlgebra
