import SchoolAlgebra.Number.Power
import SchoolAlgebra.Polynomial.Arithmetic

/-!
# Powers of polynomials

A constant has every power that its value has. Any other polynomial has powers with whole exponents
from zero on, those of several terms up to a limit of expansion. A single term also has powers with
fractions as exponents, provided that the exponents of its variables stay whole.
-/

namespace SchoolAlgebra.Polynomial

/-- The greatest power to which several terms are expanded. -/
def maxExpandedPower : Nat := 256

/--
The product of `result` with the power of `base`, by the binary digits of the exponent. The base is
not squared after the last digit.
-/
def powFrom? (result base : Polynomial) (n : Nat) : Option Polynomial :=
  if n = 0 then some result
  else do
    let next ← if n % 2 = 1 then result.mul? base else some result
    if n / 2 = 0 then some next
    else powFrom? next (← base.mul? base) (n / 2)
termination_by n

/-- The power of a single term with a whole exponent. -/
def powTerm? (t : Term) (n : Nat) : Option Polynomial := do
  let monomial ← t.monomial.pow? n
  let coefficient ← t.coefficient.powWhole? n
  return combine [⟨coefficient, monomial⟩]

/-- The power with a whole exponent. -/
def powWhole? (p : Polynomial) (n : Nat) : Option Polynomial :=
  match p.singleTerm? with
  | some t => powTerm? t n
  | none => if maxExpandedPower < n then none else powFrom? one p n

/-- A number other than NaN. -/
def definite? (a : Number) : Option Number := if a.isNaN then none else some a

/-- The power of a single term with a fraction as exponent, which is reduced first. -/
def rootTerm? (t : Term) (exponent : Fraction) : Option Polynomial := do
  let p ← Word.int64? exponent.toRat.num
  let q ← Word.int64? exponent.toRat.den
  let monomial ← t.monomial.root? p q
  let coefficient ← definite? (← t.coefficient.powFraction? exponent)
  return combine [⟨coefficient, monomial⟩]

/-- The power with a number as exponent. -/
def powNumber? (p : Polynomial) (exponent : Number) : Option Polynomial :=
  match p.constant? with
  | some base => do return ofNumber (← definite? (← base.pow? exponent))
  | none =>
    match exponent.toInt64?, exponent with
    | some n, _ => do p.powWhole? (← Word.uint32? (← n.toInt.toNat?)).toNat
    | none, .fraction f => do rootTerm? (← p.singleTerm?) f
    | none, _ => none

/-- The power with a constant polynomial as exponent. -/
def pow? (p exponent : Polynomial) : Option Polynomial := do
  p.powNumber? (← exponent.constant?)

/-- The square root, which is the power with exponent one half. -/
def sqrt? (p : Polynomial) : Option Polynomial := p.powNumber? (.fraction .half)

end SchoolAlgebra.Polynomial
