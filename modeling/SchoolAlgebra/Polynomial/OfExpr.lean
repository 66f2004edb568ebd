import SchoolAlgebra.Equation
import SchoolAlgebra.Polynomial.Division
import SchoolAlgebra.Polynomial.Power

/-!
# Polynomials of expressions

An expression has a polynomial if each of its operations has a polynomial as its result: a division
without remainder, a power with a constant exponent, a root of a constant or of a single term.
-/

namespace SchoolAlgebra

/-- The canonical polynomial of the expression. -/
def Polynomial.ofExpr? : Expr → Option Polynomial
  | .constant v => some (ofNumber v)
  | .var name => some (ofName name)
  | .add a b => do return (← ofExpr? a) + (← ofExpr? b)
  | .sub a b => do return (← ofExpr? a) - (← ofExpr? b)
  | .mul a b => do (← ofExpr? a).mul? (← ofExpr? b)
  | .div a b => do (← ofExpr? a).div? (← ofExpr? b)
  | .pow a b => do (← ofExpr? a).pow? (← ofExpr? b)
  | .neg a => do return -(← ofExpr? a)
  | .pos a => ofExpr? a
  | .group a => ofExpr? a
  | .sqrt a => do (← ofExpr? a).sqrt?

/-- The polynomial of the difference of the sides. -/
def Equation.toPolynomial? (e : Equation) : Option Polynomial := do
  return (← Polynomial.ofExpr? e.lhs) - (← Polynomial.ofExpr? e.rhs)

end SchoolAlgebra
