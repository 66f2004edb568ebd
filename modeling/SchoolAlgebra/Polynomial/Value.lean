import SchoolAlgebra.Expr.Eval
import SchoolAlgebra.Polynomial.Basic

/-!
# Values of polynomials

A polynomial is evaluated term by term and each term factor by factor, in their order.
-/

namespace SchoolAlgebra

/-- The value of a power of a variable. -/
def VariablePower.eval (env : Environment) (f : VariablePower) : Except EvalError Number := do
  let value ← Expr.orError (.unbound f.name) (env f.name)
  Expr.orError .undefined (value.powWhole? f.power.toNat)

/-- The value of the term. -/
def Term.eval (env : Environment) (t : Term) : Except EvalError Number :=
  t.monomial.factors.foldlM (fun value f ↦ do return value * (← f.eval env)) t.coefficient

/-- The value of the polynomial. -/
def Polynomial.eval (env : Environment) (p : Polynomial) : Except EvalError Number :=
  p.terms.foldlM (fun total t ↦ do return total + (← t.eval env)) (.integer 0)

end SchoolAlgebra
