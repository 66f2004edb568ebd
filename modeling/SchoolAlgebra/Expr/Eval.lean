import SchoolAlgebra.Expr.Basic
import SchoolAlgebra.Number.Power

/-!
# Values of expressions

An expression has a value once its variables have values. It has none if it divides by an exact
zero, or if it takes a power that is undefined over the reals for an exact base. Operands are
evaluated from left to right, and the first error is the one reported.
-/

namespace SchoolAlgebra

/-- The values of variables. -/
abbrev Environment := String → Option Number

/-- The environment in which no variable has a value. -/
def Environment.empty : Environment := fun _ ↦ none

/-- Why an expression has no value. -/
inductive EvalError where
  | divisionByZero
  | undefined
  | unbound (name : String)
deriving DecidableEq, Repr

/-- The wording of the error. -/
def EvalError.message : EvalError → String
  | .divisionByZero => "division by zero"
  | .undefined => "result is undefined over the reals"
  | .unbound name => s!"no value bound for variable `{name}`"

namespace Expr

/-- The result of an operation, or the error in its place. -/
def orError (error : EvalError) (result : Option Number) : Except EvalError Number :=
  result.elim (.error error) .ok

/-- The value of the expression. -/
def eval (env : Environment) : Expr → Except EvalError Number
  | constant v => .ok v
  | var name => orError (.unbound name) (env name)
  | add a b => do return (← a.eval env) + (← b.eval env)
  | sub a b => do return (← a.eval env) - (← b.eval env)
  | mul a b => do return (← a.eval env) * (← b.eval env)
  | div a b => do orError .divisionByZero ((← a.eval env).div? (← b.eval env))
  | pow a b => do orError .undefined ((← a.eval env).pow? (← b.eval env))
  | neg a => do return -(← a.eval env)
  | pos a => a.eval env
  | group a => a.eval env
  | sqrt a => do orError .undefined (← a.eval env).sqrt?

/-- The value of an expression without variables. -/
def evalNumeric (e : Expr) : Except EvalError Number := e.eval .empty

end Expr

end SchoolAlgebra
