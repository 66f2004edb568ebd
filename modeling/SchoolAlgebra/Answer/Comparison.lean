import SchoolAlgebra.Answer.Reading

/-!
# Comparing answers

An answer is compared with the expected one at three grades: written alike (`matchesExactly`), alike
up to the order and grouping of sums and products (`matchesUpToOrder`), and equivalent
(`isEquivalent`, `equationIsEquivalent`). The answer is read before the expected one.
-/

namespace SchoolAlgebra

namespace Expr

/-- Whether two expressions have the same commutative form. -/
def isReordered (e e' : Expr) : Bool :=
  (CommutativeForm.ofExpr e).same (CommutativeForm.ofExpr e')

/-- Whether both expressions have values and the values count as equal. -/
def hasNearValue (e e' : Expr) : Bool :=
  match e.evalNumeric, e'.evalNumeric with
  | .ok v, .ok w => v.isNear w
  | _, _ => false

/-- Whether the polynomials count as equal or, for want of one, the commutative forms are one. -/
def hasNearPolynomial (e e' : Expr) : Bool :=
  match Polynomial.ofExpr? e, Polynomial.ofExpr? e' with
  | some p, some q => p.isNear q
  | _, _ => e.isReordered e'

/-- Whether two expressions of a language are equivalent. -/
def isEquivalent (language : Language) (e e' : Expr) : Bool :=
  match language with
  | .numeric => e.hasNearValue e'
  | .algebraic _ => e.hasNearPolynomial e'

end Expr

/-- Whether the first polynomial counts as a constant multiple of the second, or both are zero. -/
def Polynomial.isMultiple (p q : Polynomial) : Bool :=
  match p.leadingTerm?, q.leadingTerm? with
  | none, none => true
  | some s, some t =>
    match s.coefficient.div? t.coefficient with
    | some k => p.isNear (q.scale k)
    | none => false
  | _, _ => false

namespace Equation

/-- Whether the sides have the same commutative forms, as they stand or exchanged. -/
def isReordered (e e' : Equation) : Bool :=
  (e.lhs.isReordered e'.lhs && e.rhs.isReordered e'.rhs) ||
    (e.lhs.isReordered e'.rhs && e.rhs.isReordered e'.lhs)

/--
Whether the differences of the sides are constant multiples of one another or, for want of a
polynomial, the sides are the same up to order.
-/
def isEquivalent (e e' : Equation) : Bool :=
  match e.toPolynomial?, e'.toPolynomial? with
  | some p, some q => p.isMultiple q
  | _, _ => e.isReordered e'

end Equation

namespace Answer

/-- Whether the answer is written like the expected one, parentheses included. -/
def matchesExactly (language : Language) (answer expected : String) : Except ParseError Bool := do
  return (← read language answer).same (← read language expected)

/-- Whether the answer is the expected one up to the order and grouping of sums and products. -/
def matchesUpToOrder (language : Language) (answer expected : String) :
    Except ParseError Bool := do
  return (← read language answer).isReordered (← read language expected)

/-- Whether the answer is equivalent to the expected one. -/
def isEquivalent (language : Language) (answer expected : String) : Except ParseError Bool := do
  return (← read language answer).isEquivalent language (← read language expected)

/-- Whether the answer is an equation equivalent to the expected one. -/
def equationIsEquivalent (names : List String) (answer expected : String) :
    Except ParseError Bool := do
  return (← Equation.ofText names .lenient answer).isEquivalent
    (← Equation.ofText names .lenient expected)

end Answer

end SchoolAlgebra
