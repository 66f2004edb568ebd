import SchoolAlgebra.CommutativeForm.Order
import SchoolAlgebra.Expr.Basic

/-!
# Commutative forms of expressions

Sums and differences that follow one another, also through groups and signs, become one sum, and
likewise products and quotients one product. A sign before a sum goes to its operands, and a sign
within a product to the product as a whole. While a chain is still open its operands are kept in the
order in which they are written; closing it sorts them.
-/

namespace SchoolAlgebra

/-- A form that is closed, or the operands of a chain that is still open. -/
inductive CommutativeShape where
  | closed (form : CommutativeForm)
  | sum (operands : List CommutativeForm)
  | product (negated : Bool) (operands : List CommutativeForm)

namespace CommutativeShape

/-- The form, after closing the chain. -/
def form : CommutativeShape → CommutativeForm
  | closed f => f
  | sum fs => .sum .plain (CommutativeForm.sort fs)
  | product negated fs => .product ⟨negated, false⟩ (CommutativeForm.sort fs)

/-- The operands that a form contributes to a sum: its own, if it is a sum. -/
def summandsOf (f : CommutativeForm) : List CommutativeForm :=
  match f with
  | .sum ⟨negated, false⟩ fs => fs.map (.negateIf negated)
  | _ => [f]

/-- The operands that the shape contributes to a sum. -/
def summands : CommutativeShape → List CommutativeForm
  | sum fs => fs
  | shape => summandsOf shape.form

/-- The operands that a form without a sign contributes to a product: its own, if it is one. -/
def factorsOf (f : CommutativeForm) : List CommutativeForm :=
  match f with
  | .product m fs => fs.map (.invertIf m.inverted)
  | _ => [f.unsigned]

/-- The operands that the shape contributes to a product. -/
def factors : CommutativeShape → List CommutativeForm
  | product _ fs => fs
  | shape => factorsOf shape.form

/-- Whether the shape contributes a sign to a product. -/
def isNegated : CommutativeShape → Bool
  | closed f => f.mark.negated
  | sum _ => false
  | product negated _ => negated

/-- The sign that a shape contributes is that of its form. -/
theorem isNegated_eq (shape : CommutativeShape) : shape.isNegated = shape.form.mark.negated := by
  cases shape <;> rfl

def add (a b : CommutativeShape) : CommutativeShape := sum (a.summands ++ b.summands)

def sub (a b : CommutativeShape) : CommutativeShape :=
  sum (a.summands ++ b.summands.map .negate)

def mul (a b : CommutativeShape) : CommutativeShape :=
  product (a.isNegated ^^ b.isNegated) (a.factors ++ b.factors)

def div (a b : CommutativeShape) : CommutativeShape :=
  product (a.isNegated ^^ b.isNegated) (a.factors ++ b.factors.map .invert)

/-- The shape of the expression. -/
def ofExpr : Expr → CommutativeShape
  | .constant v => closed (.constant .plain v)
  | .var name => closed (.var .plain name)
  | .add a b => (ofExpr a).add (ofExpr b)
  | .sub a b => (ofExpr a).sub (ofExpr b)
  | .mul a b => (ofExpr a).mul (ofExpr b)
  | .div a b => (ofExpr a).div (ofExpr b)
  | .pow a b => closed (.power .plain (ofExpr a).form (ofExpr b).form)
  | .neg a => closed (ofExpr a).form.negate
  | .pos a => closed (ofExpr a).form
  | .group a => closed (ofExpr a).form
  | .sqrt a => closed (.root .plain (ofExpr a).form)

end CommutativeShape

/-- The commutative form of the expression. -/
def CommutativeForm.ofExpr (e : Expr) : CommutativeForm := (CommutativeShape.ofExpr e).form

end SchoolAlgebra
