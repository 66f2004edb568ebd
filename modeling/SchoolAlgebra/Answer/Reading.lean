import SchoolAlgebra.CommutativeForm.OfExpr
import SchoolAlgebra.Polynomial.OfExpr
import SchoolAlgebra.Polynomial.Printer

/-!
# Reading answers

An answer is a text that a learner writes. Answers are read leniently and nested up to the usual
depth, and so are the texts whose value, polynomial or commutative form is asked for.
-/

namespace SchoolAlgebra

/-- Why a text has no value: it is not read, or its expression has none. -/
inductive ValueError where
  | unread (error : ParseError)
  | undefined (error : EvalError)
deriving DecidableEq, Repr

/-- The wording of the error. -/
def ValueError.message : ValueError → String
  | .unread e => e.message
  | .undefined e => e.message

namespace Answer

/-- The expression of a text, under the rules of style. -/
def readStrictly (language : Language) (text : String) : Except ParseError Expr :=
  Expr.ofText language .strict defaultNesting text

/-- The expression of an answer. -/
def read (language : Language) (text : String) : Except ParseError Expr :=
  Expr.ofText language .lenient defaultNesting text

/-- The value of a text without variables. -/
def value (text : String) : Except ValueError Number := do
  let e ← (read .numeric text).mapError .unread
  e.evalNumeric.mapError .undefined

/-- The text of the value of a text without variables. -/
def valueText (text : String) : Except ValueError String := Number.toText <$> value text

/-- The polynomial of a text, if its expression has one. -/
def polynomial? (names : List String) (text : String) :
    Except ParseError (Option Polynomial) :=
  Polynomial.ofExpr? <$> read (.algebraic names) text

/-- The text of the polynomial of a text, if its expression has one. -/
def polynomialText? (names : List String) (text : String) :
    Except ParseError (Option String) :=
  Option.map Polynomial.toText <$> polynomial? names text

/-- The commutative form of a text. -/
def commutativeForm (names : List String) (text : String) :
    Except ParseError CommutativeForm :=
  CommutativeForm.ofExpr <$> read (.algebraic names) text

end Answer

end SchoolAlgebra
