import SchoolAlgebra.Expr.OfText
import SchoolAlgebra.Expr.Printer

/-!
# Equations

An equation is written as two expressions with one equals sign between them. Each side is read on
its own, the left one first.
-/

namespace SchoolAlgebra

/-- Two expressions that are stated to be equal. -/
structure Equation where
  lhs : Expr
  rhs : Expr
deriving DecidableEq

namespace Equation

/-- Whether the token is an equals sign. -/
def isEquals (token : Token) : Bool := token.kind == .equals

/-- The tokens before and after the only equals sign; neither side is empty. -/
def sides (tokens : List Token) : Except ParseError (List Token × List Token) :=
  if tokens.isEmpty then .error .emptyInput
  else
    let before := tokens.takeWhile fun token ↦ !isEquals token
    match tokens.dropWhile fun token ↦ !isEquals token with
    | [] => Grammar.violation .equationMissingEquals
    | _ :: after =>
      if after.any isEquals then Grammar.violation .equationHasTooManyEquals
      else if before.isEmpty || after.isEmpty then Grammar.violation .equationMissingSide
      else .ok (before, after)

/-- The equation that a text writes in the given variables. -/
def ofText (names : List String) (strictness : Strictness) (text : String) :
    Except ParseError Equation := do
  let (before, after) ← sides (Token.scan names text)
  let lhs ← Expr.ofTokens true strictness defaultNesting before
  let rhs ← Expr.ofTokens true strictness defaultNesting after
  return { lhs, rhs }

/-- The text of the equation. -/
def toText (e : Equation) : String := e.lhs.toText ++ " = " ++ e.rhs.toText

end Equation

end SchoolAlgebra
