/-!
# Rules of the notation

What a text can violate. Required rules hold in every reading, since a text that breaks one has no
clear meaning. Optional rules are matters of style and hold only in strict readings.
-/

namespace SchoolAlgebra

/-- Rules that hold in every reading. -/
inductive RequiredRule where
  | spacesBetweenNumbers
  | numberAfterVariable
  | numberAfterOperand
  | exponentOnImplicitOperand
  | unbalancedParentheses
  | hangingSquareRoot
  | missingOperand
  | subsequentBinaryOperators
  | functionCallWithoutParentheses
  | numberTooLarge
  | nestingTooDeep
  | expressionTooLong
  | equationMissingEquals
  | equationHasTooManyEquals
  | equationMissingSide
deriving DecidableEq, Repr

/-- The wording of a violation. -/
def RequiredRule.message : RequiredRule → String
  | .spacesBetweenNumbers => "two numbers are separated only by spaces"
  | .numberAfterVariable => "a number follows a variable"
  | .numberAfterOperand => "a bare number cannot be the right side of an implicit product"
  | .exponentOnImplicitOperand => "an exponent cannot follow an implicitly multiplied term"
  | .unbalancedParentheses => "unbalanced parentheses"
  | .hangingSquareRoot => "square root has no operand"
  | .missingOperand => "an operator is missing an operand"
  | .subsequentBinaryOperators => "two binary operators appear in a row"
  | .functionCallWithoutParentheses => "function name must be followed by parentheses"
  | .numberTooLarge => "number is too large"
  | .nestingTooDeep => "expression is nested too deeply"
  | .expressionTooLong => "expression is too long"
  | .equationMissingEquals => "equation has no `=`"
  | .equationHasTooManyEquals => "equation has more than one `=`"
  | .equationMissingSide => "equation side is empty"

/-- Rules of style, which hold in strict readings only. -/
inductive OptionalRule where
  | multipleRedundantParentheses
  | singleRedundantParentheses
  | redundantParenthesesForIndividualTerms
  | subsequentUnaryOperators
  | exponentIsVariableExpression
  | nestedExponents
  | exponentTooLarge
  | termDividedByZero
deriving DecidableEq, Repr

namespace OptionalRule

/-- The wording of a violation. -/
def message : OptionalRule → String
  | multipleRedundantParentheses => "parentheses are nested redundantly"
  | singleRedundantParentheses => "the whole expression is wrapped in parentheses"
  | redundantParenthesesForIndividualTerms => "a single term is wrapped in parentheses"
  | subsequentUnaryOperators => "unary operators are repeated"
  | exponentIsVariableExpression => "an exponent contains a variable"
  | nestedExponents => "chained exponents need parentheses"
  | exponentTooLarge => "exponent is too large"
  | termDividedByZero => "a term is divided by zero"

/-- The rules in the order in which violations are reported. -/
def all : List OptionalRule :=
  [multipleRedundantParentheses, singleRedundantParentheses,
    redundantParenthesesForIndividualTerms, subsequentUnaryOperators,
    exponentIsVariableExpression, nestedExponents, exponentTooLarge, termDividedByZero]

/-- No rule is left out. -/
theorem mem_all (rule : OptionalRule) : rule ∈ all := by cases rule <;> decide

end OptionalRule

/-- Why a text is not read. Offsets count bytes. -/
inductive ParseError where
  | emptyInput
  | unexpectedToken (text : String) (offset : Nat)
  | disallowedVariables (names : List String)
  | unknownFunction (name : String)
  | required (rule : RequiredRule)
  | optional (rule : OptionalRule)
deriving DecidableEq, Repr

namespace ParseError

/-- Whether a lenient reading would go on past the error. -/
def isOptional : ParseError → Bool
  | optional _ => true
  | _ => false

/-- The wording of the error. -/
def message : ParseError → String
  | emptyInput => "empty input"
  | unexpectedToken text offset => s!"unexpected token `{text}` at offset {offset}"
  | disallowedVariables names => "variables not allowed here: " ++ String.intercalate ", " names
  | unknownFunction name => s!"unknown function `{name}`"
  | required rule => rule.message
  | optional rule => rule.message ++ " (strict mode)"

end ParseError

end SchoolAlgebra
