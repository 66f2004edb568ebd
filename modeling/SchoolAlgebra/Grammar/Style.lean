import SchoolAlgebra.Expr.Eval
import SchoolAlgebra.Grammar.Rule

/-!
# Style

Constructs that have a clear meaning and are discouraged all the same. A strict reading refuses an
expression that holds one of them.
-/

namespace SchoolAlgebra

/-- The greatest exponent that strict readings accept. -/
def maxStrictExponent : Float := 5

namespace Expr

/-- Whether the expression is in parentheses. -/
def isGroup : Expr → Bool
  | group _ => true
  | _ => false

/-- Whether the expression has a sign in front. -/
def isSigned : Expr → Bool
  | neg _ | pos _ => true
  | _ => false

/-- Whether the expression is a power under any number of signs. -/
def isBarePower : Expr → Bool
  | pow _ _ => true
  | neg e | pos e => e.isBarePower
  | _ => false

/-- Whether the expression is free of variables and its value satisfies the condition. -/
def hasValue (condition : Number → Bool) (e : Expr) : Bool :=
  e.isNumeric &&
    match e.evalNumeric with
    | .ok v => condition v
    | .error _ => false

/-- The exponent, if the expression is a power. -/
def exponent? : Expr → Option Expr
  | pow _ exponent => some exponent
  | _ => none

/-- The divisor, if the expression is a quotient. -/
def divisor? : Expr → Option Expr
  | div _ divisor => some divisor
  | _ => none

/-- The inner expression, if the expression is in parentheses. -/
def inner? : Expr → Option Expr
  | group e => some e
  | _ => none

/-- The operand, if the expression has a sign in front. -/
def operand? : Expr → Option Expr
  | neg e | pos e => some e
  | _ => none

end Expr

namespace OptionalRule

/-- Whether the part of an expression at hand breaks the rule, which is not about whole ones. -/
def isBrokenAt : OptionalRule → Expr → Bool
  | multipleRedundantParentheses, e => (e.inner?.map Expr.isGroup).getD false
  | singleRedundantParentheses, _ => false
  | redundantParenthesesForIndividualTerms, e =>
    (e.inner?.map fun inner ↦ inner.asConstant?.isSome || inner.asVariable?.isSome).getD false
  | subsequentUnaryOperators, e => (e.operand?.map Expr.isSigned).getD false
  | exponentIsVariableExpression, e => (e.exponent?.map fun x ↦ !x.isNumeric).getD false
  | nestedExponents, e => (e.exponent?.map Expr.isBarePower).getD false
  | exponentTooLarge, e =>
    (e.exponent?.map (Expr.hasValue fun v ↦ decide (maxStrictExponent < v.toFloat))).getD false
  | termDividedByZero, e => (e.divisor?.map (Expr.hasValue Number.isZero)).getD false

/-- Whether the expression breaks the rule. -/
def isBroken (rule : OptionalRule) (e : Expr) : Bool :=
  match rule with
  | singleRedundantParentheses => e.isGroup
  | _ => e.subterms.any rule.isBrokenAt

end OptionalRule

/-- The first rule of style that the expression breaks. -/
def Expr.brokenRule? (e : Expr) : Option OptionalRule :=
  OptionalRule.all.find? fun rule ↦ rule.isBroken e

end SchoolAlgebra
