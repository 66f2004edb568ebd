import SchoolAlgebra.Expr.Basic
import SchoolAlgebra.Polynomial.Arithmetic

/-!
# Texts and expressions of polynomials

Both ways of writing a polynomial go through its terms in order and put the sign of a term in front
of it, as a subtraction where it is not the first. A coefficient of one is left out before
variables.
-/

namespace SchoolAlgebra

/-- The text of a power of a variable, without the power if it is one. -/
def VariablePower.toText (f : VariablePower) : String :=
  if f.power = 1 then f.name else s!"{f.name}^{f.power.toNat}"

/-- The text of the monomial, which is empty without variables. -/
def Monomial.toText (m : Monomial) : String := String.join (m.factors.map VariablePower.toText)

/-- The text of a coefficient before variables: none for one, and parentheses around fractions. -/
def Number.toFactorText (a : Number) : String :=
  if a.toInt64? = some 1 then ""
  else
    match a with
    | .fraction f => if f.hasProperPart then "(" ++ a.toInlineText ++ ")" else a.toInlineText
    | _ => a.toInlineText

/-- The text of a term whose coefficient is not negative. -/
def Term.toText (t : Term) : String :=
  if t.monomial.toText.isEmpty then t.coefficient.toInlineText
  else t.coefficient.toFactorText ++ t.monomial.toText

namespace Polynomial

/-- The text of a term between the given signs for a negative and for any other coefficient. -/
def signedText (minus plus : String) (t : Term) : String :=
  if t.coefficient.isNegative then minus ++ t.neg.toText else plus ++ t.toText

/-- The text of the polynomial. -/
def toText (p : Polynomial) : String :=
  match p.terms with
  | [] => "0"
  | first :: others =>
    signedText "-" "" first ++ String.join (others.map (signedText " - " " + "))

end Polynomial

/-- The expression of a power of a variable, without the power if it is one. -/
def VariablePower.toExpr (f : VariablePower) : Expr :=
  if f.power = 1 then .var f.name
  else .pow (.var f.name) (.constant (.integer (.ofNat f.power.toNat)))

/-- The expression of the monomial, if it has variables. -/
def Monomial.toExpr? (m : Monomial) : Option Expr :=
  match m.factors with
  | [] => none
  | first :: others => some (others.foldl (fun e f ↦ .mul e f.toExpr) first.toExpr)

/-- The expression of the term. An exact coefficient that counts as one or minus one is left out. -/
def Term.toExpr (t : Term) : Expr :=
  match t.monomial.toExpr? with
  | none => .constant t.coefficient
  | some product =>
    if t.coefficient.isExact && t.coefficient.isNear (.integer 1) then product
    else if t.coefficient.isExact && t.coefficient.isNear (.integer (-1)) then .neg product
    else .mul (.constant t.coefficient) product

namespace Polynomial

/-- The expression with one more term. -/
def appendTerm (e : Expr) (t : Term) : Expr :=
  if t.coefficient.isNegative then .sub e t.neg.toExpr else .add e t.toExpr

/-- The expression of the polynomial. -/
def toExpr (p : Polynomial) : Expr :=
  match p.terms with
  | [] => .constant (.integer 0)
  | first :: others => others.foldl appendTerm first.toExpr

end Polynomial

end SchoolAlgebra
