import SchoolAlgebra.Expr.Basic

/-!
# Texts of expressions

An expression is written with the fewest parentheses that keep its shape, beside those that are
groups of its own. A part is bracketed where it binds less tightly than its place demands.
-/

namespace SchoolAlgebra

/-- How tightly a text binds, and how tightly a place demands that it bind. -/
inductive Tightness where
  | loose
  | sum
  | product
  | sign
  | power
  | atom
deriving DecidableEq, Repr

namespace Tightness

/-- The place in the order of binding, from the loosest. -/
def rank : Tightness → Nat
  | loose => 0
  | sum => 1
  | product => 2
  | sign => 3
  | power => 4
  | atom => 5

/-- The text as it stands in a place, given how tightly it binds. -/
def bracket (place own : Tightness) (body : String) : String :=
  if own.rank < place.rank then "(" ++ body ++ ")" else body

/-- How tightly the text of a constant binds. -/
def ofNumber (a : Number) : Tightness :=
  match a with
  | .fraction f => if f.hasProperPart then product else if a.isNegative then sign else atom
  | _ => if a.isNegative then sign else atom

end Tightness

namespace Expr

open Tightness in
/-- The text of the expression in a place. -/
def render (place : Tightness) : Expr → String
  | constant v => bracket place (ofNumber v) v.toInlineText
  | var name => name
  | add a b => bracket place sum (a.render sum ++ " + " ++ b.render product)
  | sub a b => bracket place sum (a.render sum ++ " - " ++ b.render product)
  | mul a b => bracket place product (a.render product ++ " * " ++ b.render sign)
  | div a b => bracket place product (a.render product ++ " / " ++ b.render sign)
  | pow a b => bracket place power (a.render atom ++ "^" ++ b.render sign)
  | neg a => bracket place sign ("-" ++ a.render sign)
  | pos a => bracket place sign ("+" ++ a.render sign)
  | group a => "(" ++ a.render loose ++ ")"
  | sqrt a => "sqrt(" ++ a.render loose ++ ")"

/-- The text of the expression. -/
def toText (e : Expr) : String := e.render .loose

end Expr

end SchoolAlgebra
