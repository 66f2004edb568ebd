import SchoolAlgebra.Number.Basic
import SchoolAlgebra.Text.Names

/-!
# Expressions

An expression keeps everything that its text shows: signs without effect and groups in parentheses
are nodes of their own, so that style checks and rendering see them.
-/

namespace SchoolAlgebra

/-- An expression of school algebra. -/
inductive Expr where
  | constant (value : Number)
  | var (name : String)
  | add (left right : Expr)
  | sub (left right : Expr)
  | mul (left right : Expr)
  | div (left right : Expr)
  | pow (base exponent : Expr)
  | neg (operand : Expr)
  | pos (operand : Expr)
  | group (inner : Expr)
  | sqrt (argument : Expr)
deriving DecidableEq

namespace Expr

/-- The value of a constant. -/
def asConstant? : Expr → Option Number
  | constant v => some v
  | _ => none

/-- The name of a variable. -/
def asVariable? : Expr → Option String
  | var name => some name
  | _ => none

/-- The expression inside all groups that enclose it. -/
def ungrouped : Expr → Expr
  | group e => e.ungrouped
  | e => e

/-- The expression and all its parts, each before its own parts and from left to right. -/
def subterms : Expr → List Expr
  | constant v => [constant v]
  | var name => [var name]
  | add a b => add a b :: (a.subterms ++ b.subterms)
  | sub a b => sub a b :: (a.subterms ++ b.subterms)
  | mul a b => mul a b :: (a.subterms ++ b.subterms)
  | div a b => div a b :: (a.subterms ++ b.subterms)
  | pow a b => pow a b :: (a.subterms ++ b.subterms)
  | neg a => neg a :: a.subterms
  | pos a => pos a :: a.subterms
  | group a => group a :: a.subterms
  | sqrt a => sqrt a :: a.subterms

theorem mem_subterms_self (e : Expr) : e ∈ e.subterms := by
  cases e <;> simp [subterms]

/-- The names of the variables, in ascending order and each once. -/
def names (e : Expr) : List String :=
  Text.sortNames (e.subterms.filterMap asVariable?)

/-- Whether the expression has no variables. -/
def isNumeric (e : Expr) : Bool := e.subterms.all fun part ↦ part.asVariable?.isNone

theorem isNumeric_iff {e : Expr} : e.isNumeric ↔ ∀ name, var name ∉ e.subterms := by
  simp only [isNumeric, List.all_eq_true, Option.isNone_iff_eq_none]
  constructor
  · intro h name hname
    simpa [asVariable?] using h _ hname
  · intro h part hpart
    cases part with
    | var name => exact absurd hpart (h name)
    | _ => rfl

/-- Whether two expressions have the same shape, the same names and the same constants. -/
def same : Expr → Expr → Bool
  | constant v, constant w => v.same w
  | var x, var y => x == y
  | add a b, add c d => a.same c && b.same d
  | sub a b, sub c d => a.same c && b.same d
  | mul a b, mul c d => a.same c && b.same d
  | div a b, div c d => a.same c && b.same d
  | pow a b, pow c d => a.same c && b.same d
  | neg a, neg c => a.same c
  | pos a, pos c => a.same c
  | group a, group c => a.same c
  | sqrt a, sqrt c => a.same c
  | _, _ => false

end Expr

end SchoolAlgebra
