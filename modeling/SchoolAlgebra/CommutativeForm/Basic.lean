import SchoolAlgebra.Number.Basic

/-!
# Commutative forms

The commutative form of an expression has sums and products of any number of operands in place of
the binary operations. Differences and quotients leave a mark on their operands: an operand is
negated or inverted. Nothing is evaluated, so every constant stays as it was written.
-/

namespace SchoolAlgebra

/-- What is applied to a form as a whole: a sign, a reciprocal, both or neither. -/
structure Mark where
  negated : Bool
  inverted : Bool
deriving DecidableEq, Repr

/-- Neither a sign nor a reciprocal. -/
def Mark.plain : Mark := ⟨false, false⟩

/-- An expression up to the grouping of sums and products, with a mark on each part. -/
inductive CommutativeForm where
  | constant (mark : Mark) (value : Number)
  | var (mark : Mark) (name : String)
  | sum (mark : Mark) (operands : List CommutativeForm)
  | product (mark : Mark) (operands : List CommutativeForm)
  | power (mark : Mark) (base exponent : CommutativeForm)
  | root (mark : Mark) (argument : CommutativeForm)

namespace CommutativeForm

/-- The mark of the form. -/
def mark : CommutativeForm → Mark
  | constant m _ | var m _ | sum m _ | product m _ | power m _ _ | root m _ => m

/-- The form with another mark. -/
def withMark (m : Mark) : CommutativeForm → CommutativeForm
  | constant _ v => constant m v
  | var _ name => var m name
  | sum _ xs => sum m xs
  | product _ xs => product m xs
  | power _ a b => power m a b
  | root _ a => root m a

@[simp] theorem mark_withMark (m : Mark) (f : CommutativeForm) : (f.withMark m).mark = m := by
  cases f <;> rfl

/-- The form with its sign reversed. -/
def negate (f : CommutativeForm) : CommutativeForm :=
  f.withMark { f.mark with negated := !f.mark.negated }

/-- The form with its reciprocal taken or undone. -/
def invert (f : CommutativeForm) : CommutativeForm :=
  f.withMark { f.mark with inverted := !f.mark.inverted }

/-- The form with its sign reversed if the condition holds. -/
def negateIf (condition : Bool) (f : CommutativeForm) : CommutativeForm :=
  if condition then f.negate else f

/-- The form with its reciprocal taken or undone if the condition holds. -/
def invertIf (condition : Bool) (f : CommutativeForm) : CommutativeForm :=
  if condition then f.invert else f

/-- The form without its sign. -/
def unsigned (f : CommutativeForm) : CommutativeForm :=
  f.withMark { f.mark with negated := false }

@[simp] theorem negate_negate (f : CommutativeForm) : f.negate.negate = f := by
  cases f <;> simp [negate, withMark, mark]

@[simp] theorem invert_invert (f : CommutativeForm) : f.invert.invert = f := by
  cases f <;> simp [invert, withMark, mark]

mutual

/-- Whether two forms have the same shape, marks, names and constants. -/
def same : CommutativeForm → CommutativeForm → Bool
  | constant m v, constant n w => m == n && v.same w
  | var m x, var n y => m == n && x == y
  | sum m xs, sum n ys => m == n && sameAll xs ys
  | product m xs, product n ys => m == n && sameAll xs ys
  | power m a b, power n c d => m == n && (a.same c && b.same d)
  | root m a, root n b => m == n && a.same b
  | _, _ => false

/-- Whether two lists have the same length and the same forms at each place. -/
def sameAll : List CommutativeForm → List CommutativeForm → Bool
  | [], [] => true
  | x :: xs, y :: ys => x.same y && sameAll xs ys
  | _, _ => false

end

end CommutativeForm

end SchoolAlgebra
