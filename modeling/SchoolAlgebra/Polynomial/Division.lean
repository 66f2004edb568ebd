import SchoolAlgebra.Polynomial.Arithmetic

/-!
# Exact division of polynomials

By a constant, every coefficient is divided. Otherwise the leading term of the remainder is divided
by that of the divisor, which gives a term of the quotient, and its product with the divisor is
subtracted, until nothing is left or a leading term does not divide. Each such step moves the
leading monomial of the remainder on in the order of monomials, in which no chain is endless: `rank`
measures what is still ahead.
-/

namespace SchoolAlgebra.Polynomial

/-- The polynomial without its leading term. -/
def rest (p : Polynomial) : Polynomial := ⟨p.terms.tail⟩

/--
One step of the division of `p` by `divisor`, both with a leading term: the term of the quotient,
and the remainder. The leading term is taken off the remainder as a whole, whatever its coefficient
becomes by rounding.
-/
def divStep? (p divisor : Polynomial) : Option (Term × Polynomial) := do
  let step ← (← p.leadingTerm?).div? (← divisor.leadingTerm?)
  let product ← (combine [step]).mul? divisor.rest
  return (step, p.rest - product)

/-- The exponents of the leading monomial in the given names, as digits of one number. -/
def leadingRank (names : List String) (m : Monomial) : Nat :=
  names.foldl (fun n name ↦ n * UInt32.size + m.exponent name) 0

/-- The place of the leading monomial in the order of monomials, counted from the end. -/
def rank (names : List String) (p : Polynomial) : Nat :=
  match p.leadingTerm? with
  | none => 0
  | some t => leadingRank names t.monomial + 1

/-- The terms of the quotient of `p` by `divisor`, whose variables are among the names. -/
def quotientTerms? (names : List String) (divisor p : Polynomial) : Option (List Term) :=
  if p.isZero then some []
  else
    match divStep? p divisor with
    | none => none
    | some (step, remainder) =>
      if rank names remainder < rank names p then
        (quotientTerms? names divisor remainder).map (step :: ·)
      else none
termination_by rank names p

/-- The polynomial with every coefficient divided by a number. -/
def divNumber? (p : Polynomial) (divisor : Number) : Option Polynomial := do
  let terms ← p.terms.mapM fun t ↦
    (t.coefficient.div? divisor).map fun coefficient ↦ { t with coefficient }
  return combine terms

/-- The quotient, unless the divisor is zero or there is a remainder. -/
def div? (p divisor : Polynomial) : Option Polynomial := do
  let lead ← divisor.leadingTerm?
  if divisor.isConstant then p.divNumber? lead.coefficient
  else
    let names := Text.sortNames (p.names ++ divisor.names)
    (quotientTerms? names divisor p).map combine

end SchoolAlgebra.Polynomial
