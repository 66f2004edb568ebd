import SchoolAlgebra.Polynomial.Basic

/-!
# Sums and products of polynomials

The results are canonical if the operands are.
-/

namespace SchoolAlgebra.Polynomial

def add (p q : Polynomial) : Polynomial := combine (p.terms ++ q.terms)

/-- The polynomial with every sign reversed. -/
def neg (p : Polynomial) : Polynomial := ⟨p.terms.map Term.neg⟩

instance : Add Polynomial := ⟨add⟩

instance : Neg Polynomial := ⟨neg⟩

def sub (p q : Polynomial) : Polynomial := p + -q

instance : Sub Polynomial := ⟨sub⟩

/-- The polynomial times a number. -/
def scale (p : Polynomial) (factor : Number) : Polynomial :=
  combine (p.terms.map (Term.scale factor))

/-- The products of each term of one list with each of the other. -/
def products? (as bs : List Term) : Option (List Term) := do
  let rows ← as.mapM fun a ↦ bs.mapM a.mul?
  return rows.flatten

/-- The product, unless a power of a product of terms exceeds 32 bits. -/
def mul? (p q : Polynomial) : Option Polynomial := (products? p.terms q.terms).map combine

end SchoolAlgebra.Polynomial
