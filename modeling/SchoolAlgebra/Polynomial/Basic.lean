import SchoolAlgebra.Number.Arithmetic
import SchoolAlgebra.Polynomial.Monomial

/-!
# Polynomials

A polynomial is a list of terms. In its canonical form the monomials are canonical and strictly
ascend, so that none occurs twice; no coefficient is negligible, and none is a fraction of whole
value. `combine` brings terms with canonical monomials into this form, and `ofTerms?` any terms.
-/

namespace SchoolAlgebra

/-- A monomial with its coefficient. -/
structure Term where
  coefficient : Number
  monomial : Monomial
deriving DecidableEq

namespace Term

/-- A term without variables. -/
def constant (value : Number) : Term := ⟨value, .one⟩

/-- Whether the term has no variables. -/
def isConstant (t : Term) : Bool := t.monomial.isOne

/-- The order of two terms: that of their monomials, and then the greater coefficient first. -/
def compare (a b : Term) : Ordering :=
  (a.monomial.compare b.monomial).then (b.coefficient.compare a.coefficient)

/-- Whether the coefficient counts as zero: an exact zero, or a double close to zero. -/
def isNegligible (t : Term) : Bool :=
  if t.coefficient.isExact then t.coefficient.isZero else t.coefficient.isNearZero

/-- The term with its coefficient simplified. -/
def simplified (t : Term) : Term := { t with coefficient := t.coefficient.simplified }

/-- The term of the opposite sign. -/
def neg (t : Term) : Term := { t with coefficient := -t.coefficient }

/-- The term times a number. -/
def scale (factor : Number) (t : Term) : Term := { t with coefficient := t.coefficient * factor }

def mul? (a b : Term) : Option Term :=
  (a.monomial.mul? b.monomial).map (Term.mk (a.coefficient * b.coefficient))

def div? (a b : Term) : Option Term := do
  let monomial ← a.monomial.div? b.monomial
  let coefficient ← a.coefficient.div? b.coefficient
  return ⟨coefficient, monomial⟩

end Term

/-- A sum of terms. The zero polynomial has none. -/
structure Polynomial where
  terms : List Term
deriving DecidableEq

namespace Polynomial

/--
Merges two ascending lists of terms. Of terms with the same monomial those of the first list come
first.
-/
def mergeAscending (as bs : List Term) : List Term :=
  match as, bs with
  | [], bs => bs
  | a :: as, [] => a :: as
  | a :: as, b :: bs =>
    if b.monomial.compare a.monomial = .lt then b :: mergeAscending (a :: as) bs
    else a :: mergeAscending as (b :: bs)
termination_by as.length + bs.length

/-- Sorts at most `2 ^ depth` terms by their monomials. -/
def sortWithin : (depth : Nat) → List Term → List Term
  | 0, terms => terms
  | depth + 1, terms =>
    mergeAscending (sortWithin depth (terms.take (1 <<< depth)))
      (sortWithin depth (terms.drop (1 <<< depth)))

/-- Sorts terms by their monomials, keeping the order of those with the same monomial. -/
def sortTerms (terms : List Term) : List Term := sortWithin (terms.length.log2 + 1) terms

theorem mergeAscending_perm (as bs : List Term) : (mergeAscending as bs).Perm (as ++ bs) := by
  fun_induction mergeAscending as bs with
  | case1 bs => exact .refl bs
  | case2 a as => simp
  | case3 a as b bs _ ih => exact (ih.cons b).trans List.perm_middle.symm
  | case4 a as b bs _ ih => exact ih.cons a

theorem sortWithin_perm (depth : Nat) (terms : List Term) :
    (sortWithin depth terms).Perm terms := by
  induction depth generalizing terms with
  | zero => exact .refl terms
  | succ depth ih =>
    have h := (mergeAscending_perm _ _).trans
      ((ih (terms.take (1 <<< depth))).append (ih (terms.drop (1 <<< depth))))
    rwa [List.take_append_drop] at h

/-- Sorting loses and adds nothing. -/
theorem sortTerms_perm (terms : List Term) : (sortTerms terms).Perm terms :=
  sortWithin_perm _ terms

/--
Adds up the coefficients of neighbouring terms with the same monomial, from left to right; `first`
stands before the terms of the list.
-/
def collectFrom (first : Term) : List Term → List Term
  | [] => [first]
  | next :: rest =>
    if first.monomial = next.monomial then
      collectFrom ⟨first.coefficient + next.coefficient, first.monomial⟩ rest
    else first :: collectFrom next rest

/-- Adds up the coefficients of neighbouring terms with the same monomial. -/
def collect : List Term → List Term
  | [] => []
  | first :: rest => collectFrom first rest

/-- The canonical polynomial of terms with canonical monomials. -/
def combine (terms : List Term) : Polynomial :=
  ⟨((collect (sortTerms terms)).filter fun t ↦ !t.isNegligible).map Term.simplified⟩

/-- The zero polynomial. -/
def zero : Polynomial := ⟨[]⟩

/-- The constant polynomial of a value. -/
def ofNumber (value : Number) : Polynomial := combine [.constant value]

/-- The constant polynomial of value one. -/
def one : Polynomial := ofNumber (.integer 1)

/-- The polynomial that is a variable. -/
def ofName (name : String) : Polynomial := combine [⟨.integer 1, .ofName name⟩]

/-- The canonical polynomial of any terms, unless a power of one of them exceeds 32 bits. -/
def ofTerms? (terms : List Term) : Option Polynomial := do
  let canonical ← terms.mapM fun t ↦
    (Monomial.ofFactors? t.monomial.factors).map (Term.mk t.coefficient)
  return combine canonical

/-- Whether there are no terms. -/
def isZero (p : Polynomial) : Bool := p.terms.isEmpty

/-- Whether no term has variables. -/
def isConstant (p : Polynomial) : Bool := p.terms.all Term.isConstant

/-- The value of a constant polynomial. -/
def constant? (p : Polynomial) : Option Number :=
  match p.terms with
  | [] => some (.integer 0)
  | [t] => if t.isConstant then some t.coefficient else none
  | _ => none

/-- The only term, if there is exactly one. -/
def singleTerm? (p : Polynomial) : Option Term :=
  match p.terms with
  | [t] => some t
  | _ => none

/-- The first term, whose monomial is the first in the order of monomials. -/
def leadingTerm? (p : Polynomial) : Option Term := p.terms.head?

/-- The greatest degree of a term, or zero if there is none. -/
def degree (p : Polynomial) : Nat := p.terms.foldr (fun t n ↦ max t.monomial.degree n) 0

/-- The names of the variables in ascending order. -/
def names (p : Polynomial) : List String := Text.sortNames (p.terms.flatMap (·.monomial.names))

/-- Whether two lists of terms have the same monomials and coefficients that count as equal. -/
def areNear : List Term → List Term → Bool
  | [], [] => true
  | a :: as, b :: bs =>
    a.monomial == b.monomial && a.coefficient.isNear b.coefficient && areNear as bs
  | _, _ => false

/-- Whether two polynomials have the same monomials and coefficients that count as equal. -/
def isNear (p q : Polynomial) : Bool := areNear p.terms q.terms

end Polynomial

end SchoolAlgebra
