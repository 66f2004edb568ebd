import SchoolAlgebra.Polynomial.OfExpr

/-!
# Coefficients of a reduction

The reduction of an expression to its polynomial computes coefficients on the way, some of which do
not occur in the polynomial: terms cancel, and a double close to zero is left out. The lists below
follow the operations on polynomials step by step and hold the coefficients of every result on the
way, those included that are left out of it. What is computed with a double is a double, so one that
goes into a coefficient shows there. The reduction is exact if all coefficients are.
-/

namespace SchoolAlgebra

namespace Polynomial

/-- The coefficients of combined terms, those that count as zero included. -/
def sums (terms : List Term) : List Number := (collect (sortTerms terms)).map (·.coefficient)

/-- The coefficients of any terms that are brought into canonical form. -/
def ofTermsCoefficients (terms : List Term) : List Number :=
  ((terms.mapM fun t ↦
    (Monomial.ofFactors? t.monomial.factors).map (Term.mk t.coefficient)).map sums).getD []

def addCoefficients (p q : Polynomial) : List Number := sums (p.terms ++ q.terms)

def negCoefficients (p : Polynomial) : List Number := (-p).terms.map (·.coefficient)

def subCoefficients (p q : Polynomial) : List Number :=
  q.negCoefficients ++ p.addCoefficients (-q)

def scaleCoefficients (p : Polynomial) (factor : Number) : List Number :=
  sums (p.terms.map (Term.scale factor))

def mulCoefficients (p q : Polynomial) : List Number :=
  ((products? p.terms q.terms).map sums).getD []

def divNumberCoefficients (p : Polynomial) (divisor : Number) : List Number :=
  ((p.terms.mapM fun t : Term ↦
    (t.coefficient.div? divisor).map fun coefficient ↦ { t with coefficient }).map sums).getD []

/-- The coefficients of one step of a division: the term of the quotient and the remainder. -/
def divStepCoefficients (p divisor : Polynomial) (step : Term) : List Number :=
  step.coefficient :: ((combine [step]).mulCoefficients divisor.rest ++
    (((combine [step]).mul? divisor.rest).map p.rest.subCoefficients).getD [])

/-- The coefficients of all steps of a division. -/
def quotientCoefficients (names : List String) (divisor p : Polynomial) : List Number :=
  if p.isZero then []
  else
    match divStep? p divisor with
    | none => []
    | some (step, remainder) =>
      divStepCoefficients p divisor step ++
        if rank names remainder < rank names p then quotientCoefficients names divisor remainder
        else []
termination_by rank names p

def divCoefficients (p divisor : Polynomial) : List Number :=
  match divisor.leadingTerm? with
  | none => []
  | some lead =>
    if divisor.isConstant then p.divNumberCoefficients lead.coefficient
    else
      let names := Text.sortNames (p.names ++ divisor.names)
      quotientCoefficients names divisor p ++
        ((quotientTerms? names divisor p).map sums).getD []

/-- The coefficients of the products and squares that make up a power. -/
def powFromCoefficients (result base : Polynomial) (n : Nat) : List Number :=
  if n = 0 then []
  else
    (if n % 2 = 1 then result.mulCoefficients base else []) ++
      match if n % 2 = 1 then result.mul? base else some result with
      | none => []
      | some next =>
        if n / 2 = 0 then []
        else
          base.mulCoefficients base ++
            match base.mul? base with
            | none => []
            | some square => powFromCoefficients next square (n / 2)
termination_by n

/-- The coefficient of the power of a single term, which is computed once its monomial is. -/
def powTermCoefficients (t : Term) (n : Nat) : List Number :=
  ((t.monomial.pow? n).bind fun _ ↦ t.coefficient.powWhole? n).toList

def powWholeCoefficients (p : Polynomial) (n : Nat) : List Number :=
  match p.singleTerm? with
  | some t => powTermCoefficients t n
  | none => if maxExpandedPower < n then [] else powFromCoefficients one p n

/-- The coefficient of a root of a single term, which is computed once its monomial is. -/
def rootTermCoefficients (t : Term) (exponent : Fraction) : List Number :=
  Option.toList do
    let p ← Word.int64? exponent.toRat.num
    let q ← Word.int64? exponent.toRat.den
    let _ ← t.monomial.root? p q
    t.coefficient.powFraction? exponent

def powNumberCoefficients (p : Polynomial) (exponent : Number) : List Number :=
  match p.constant? with
  | some base => (base.pow? exponent).toList
  | none =>
    match exponent.toInt64?, exponent with
    | some n, _ =>
      ((n.toInt.toNat?.bind Word.uint32?).map (p.powWholeCoefficients ·.toNat)).getD []
    | none, .fraction f => (p.singleTerm?.map (rootTermCoefficients · f)).getD []
    | none, _ => []

def powCoefficients (p exponent : Polynomial) : List Number :=
  (exponent.constant?.map p.powNumberCoefficients).getD []

end Polynomial

namespace Expr

/-- The coefficients of an operation on the polynomials of two operands, if they have some. -/
def coefficientsOf (operation : Polynomial → Polynomial → List Number) (a b : Expr) :
    List Number :=
  ((Polynomial.ofExpr? a).bind fun p ↦ (Polynomial.ofExpr? b).map (operation p)).getD []

/-- Every coefficient that the reduction of the expression to its polynomial computes. -/
def coefficients : Expr → List Number
  | constant v => [v]
  | var _ => [.integer 1]
  | add a b => a.coefficients ++ b.coefficients ++ coefficientsOf Polynomial.addCoefficients a b
  | sub a b => a.coefficients ++ b.coefficients ++ coefficientsOf Polynomial.subCoefficients a b
  | mul a b => a.coefficients ++ b.coefficients ++ coefficientsOf Polynomial.mulCoefficients a b
  | div a b => a.coefficients ++ b.coefficients ++ coefficientsOf Polynomial.divCoefficients a b
  | pow a b => a.coefficients ++ b.coefficients ++ coefficientsOf Polynomial.powCoefficients a b
  | neg a => a.coefficients ++ ((Polynomial.ofExpr? a).map (·.negCoefficients)).getD []
  | pos a => a.coefficients
  | group a => a.coefficients
  | sqrt a =>
    a.coefficients ++
      ((Polynomial.ofExpr? a).map (·.powNumberCoefficients (.fraction .half))).getD []

/-- Whether every coefficient that the reduction of the expression computes is exact. -/
abbrev ReducesExactly (e : Expr) : Prop := ∀ c ∈ e.coefficients, c.isExact = true

end Expr

end SchoolAlgebra
