import Mathlib
import SchoolAlgebra.Proofs.Answer.EquationSymmetry
import SchoolAlgebra.Proofs.Polynomial.RationalFunction

/-!
# Multiples of equations

An equation is recognised in every form that a constant factor gives it: with both sides multiplied
by a constant, with its sides exchanged, or with the same summand added to both sides. The
differences of the sides are proportional polynomials then. They have the same monomials in the same
order, so scaling one of them to the first coefficient of the other makes all coefficients equal,
and exact numbers of the same value count as equal however they are written.
-/

namespace SchoolAlgebra

open MvPolynomial (C)

open RationalFunction (ofPolynomial ofPolynomial_C ofPolynomial_injective)

namespace Equation

variable {e e' : Equation} {p q : Polynomial}

/--
Whether the sides of an equation are those of the other one, as they stand or exchanged, times a
constant other than zero and plus a common summand. The sides are compared as rational functions.
-/
def IsRescaled (e e' : Equation) : Prop :=
  ∃ (k : ℚ) (summand : RationalFunction), k ≠ 0 ∧
    ((e.lhs.toRationalFunction = ofPolynomial (C k) * e'.lhs.toRationalFunction + summand ∧
        e.rhs.toRationalFunction = ofPolynomial (C k) * e'.rhs.toRationalFunction + summand) ∨
      (e.lhs.toRationalFunction = ofPolynomial (C k) * e'.rhs.toRationalFunction + summand ∧
        e.rhs.toRationalFunction = ofPolynomial (C k) * e'.lhs.toRationalFunction + summand))

/-- As a rational function, the difference of the sides is the polynomial of the equation. -/
theorem toRationalFunction_sub_eq (hp : e.toPolynomial? = some p) (hexact : e.ReducesExactly) :
    e.lhs.toRationalFunction - e.rhs.toRationalFunction = ofPolynomial p.toMvPolynomial :=
  Polynomial.valueIn_of_ofExpr? (e := .sub e.lhs e.rhs) hp hexact

/-- The polynomials of rescaled equations are proportional. -/
theorem IsRescaled.exists_eq_C_mul (h : e.IsRescaled e') (hp : e.toPolynomial? = some p)
    (hq : e'.toPolynomial? = some q) (hexact : e.ReducesExactly) (hexact' : e'.ReducesExactly) :
    ∃ k : ℚ, k ≠ 0 ∧ p.toMvPolynomial = C k * q.toMvPolynomial := by
  have hdiff := toRationalFunction_sub_eq hp hexact
  have hdiff' := toRationalFunction_sub_eq hq hexact'
  obtain ⟨k, summand, hk, ⟨hlhs, hrhs⟩ | ⟨hlhs, hrhs⟩⟩ := h
  · refine ⟨k, hk, ofPolynomial_injective ?_⟩
    rw [map_mul, ← hdiff, ← hdiff', hlhs, hrhs]
    ring
  · refine ⟨-k, neg_ne_zero.2 hk, ofPolynomial_injective ?_⟩
    rw [map_mul, map_neg, map_neg, ← hdiff, ← hdiff', hlhs, hrhs]
    ring

end Equation

namespace Answer

variable {names : List String} {answer expected : String} {e e' : Equation} {p q : Polynomial}

/--
Every constant multiple of an equation is recognised. Two texts are read as equations whose
polynomials are reduced through exact numbers, and scaling the second polynomial to the first
coefficient of the first one is exact as well. If the first polynomial is the second one times a
rational other than zero, the first equation counts as equivalent to the second. It is such a
multiple if the sides are those of the second equation, in any order, times a constant and plus a
common summand.
-/
theorem equationIsEquivalent_of_multiple
    (h : Equation.ofText names .lenient answer = .ok e)
    (h' : Equation.ofText names .lenient expected = .ok e')
    (hp : e.toPolynomial? = some p) (hq : e'.toPolynomial? = some q) (hexact : e.ReducesExactly)
    (hexact' : e'.ReducesExactly) (hscaled : ∀ c ∈ p.multipleCoefficients q, c.isExact = true) :
    (∀ k : ℚ, k ≠ 0 → p.toMvPolynomial = C k * q.toMvPolynomial →
      equationIsEquivalent names answer expected = .ok true) ∧
    (e.IsRescaled e' → equationIsEquivalent names answer expected = .ok true) := by
  have hcompared := Equation.isComparedExactly (Equation.isLowest_of_ofText h)
    (Equation.isLowest_of_ofText h') hp hq hexact hexact' hscaled
  have horderly := Polynomial.isOrderly_isCanonical (e := .sub e.lhs e.rhs) hp
  have horderly' := Polynomial.isOrderly_isCanonical (e := .sub e'.lhs e'.rhs) hq
  have hproportional : ∀ k : ℚ, k ≠ 0 →
      p.toMvPolynomial = C k * q.toMvPolynomial →
        equationIsEquivalent names answer expected = .ok true := by
    intro k hk heq
    have hmeets := Polynomial.meets_of_eq_C_mul hk horderly horderly' hcompared.left
      hcompared.right heq
    have hmultiple : e.isEquivalent e' = true := by
      rw [Equation.isEquivalent, hp, hq]
      exact (hcompared.isMultiple_iff (.inl hmeets)).2 hmeets
    rw [equationIsEquivalent_eq_ok h h', hmultiple]
  refine ⟨hproportional, fun hrescaled ↦ ?_⟩
  obtain ⟨k, hk, heq⟩ := hrescaled.exists_eq_C_mul hp hq hexact hexact'
  exact hproportional k hk heq

/-- The equation `x/2 + 1 = y/3 + 1` is `2y = 3x` with its sides exchanged and rescaled. -/
theorem equationIsEquivalent_of_multiple_sixth : ∃ e e' p q,
    Equation.ofText ["x", "y"] .lenient "x/2 + 1 = y/3 + 1" = .ok e ∧
      Equation.ofText ["x", "y"] .lenient "2y = 3x" = .ok e' ∧
      e.toPolynomial? = some p ∧ e'.toPolynomial? = some q ∧ e.ReducesExactly ∧
      e'.ReducesExactly ∧ (∀ c ∈ p.multipleCoefficients q, c.isExact = true) ∧
      p.toMvPolynomial = C (-1 / 6) * q.toMvPolynomial ∧ e.IsRescaled e' ∧
      equationIsEquivalent ["x", "y"] "x/2 + 1 = y/3 + 1" "2y = 3x" = .ok true := by
  let e : Equation := ⟨.add (.div (.var "x") (.constant (.integer 2))) (.constant (.integer 1)),
    .add (.div (.var "y") (.constant (.integer 3))) (.constant (.integer 1))⟩
  let e' : Equation := ⟨.mul (.constant (.integer 2)) (.var "y"),
    .mul (.constant (.integer 3)) (.var "x")⟩
  let p : Polynomial := ⟨[⟨.fraction ⟨false, 0, 1, 2, by decide⟩, .ofName "x"⟩,
    ⟨.fraction ⟨true, 0, 1, 3, by decide⟩, .ofName "y"⟩]⟩
  let q : Polynomial := ⟨[⟨.integer (-3), .ofName "x"⟩, ⟨.integer 2, .ofName "y"⟩]⟩
  have h : Equation.ofText ["x", "y"] .lenient "x/2 + 1 = y/3 + 1" = .ok e := by decide +kernel
  have h' : Equation.ofText ["x", "y"] .lenient "2y = 3x" = .ok e' := by decide +kernel
  have hp : e.toPolynomial? = some p := by decide +kernel
  have hq : e'.toPolynomial? = some q := by decide +kernel
  have hexact : e.ReducesExactly := by decide +kernel
  have hexact' : e'.ReducesExactly := by decide +kernel
  have hscaled : ∀ c ∈ p.multipleCoefficients q, c.isExact = true := by decide +kernel
  have hvalue : ∀ v : Int64, (Number.integer v).value = v.toInt := fun v ↦
    Number.value_eq (Number.toRat?_integer v)
  have hrescaled : e.IsRescaled e' := by
    refine ⟨1 / 6, 1, by norm_num, .inr ⟨?_, ?_⟩⟩
    · simp [e, e', Expr.toRationalFunction, Expr.valueIn, hvalue, ofPolynomial_C]
      ring
    · simp [e, e', Expr.toRationalFunction, Expr.valueIn, hvalue, ofPolynomial_C]
      ring
  have hmultiple : p.toMvPolynomial = C (-1 / 6) * q.toMvPolynomial := by
    apply ofPolynomial_injective
    rw [map_mul, ofPolynomial_C, ← Equation.toRationalFunction_sub_eq hp hexact,
      ← Equation.toRationalFunction_sub_eq hq hexact']
    simp [e, e', Expr.toRationalFunction, Expr.valueIn, hvalue]
    ring
  have hequivalent := equationIsEquivalent_of_multiple h h' hp hq hexact hexact' hscaled
  exact ⟨e, e', p, q, h, h', hp, hq, hexact, hexact', hscaled, hmultiple, hrescaled,
    hequivalent.1 (-1 / 6) (by norm_num) hmultiple⟩

end Answer

end SchoolAlgebra
