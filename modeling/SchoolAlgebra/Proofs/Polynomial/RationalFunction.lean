import Mathlib
import SchoolAlgebra.Proofs.CommutativeForm.Interpretation
import SchoolAlgebra.Proofs.Polynomial.ExactCoefficients
import SchoolAlgebra.Proofs.Polynomial.Identity

/-!
# Expressions as rational functions

Over the field of rational functions every expression has a value, and if its reduction is exact,
this value is the polynomial of the expression. Moving a division within a product changes which
quotients are polynomials on the way, but not the rational function. A power with a polynomial as
its base is known by its values at points without negative coordinates.

So expressions with the same commutative form have polynomials with the same terms.
-/

namespace SchoolAlgebra

open MvPolynomial (eval C X)

/-- Whether at all points without negative coordinates the value is a power of that of the base. -/
def IsPolynomialPower (base : MvPolynomial String ℚ) (exponent : ℚ)
    (value : MvPolynomial String ℚ) : Prop :=
  ∀ σ : String → ℚ, (∀ name, 0 ≤ σ name) → IsPower (eval σ base) exponent (eval σ value)

/-- The points without negative coordinates are enough to tell polynomials apart. -/
theorem IsPolynomialPower.unique {base value value' : MvPolynomial String ℚ} {exponent : ℚ}
    (h : IsPolynomialPower base exponent value) (h' : IsPolynomialPower base exponent value') :
    value = value' := by
  apply MvPolynomial.funext_set (fun _ ↦ Set.Ici (0 : ℚ)) fun _ ↦ Set.Ici_infinite 0
  intro σ hσ
  have hnonneg : ∀ name, 0 ≤ σ name := fun name ↦ hσ name (Set.mem_univ name)
  exact (h σ hnonneg).unique (h' σ hnonneg)

/-- The field of rational functions in the variables. -/
abbrev RationalFunction : Type := FractionRing (MvPolynomial String ℚ)

namespace RationalFunction

/-- The polynomial as a rational function. -/
noncomputable def ofPolynomial : MvPolynomial String ℚ →+* RationalFunction :=
  algebraMap (MvPolynomial String ℚ) RationalFunction

theorem ofPolynomial_injective : Function.Injective ofPolynomial :=
  IsFractionRing.injective (MvPolynomial String ℚ) RationalFunction

theorem ofPolynomial_C (x : ℚ) : ofPolynomial (C x) = (x : RationalFunction) :=
  map_ratCast (ofPolynomial.comp C) x

/-- Whether a rational function is a power of a polynomial with a rational as exponent. -/
def IsPowerOf (x y : RationalFunction) (value : MvPolynomial String ℚ) : Prop :=
  ∃ base, ∃ exponent : ℚ, ofPolynomial base = x ∧ (exponent : RationalFunction) = y ∧
    IsPolynomialPower base exponent value

/-- The variables, and the powers of polynomials; zero stands for all other powers. -/
noncomputable def interpretation : Interpretation RationalFunction where
  var name := ofPolynomial (X name)
  power x y :=
    haveI := Classical.propDecidable (∃ value, IsPowerOf x y value)
    if h : ∃ value, IsPowerOf x y value then ofPolynomial h.choose else 0

theorem interpretation_power {base value : MvPolynomial String ℚ} {exponent : ℚ}
    (h : IsPolynomialPower base exponent value) :
    interpretation.power (ofPolynomial base) exponent = ofPolynomial value := by
  have hexists : ∃ value, IsPowerOf (ofPolynomial base) exponent value :=
    ⟨value, base, exponent, rfl, rfl, h⟩
  have hpower : interpretation.power (ofPolynomial base) exponent =
      ofPolynomial hexists.choose := dif_pos hexists
  obtain ⟨base', exponent', hbase, hexponent, hchosen⟩ := hexists.choose_spec
  rw [ofPolynomial_injective hbase, Rat.cast_injective hexponent] at hchosen
  rw [hpower, hchosen.unique h]

end RationalFunction

open RationalFunction

/-- The expression as a rational function. -/
noncomputable def Expr.toRationalFunction (e : Expr) : RationalFunction := e.valueIn interpretation

namespace Polynomial

variable {p q : Polynomial}

theorem isPolynomialPower_of_powNumber? {exponent : Number}
    (h : p.powNumber? exponent = some q)
    (hexact : ∀ c ∈ p.powNumberCoefficients exponent, c.isExact = true) :
    IsPolynomialPower p.toMvPolynomial exponent.value q.toMvPolynomial :=
  fun _ hσ ↦ isPower_of_powNumber? h hexact fun _ _ _ _ ↦ hσ

/-- As a rational function, an expression is the polynomial to which it reduces. -/
theorem valueIn_of_ofExpr? {e : Expr} (hp : ofExpr? e = some p) (hexact : e.ReducesExactly) :
    e.valueIn interpretation = ofPolynomial p.toMvPolynomial := by
  induction e generalizing p with
  | constant v =>
    rw [← Option.some.inj hp, toMvPolynomial_ofNumber (hexact v (List.mem_singleton_self v)),
      ofPolynomial_C, Expr.valueIn]
  | var name =>
    rw [← Option.some.inj hp, toMvPolynomial_ofName]
    rfl
  | add a b iha ihb =>
    obtain ⟨q, r, hq, hr, hp, ha, hb, hsum⟩ := exists_operands hp hexact
    rw [← Option.some.inj hp, toMvPolynomial_add hsum, map_add, Expr.valueIn, iha hq ha,
      ihb hr hb]
  | sub a b iha ihb =>
    obtain ⟨q, r, hq, hr, hp, ha, hb, hdiff⟩ := exists_operands hp hexact
    rw [← Option.some.inj hp, toMvPolynomial_sub hdiff, map_sub, Expr.valueIn, iha hq ha,
      ihb hr hb]
  | mul a b iha ihb =>
    obtain ⟨q, r, hq, hr, hp, ha, hb, hprod⟩ := exists_operands hp hexact
    rw [toMvPolynomial_mul? hp hprod, map_mul, Expr.valueIn, iha hq ha, ihb hr hb]
  | div a b iha ihb =>
    obtain ⟨q, r, hq, hr, hp, ha, hb, hquot⟩ := exists_operands hp hexact
    obtain ⟨lead, hlead, _⟩ := eq_of_div? hp
    have horderly := isOrderly_isCanonical hr
    have hcoefficients :=
      hasCoefficients_of_ofExpr? Number.isClosed_true (fun _ _ ↦ trivial) hr hb
    have hdivisor : ofPolynomial r.toMvPolynomial ≠ 0 := by
      rw [ne_eq, map_eq_zero_iff _ ofPolynomial_injective]
      exact toMvPolynomial_ne_zero horderly hcoefficients hlead
    rw [Expr.valueIn, iha hq ha, ihb hr hb, div_eq_iff hdivisor, ← map_mul,
      toMvPolynomial_div? hp horderly.isAscending hquot]
  | pow a b iha ihb =>
    obtain ⟨q, r, hq, hr, hp, ha, hb, hpow⟩ := exists_operands hp hexact
    obtain ⟨c, hc, hp⟩ := Option.bind_eq_some_iff.1 hp
    rw [powCoefficients, hc] at hpow
    rw [Expr.valueIn, iha hq ha, ihb hr hb, toMvPolynomial_of_constant? hc, ofPolynomial_C]
    exact interpretation_power (isPolynomialPower_of_powNumber? hp hpow)
  | neg a iha =>
    obtain ⟨q, hq, hp, ha, hneg⟩ := exists_operand hp hexact
    rw [← Option.some.inj hp, toMvPolynomial_neg hneg, map_neg, Expr.valueIn, iha hq ha]
  | pos a iha | group a iha => exact iha hp hexact
  | sqrt a iha =>
    obtain ⟨q, hq, hp, ha, hpow⟩ := exists_operand hp hexact
    have hpower := isPolynomialPower_of_powNumber? hp hpow
    rw [Number.value_eq (Number.toRat?_fraction .half), Fraction.toRat_half] at hpower
    have hvalue := interpretation_power hpower
    rw [Rat.cast_div, Rat.cast_one, Rat.cast_ofNat] at hvalue
    rw [Expr.valueIn, iha hq ha]
    exact hvalue

/-- Expressions with the same commutative form reduce to polynomials that denote the same. -/
theorem valuedMonomials_eq_of_haveSameForm {a b : Expr} (h : a.HaveSameForm b)
    (hp : ofExpr? a = some p) (hq : ofExpr? b = some q) (ha : a.ReducesExactly)
    (hb : b.ReducesExactly) : p.valuedMonomials = q.valuedMonomials := by
  have hsame : ofPolynomial p.toMvPolynomial = ofPolynomial q.toMvPolynomial :=
    calc ofPolynomial p.toMvPolynomial = a.valueIn interpretation := (valueIn_of_ofExpr? hp ha).symm
      _ = b.valueIn interpretation := h.valueIn_eq _
      _ = ofPolynomial q.toMvPolynomial := valueIn_of_ofExpr? hq hb
  exact valuedMonomials_eq_of_toMvPolynomial_eq (isOrderly_isCanonical hp)
    (isOrderly_isCanonical hq)
    (hasCoefficients_of_ofExpr? Number.isClosed_true (fun _ _ ↦ trivial) hp ha)
    (hasCoefficients_of_ofExpr? Number.isClosed_true (fun _ _ ↦ trivial) hq hb)
    (ofPolynomial_injective hsame)

end Polynomial

end SchoolAlgebra
