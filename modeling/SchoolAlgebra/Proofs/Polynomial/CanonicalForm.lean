import Mathlib
import SchoolAlgebra.Proofs.Polynomial.Canonical
import SchoolAlgebra.Proofs.Polynomial.ExactCoefficients

/-!
# Canonical forms

A polynomial with exact coefficients denotes an element of the polynomial ring over the rationals.
What a canonical polynomial denotes determines its monomials and the values of its coefficients. If
its coefficients are reduced as well, it is the only such polynomial: the canonical form of the
element.
-/

namespace SchoolAlgebra.Polynomial

variable {p q : Polynomial} {terms : List Term} {f : MvPolynomial String ℚ}

/-- Whether all coefficients are exact and the terms add up to an element of the ring. -/
structure Denotes (p : Polynomial) (f : MvPolynomial String ℚ) : Prop where
  isExact : ∀ t ∈ p.terms, t.coefficient.isExact = true
  toMvPolynomial_eq : p.toMvPolynomial = f

theorem IsCanonical.hasCoefficients (hp : p.IsCanonical)
    (hexact : ∀ t ∈ p.terms, t.coefficient.isExact = true) :
    p.HasCoefficients fun _ ↦ True := by
  intro t ht
  refine ⟨hexact t ht, fun hzero ↦ hp.not_isExactZero t ht ?_, trivial⟩
  rw [Number.isExactZero_iff, Number.toRat?_eq_value (hexact t ht), hzero]

/-- Canonical polynomials that denote the same have the same monomials and values. -/
theorem IsCanonical.map_eq_of_denotes (hp : p.IsCanonical) (hq : q.IsCanonical)
    (hpf : p.Denotes f) (hqf : q.Denotes f) :
    p.terms.map (·.monomial) = q.terms.map (·.monomial) ∧
      p.terms.map (·.coefficient.toRat?) = q.terms.map (·.coefficient.toRat?) := by
  have hpexact := hp.hasCoefficients hpf.isExact
  have hqexact := hq.hasCoefficients hqf.isExact
  have hvalued := valuedMonomials_eq_of_toMvPolynomial_eq hp.isOrderly hq.isOrderly hpexact hqexact
    (hpf.toMvPolynomial_eq.trans hqf.toMvPolynomial_eq.symm)
  rw [map_monomial_eq, map_monomial_eq, hpexact.map_toRat?_eq, hqexact.map_toRat?_eq, hvalued]
  exact ⟨rfl, rfl⟩

theorem denotes_combine (h : ∀ c ∈ sums terms, c.isExact = true) :
    (combine terms).Denotes (sumOf terms) := by
  refine ⟨fun t ht ↦ ?_, toMvPolynomial_combine h⟩
  exact (hasCoefficients_combine Number.isClosed_true.toIsRingClosed h (fun _ _ ↦ trivial) t ht).1

/-- Whether the polynomial is the canonical form of an element of the ring. -/
structure IsFormOf (f : MvPolynomial String ℚ) (p : Polynomial) : Prop where
  isCanonical : p.IsCanonical
  denotes : p.Denotes f
  isReduced : ∀ t ∈ p.terms, t.coefficient.IsReduced

theorem eq_of_map_eq {as bs : List Term}
    (hmonomials : as.map (·.monomial) = bs.map (·.monomial))
    (hvalues : as.map (·.coefficient.toRat?) = bs.map (·.coefficient.toRat?))
    (has : ∀ t ∈ as, t.coefficient.isExact = true ∧ t.coefficient.IsReduced)
    (hbs : ∀ t ∈ bs, t.coefficient.IsReduced) : as = bs := by
  induction as generalizing bs with
  | nil => exact (List.map_eq_nil_iff.1 hmonomials.symm).symm
  | cons a as ih =>
    cases bs with
    | nil => simp at hmonomials
    | cons b bs =>
      rw [List.map_cons, List.map_cons, List.cons.injEq] at hmonomials hvalues
      rw [List.forall_mem_cons] at has hbs
      have hvalue := Number.toRat?_eq_value has.1.1
      have hcoefficient : a.coefficient = b.coefficient :=
        has.1.2.eq_of_toRat?_eq hbs.1 hvalue (hvalues.1.symm.trans hvalue)
      have hab : a = b := by
        cases a
        cases b
        rw [Term.mk.injEq]
        exact ⟨hcoefficient, hmonomials.1⟩
      rw [hab, ih hmonomials.2 hvalues.2 has.2 hbs.2]

/-- An element of the ring has one canonical form. -/
theorem IsFormOf.unique (hp : IsFormOf f p) (hq : IsFormOf f q) : p = q := by
  obtain ⟨hmonomials, hvalues⟩ := hp.isCanonical.map_eq_of_denotes hq.isCanonical hp.denotes
    hq.denotes
  have hterms := eq_of_map_eq hmonomials hvalues
    (fun t ht ↦ ⟨hp.denotes.isExact t ht, hp.isReduced t ht⟩) hq.isReduced
  cases p
  cases q
  exact congrArg Polynomial.mk hterms

theorem isReduced_combine (hexact : ∀ c ∈ sums terms, c.isExact = true)
    (h : ∀ t ∈ terms, t.coefficient.IsLowest) :
    ∀ t ∈ (combine terms).terms, t.coefficient.IsReduced := by
  have hlowest := hasCoefficients_combine Number.isClosed_isLowest.toIsRingClosed hexact h
  intro t ht
  refine ⟨hlowest.of_mem t ht, ?_⟩
  obtain ⟨s, _, hst⟩ := List.mem_map.1 ht
  rw [← hst]
  exact s.coefficient.simplified_simplified

end SchoolAlgebra.Polynomial
