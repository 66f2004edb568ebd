import Mathlib
import SchoolAlgebra.Proofs.Polynomial.CanonicalForm
import SchoolAlgebra.Proofs.Polynomial.MonomialOrder

/-!
# The operations of the polynomial ring

The operations on polynomials are those of the polynomial ring over the rationals, as long as no
coefficient that they compute turns into a double. A result is absent only where a power exceeds its
word: the powers of one name in a term that is brought into canonical form, or those of a common
name in two terms that are multiplied. The order in which terms and factors are given does not
matter.
-/

namespace SchoolAlgebra

open MvPolynomial (C)

namespace Monomial

variable {a b : Monomial} {factors : List VariablePower}

theorem ofFactors?_eq_none_iff :
    ofFactors? factors = none ↔ ∃ name, UInt32.size ≤ exponentIn factors name := by
  rw [ofFactors?, ofExponents?_eq_none_iff]
  constructor
  · rintro ⟨name, _, hsize⟩
    exact ⟨name, hsize⟩
  · rintro ⟨name, hsize⟩
    refine ⟨name, ?_, hsize⟩
    by_contra hname
    rw [exponentIn_eq_zero hname] at hsize
    exact absurd hsize (by decide)

/-- Canonical monomials have a product unless the powers of a common name exceed a word. -/
theorem IsCanonical.mul?_eq_none_iff (ha : a.IsCanonical) (hb : b.IsCanonical) :
    a.mul? b = none ↔ ∃ f ∈ a.factors, ∃ g ∈ b.factors,
      f.name = g.name ∧ UInt32.size ≤ f.power.toNat + g.power.toNat := by
  rw [mul?, ofExponents?_eq_none_iff]
  constructor
  · rintro ⟨name, _, hsize⟩
    have hlta := ha.exponent_lt_size name
    have hltb := hb.exponent_lt_size name
    have hnea : a.exponent name ≠ 0 := by omega
    have hneb : b.exponent name ≠ 0 := by omega
    obtain ⟨f, hf, hfname⟩ := List.mem_map.1 (mem_names_of_exponent_ne_zero hnea)
    obtain ⟨g, hg, hgname⟩ := List.mem_map.1 (mem_names_of_exponent_ne_zero hneb)
    refine ⟨f, hf, g, hg, hfname.trans hgname.symm, ?_⟩
    rwa [← ha.exponent_eq_power hf, ← hb.exponent_eq_power hg, hfname, hgname]
  · rintro ⟨f, hf, g, hg, hname, hsize⟩
    refine ⟨f.name, List.mem_append_left _ (List.mem_map_of_mem hf), ?_⟩
    rwa [ha.exponent_eq_power hf, hname, hb.exponent_eq_power hg]

theorem exponentIn_perm {as bs : List VariablePower} (h : as.Perm bs) (name : String) :
    exponentIn as name = exponentIn bs name := by
  induction h with
  | nil => rfl
  | cons f _ ih => rw [exponentIn_cons, exponentIn_cons, ih]
  | swap f g factors =>
    simp only [exponentIn_cons]
    omega
  | trans _ _ ih₁ ih₂ => exact ih₁.trans ih₂

end Monomial

theorem Term.toMvPolynomial_scale {t : Term} {factor : Number}
    (h : (t.scale factor).coefficient.isExact = true) :
    (t.scale factor).toMvPolynomial = C factor.value * t.toMvPolynomial := by
  unfold toMvPolynomial
  rw [MvPolynomial.C_mul_monomial, mul_comm, ← (Number.value_mul h).2.2]
  rfl

namespace Polynomial

variable {p q r : Polynomial} {terms : List Term}

theorem ofTerms?_eq_none_iff :
    ofTerms? terms = none ↔ ∃ t ∈ terms, ∃ name, UInt32.size ≤ t.monomial.exponent name := by
  calc ofTerms? terms = none ↔
        (terms.mapM fun t ↦
          (Monomial.ofFactors? t.monomial.factors).map (Term.mk t.coefficient)) = none := by
        simpa [ofTerms?] using Option.eq_none_iff_forall_ne_some.symm
    _ ↔ ∃ t ∈ terms, ∃ name, UInt32.size ≤ t.monomial.exponent name := by
        simp only [mapM_eq_none_iff, Option.map_eq_none_iff, Monomial.ofFactors?_eq_none_iff]
        rfl

/-- Bringing terms into canonical form keeps their sum. -/
theorem denotes_of_ofTerms? (h : ofTerms? terms = some p)
    (hexact : ∀ c ∈ ofTermsCoefficients terms, c.isExact = true) : p.Denotes (sumOf terms) := by
  obtain ⟨canonical, hpairs, hp, hcoefficients⟩ := eq_of_ofTerms? h
  rw [hcoefficients] at hexact
  have hsum : sumOf canonical = sumOf terms := by
    clear hp hcoefficients hexact h
    induction hpairs with
    | nil => rfl
    | @cons s t _ _ ht _ ih =>
      obtain ⟨m, hm, hterm⟩ := ht
      have hexponents : m.exponents = s.monomial.exponents := Monomial.exponents_of_ofFactors? hm
      have hst : t.toMvPolynomial = s.toMvPolynomial := by
        rw [hterm, Term.toMvPolynomial, Term.toMvPolynomial, hexponents]
      rw [sumOf_cons, sumOf_cons, hst, ih]
  rw [hp, ← hsum]
  exact denotes_combine hexact

theorem denotes_add (h : ∀ c ∈ p.addCoefficients q, c.isExact = true) :
    (p + q).Denotes (p.toMvPolynomial + q.toMvPolynomial) :=
  ⟨(denotes_combine h).isExact, toMvPolynomial_add h⟩

theorem denotes_neg (h : ∀ c ∈ p.negCoefficients, c.isExact = true) :
    (-p).Denotes (-p.toMvPolynomial) :=
  ⟨fun _ ht ↦ h _ (List.mem_map_of_mem ht), toMvPolynomial_neg h⟩

theorem denotes_sub (h : ∀ c ∈ p.subCoefficients q, c.isExact = true) :
    (p - q).Denotes (p.toMvPolynomial - q.toMvPolynomial) :=
  ⟨(denotes_add (List.forall_mem_append.1 h).2).isExact, toMvPolynomial_sub h⟩

theorem denotes_scale {factor : Number} (h : ∀ c ∈ p.scaleCoefficients factor, c.isExact = true) :
    (p.scale factor).Denotes (C factor.value * p.toMvPolynomial) := by
  have hterms : ∀ terms : List Term,
      (∀ t ∈ terms.map (Term.scale factor), t.coefficient.isExact = true) →
        sumOf (terms.map (Term.scale factor)) = C factor.value * sumOf terms := by
    intro terms hexact
    induction terms with
    | nil => simp
    | cons t terms ih =>
      rw [List.map_cons, List.forall_mem_cons] at hexact
      rw [List.map_cons, sumOf_cons, sumOf_cons, mul_add, Term.toMvPolynomial_scale hexact.1,
        ih hexact.2]
  rw [toMvPolynomial, ← hterms p.terms (isExact_of_sums h)]
  exact denotes_combine h

theorem products?_eq_none_iff {as bs : List Term} :
    products? as bs = none ↔ ∃ a ∈ as, ∃ b ∈ bs, a.monomial.mul? b.monomial = none := by
  calc products? as bs = none ↔ (as.mapM fun a ↦ bs.mapM a.mul?) = none := by
        simpa [products?] using Option.eq_none_iff_forall_ne_some.symm
    _ ↔ ∃ a ∈ as, ∃ b ∈ bs, a.monomial.mul? b.monomial = none := by
        simp only [mapM_eq_none_iff, Term.mul?, Option.map_eq_none_iff]

theorem IsCanonical.mul?_eq_none_iff (hp : p.IsCanonical) (hq : q.IsCanonical) :
    p.mul? q = none ↔ ∃ a ∈ p.terms, ∃ b ∈ q.terms, ∃ f ∈ a.monomial.factors,
      ∃ g ∈ b.monomial.factors, f.name = g.name ∧
        UInt32.size ≤ f.power.toNat + g.power.toNat := by
  rw [Polynomial.mul?, Option.map_eq_none_iff, products?_eq_none_iff]
  apply exists_congr
  intro a
  apply and_congr_right
  intro ha
  apply exists_congr
  intro b
  apply and_congr_right
  intro hb
  exact (hp.isOrderly.monomial ha).mul?_eq_none_iff (hq.isOrderly.monomial hb)

theorem denotes_of_mul? (h : p.mul? q = some r)
    (hexact : ∀ c ∈ p.mulCoefficients q, c.isExact = true) :
    r.Denotes (p.toMvPolynomial * q.toMvPolynomial) := by
  refine ⟨?_, toMvPolynomial_mul? h hexact⟩
  obtain ⟨terms, _, hr, hcoefficients⟩ := eq_of_mul? h
  rw [hcoefficients] at hexact
  rw [hr]
  exact (denotes_combine hexact).isExact

/-- Whether two lists hold the same terms, in any order and each with its factors in any order. -/
def IsReordering (as bs : List Term) : Prop :=
  ∃ cs, List.Forall₂ (fun a c ↦ a.coefficient = c.coefficient ∧
    a.monomial.factors.Perm c.monomial.factors) as cs ∧ cs.Perm bs

theorem IsReordering.map_eq {as bs : List Term} (h : IsReordering as bs) :
    (as.map fun t ↦ (t.coefficient, t.monomial.exponents)).Perm
      (bs.map fun t ↦ (t.coefficient, t.monomial.exponents)) := by
  obtain ⟨cs, hfactors, hperm⟩ := h
  have hsame : as.map (fun t ↦ (t.coefficient, t.monomial.exponents)) =
      cs.map fun t ↦ (t.coefficient, t.monomial.exponents) := by
    clear hperm
    induction hfactors with
    | nil => rfl
    | @cons a c _ _ hac _ ih =>
      have hexponents : a.monomial.exponents = c.monomial.exponents := by
        ext name
        exact Monomial.exponentIn_perm hac.2 name
      rw [List.map_cons, List.map_cons, hac.1, hexponents, ih]
  rw [hsame]
  exact hperm.map _

theorem IsReordering.sumOf_eq {as bs : List Term} (h : IsReordering as bs) :
    sumOf as = sumOf bs := by
  have hsum := (h.map_eq.map fun pair ↦ MvPolynomial.monomial pair.2 pair.1.value).sum_eq
  rwa [List.map_map, List.map_map] at hsum

theorem IsReordering.ofTerms?_eq_none_iff {as bs : List Term} (h : IsReordering as bs) :
    ofTerms? as = none ↔ ofTerms? bs = none := by
  have hnone : ∀ terms : List Term, ofTerms? terms = none ↔
      ∃ pair : Number × (String →₀ ℕ),
        pair ∈ terms.map (fun t ↦ (t.coefficient, t.monomial.exponents)) ∧
          ∃ name, UInt32.size ≤ pair.2 name := by
    intro terms
    rw [Polynomial.ofTerms?_eq_none_iff]
    simp
  rw [hnone, hnone]
  simp only [h.map_eq.mem_iff]

/-! ## All operations -/

/--
The operations on polynomials are those of the polynomial ring, as long as every coefficient that
they compute is exact, and a result is absent exactly where a power exceeds its word. So terms in
another order, with factors in another order, have the same canonical polynomial, up to the way in
which its coefficients are written.
-/
theorem denotes_operations (terms : List Term) (factor : Number) (hp : p.IsCanonical)
    (hq : q.IsCanonical) :
    ((ofTerms? terms = none ↔ ∃ t ∈ terms, ∃ name, UInt32.size ≤ t.monomial.exponent name) ∧
      ∀ r, ofTerms? terms = some r → (∀ c ∈ ofTermsCoefficients terms, c.isExact = true) →
        r.Denotes (sumOf terms)) ∧
    ((∀ c ∈ p.addCoefficients q, c.isExact = true) →
      (p + q).Denotes (p.toMvPolynomial + q.toMvPolynomial)) ∧
    ((∀ c ∈ p.subCoefficients q, c.isExact = true) →
      (p - q).Denotes (p.toMvPolynomial - q.toMvPolynomial)) ∧
    ((∀ c ∈ p.negCoefficients, c.isExact = true) → (-p).Denotes (-p.toMvPolynomial)) ∧
    ((∀ c ∈ p.scaleCoefficients factor, c.isExact = true) →
      (p.scale factor).Denotes (C factor.value * p.toMvPolynomial)) ∧
    ((p.mul? q = none ↔ ∃ a ∈ p.terms, ∃ b ∈ q.terms, ∃ f ∈ a.monomial.factors,
        ∃ g ∈ b.monomial.factors, f.name = g.name ∧
          UInt32.size ≤ f.power.toNat + g.power.toNat) ∧
      ∀ r, p.mul? q = some r → (∀ c ∈ p.mulCoefficients q, c.isExact = true) →
        r.Denotes (p.toMvPolynomial * q.toMvPolynomial)) ∧
    ∀ others, IsReordering terms others → (ofTerms? terms = none ↔ ofTerms? others = none) ∧
      ∀ r s, ofTerms? terms = some r → ofTerms? others = some s →
        (∀ c ∈ ofTermsCoefficients terms, c.isExact = true) →
        (∀ c ∈ ofTermsCoefficients others, c.isExact = true) →
          r.terms.map (·.monomial) = s.terms.map (·.monomial) ∧
            r.terms.map (·.coefficient.toRat?) = s.terms.map (·.coefficient.toRat?) := by
  refine ⟨⟨ofTerms?_eq_none_iff, fun r hr hexact ↦ denotes_of_ofTerms? hr hexact⟩, denotes_add,
    denotes_sub, denotes_neg, denotes_scale,
    ⟨hp.mul?_eq_none_iff hq, fun r hr hexact ↦ denotes_of_mul? hr hexact⟩,
    fun others hothers ↦ ⟨hothers.ofTerms?_eq_none_iff, fun r s hr hs hrexact hsexact ↦ ?_⟩⟩
  apply (isCanonical_of_ofTerms? hr).map_eq_of_denotes (isCanonical_of_ofTerms? hs)
    (denotes_of_ofTerms? hr hrexact)
  rw [hothers.sumOf_eq]
  exact denotes_of_ofTerms? hs hsexact

/--
The terms `3 * y * x`, `1/2 * x ^ 2` and `-3 * x * y` add up to `1/2 * x ^ 2`, in whatever order
they stand. The product of `x + 1/2` and `x - 1/2` is `x ^ 2 - 1/4`, and their sum is `2 * x`.
-/
theorem denotes_operations_square :
    ∃ (p q r s : Polynomial) (terms others : List Term),
      p.terms = [⟨.integer 1, .ofName "x"⟩, ⟨.fraction ⟨false, 0, 1, 2, by decide⟩, .one⟩] ∧
      q.terms = [⟨.integer 1, .ofName "x"⟩, ⟨.fraction ⟨true, 0, 1, 2, by decide⟩, .one⟩] ∧
      terms = [⟨.integer 3, ⟨[⟨"y", 1⟩, ⟨"x", 1⟩]⟩⟩,
        ⟨.fraction ⟨false, 0, 1, 2, by decide⟩, ⟨[⟨"x", 2⟩]⟩⟩,
        ⟨.integer (-3), ⟨[⟨"x", 1⟩, ⟨"y", 1⟩]⟩⟩] ∧
      others = [⟨.fraction ⟨false, 0, 1, 2, by decide⟩, ⟨[⟨"x", 2⟩]⟩⟩,
        ⟨.integer 3, ⟨[⟨"x", 1⟩, ⟨"y", 1⟩]⟩⟩, ⟨.integer (-3), ⟨[⟨"x", 1⟩, ⟨"y", 1⟩]⟩⟩] ∧
      p.IsCanonical ∧ q.IsCanonical ∧ ofTerms? terms = some s ∧ s.Denotes (sumOf terms) ∧
      IsReordering terms others ∧ ofTerms? others ≠ none ∧
      (p + q).Denotes (p.toMvPolynomial + q.toMvPolynomial) ∧
      p.mul? q = some r ∧ r.Denotes (p.toMvPolynomial * q.toMvPolynomial) := by
  let p : Polynomial :=
    ⟨[⟨.integer 1, .ofName "x"⟩, ⟨.fraction ⟨false, 0, 1, 2, by decide⟩, .one⟩]⟩
  let q : Polynomial :=
    ⟨[⟨.integer 1, .ofName "x"⟩, ⟨.fraction ⟨true, 0, 1, 2, by decide⟩, .one⟩]⟩
  let r : Polynomial :=
    ⟨[⟨.integer 1, ⟨[⟨"x", 2⟩]⟩⟩, ⟨.fraction ⟨true, 0, 1, 4, by decide⟩, .one⟩]⟩
  let s : Polynomial := ⟨[⟨.fraction ⟨false, 0, 1, 2, by decide⟩, ⟨[⟨"x", 2⟩]⟩⟩]⟩
  let terms : List Term := [⟨.integer 3, ⟨[⟨"y", 1⟩, ⟨"x", 1⟩]⟩⟩,
    ⟨.fraction ⟨false, 0, 1, 2, by decide⟩, ⟨[⟨"x", 2⟩]⟩⟩,
    ⟨.integer (-3), ⟨[⟨"x", 1⟩, ⟨"y", 1⟩]⟩⟩]
  let others : List Term := [⟨.fraction ⟨false, 0, 1, 2, by decide⟩, ⟨[⟨"x", 2⟩]⟩⟩,
    ⟨.integer 3, ⟨[⟨"x", 1⟩, ⟨"y", 1⟩]⟩⟩, ⟨.integer (-3), ⟨[⟨"x", 1⟩, ⟨"y", 1⟩]⟩⟩]
  have hp : p.IsCanonical := isCanonical_of_ofTerms? (by decide +kernel : ofTerms? p.terms = some p)
  have hq : q.IsCanonical := isCanonical_of_ofTerms? (by decide +kernel : ofTerms? q.terms = some q)
  have hs : ofTerms? terms = some s := by decide +kernel
  have hr : p.mul? q = some r := by decide +kernel
  have hothers : IsReordering terms others := by
    refine ⟨[⟨.integer 3, ⟨[⟨"x", 1⟩, ⟨"y", 1⟩]⟩⟩,
      ⟨.fraction ⟨false, 0, 1, 2, by decide⟩, ⟨[⟨"x", 2⟩]⟩⟩,
      ⟨.integer (-3), ⟨[⟨"x", 1⟩, ⟨"y", 1⟩]⟩⟩], ?_, .swap _ _ _⟩
    exact .cons ⟨rfl, .swap _ _ _⟩ (.cons ⟨rfl, .refl _⟩ (.cons ⟨rfl, .refl _⟩ .nil))
  obtain ⟨⟨_, hterms⟩, hadd, _, _, _, ⟨_, hmul⟩, hreordering⟩ :=
    denotes_operations terms (.integer 2) hp hq
  refine ⟨p, q, r, s, terms, others, rfl, rfl, rfl, rfl, hp, hq, hs,
    hterms s hs (by decide +kernel), hothers, fun hnone ↦ ?_, hadd (by decide +kernel), hr,
    hmul r hr (by decide +kernel)⟩
  have habsent := (hreordering others hothers).1.2 hnone
  rw [hs] at habsent
  exact absurd habsent (Option.some_ne_none s)

end Polynomial

end SchoolAlgebra
