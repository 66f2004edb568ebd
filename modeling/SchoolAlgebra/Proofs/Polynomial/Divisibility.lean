import Mathlib
import SchoolAlgebra.Proofs.Polynomial.DivisionSteps
import SchoolAlgebra.Proofs.Polynomial.RingOperations

/-!
# Divisibility

The division of polynomials with exact coefficients has a quotient exactly if there is one in the
polynomial ring. The exponents of a leading monomial are the greatest ones of its polynomial, and
those of a product add up. So as long as a factor times the divisor is left of the dividend, a step
is possible, and its term has exponents of that factor; without the term, the factor times the
divisor is the remainder. The factor never gains a degree in any variable, and therefore no power
exceeds its word on the way.
-/

namespace SchoolAlgebra

open AddMonoidAlgebra (supDegree)
open MvPolynomial (degreeOf)

/-- A canonical monomial is divided by another one if a sum of exponents says so. -/
theorem Monomial.IsCanonical.exists_div? {a b : Monomial} (ha : a.IsCanonical) {s : String →₀ ℕ}
    (h : s + b.exponents = a.exponents) : ∃ m, a.div? b = some m ∧ m.exponents = s := by
  have hsum : ∀ name, s name + b.exponent name = a.exponent name :=
    fun name ↦ DFunLike.congr_fun h name
  have hle : b.names.all (fun name ↦ decide (b.exponent name ≤ a.exponent name)) = true := by
    rw [List.all_eq_true]
    intro name _
    rw [decide_eq_true_iff, ← hsum]
    exact Nat.le_add_left _ _
  have hsome : a.div? b ≠ none := by
    rw [div?, if_pos hle, ne_eq, ofExponents?_eq_none_iff]
    rintro ⟨name, _, hsize⟩
    exact absurd (hsize.trans (Nat.sub_le _ _)) (Nat.not_le.2 (ha.exponent_lt_size name))
  obtain ⟨m, hm⟩ := Option.ne_none_iff_exists'.1 hsome
  exact ⟨m, hm, add_right_cancel ((exponents_of_div? hm).trans h.symm)⟩

namespace Polynomial

variable {p q r divisor : Polynomial} {lead divisorLead : Term} {Q : Number → Prop}
  {f : MvPolynomial String ℚ}

/-- The greatest exponents are those of the leading monomial. -/
theorem supDegree_toMvPolynomial (hp : p.IsOrderly Monomial.IsCanonical)
    (hpexact : p.HasCoefficients Q) (hlead : p.leadingTerm? = some lead) :
    supDegree toLex p.toMvPolynomial = toLex lead.monomial.exponents := by
  have hmem : lead ∈ p.terms := List.mem_of_head? hlead
  apply AddMonoidAlgebra.supDegree_eq_of_isMaxOn (hpexact.exponents_mem_support hp hmem)
  intro s hs
  obtain ⟨t, ht, hts⟩ := exists_of_mem_support hs
  rw [eq_cons_of_leadingTerm? hlead] at ht
  rw [Set.mem_ofPred_eq, ← hts]
  rcases List.mem_cons.1 ht with hself | hrest
  · rw [hself]
  · exact ((hp.monomial hmem).exponents_lt_of_compare (hp.monomial (List.mem_of_mem_tail hrest))
      (hp.compare_eq_lt_of_mem_rest hlead hrest)).le

/-- The leading monomials of a multiple and of the divisor differ by exponents of the factor. -/
theorem exists_exponents_add_eq (hp : p.IsOrderly Monomial.IsCanonical)
    (hdivisor : divisor.IsOrderly Monomial.IsCanonical) (hpexact : p.HasCoefficients Q)
    (hdexact : divisor.HasCoefficients Q) (hlead : p.leadingTerm? = some lead)
    (hdlead : divisor.leadingTerm? = some divisorLead)
    (h : f * divisor.toMvPolynomial = p.toMvPolynomial) :
    ∃ s ∈ f.support, s + divisorLead.monomial.exponents = lead.monomial.exponents := by
  have hdne := toMvPolynomial_ne_zero hdivisor hdexact hdlead
  have hfne : f ≠ 0 := by
    rintro rfl
    rw [zero_mul] at h
    exact toMvPolynomial_ne_zero hp hpexact hlead h.symm
  obtain ⟨s, hs, hsup⟩ := AddMonoidAlgebra.exists_supDegree_mem_support toLex hfne
  refine ⟨s, hs, toLex.injective ?_⟩
  have hcoefficients : f.leadingCoeff toLex * divisor.toMvPolynomial.leadingCoeff toLex ≠ 0 :=
    mul_ne_zero ((AddMonoidAlgebra.leadingCoeff_ne_zero toLex.injective).2 hfne)
      ((AddMonoidAlgebra.leadingCoeff_ne_zero toLex.injective).2 hdne)
  calc toLex (s + divisorLead.monomial.exponents) =
        supDegree toLex f + supDegree toLex divisor.toMvPolynomial := by
        rw [hsup, supDegree_toMvPolynomial hdivisor hdexact hdlead, toLex_add]
    _ = supDegree toLex (f * divisor.toMvPolynomial) :=
        (AddMonoidAlgebra.supDegree_mul toLex.injective toLex_add hcoefficients hfne hdne).symm
    _ = toLex lead.monomial.exponents := by
        rw [h, supDegree_toMvPolynomial hp hpexact hlead]

theorem degreeOf_lt_size (hp : p.IsOrderly Monomial.IsCanonical) (name : String) :
    degreeOf name p.toMvPolynomial < UInt32.size := by
  rw [MvPolynomial.degreeOf_lt_iff (by decide)]
  intro s hs
  obtain ⟨t, ht, hts⟩ := exists_of_mem_support hs
  rw [← hts]
  exact (hp.monomial ht).exponent_lt_size name

/-- Whether the degrees of two polynomials, in each variable, add up to a word. -/
def DegreesFit (f g : MvPolynomial String ℚ) : Prop :=
  ∀ name, degreeOf name f + degreeOf name g < UInt32.size

theorem degreesFit_of_mul_eq (hp : p.IsOrderly Monomial.IsCanonical)
    (hdivisor : divisor.IsOrderly Monomial.IsCanonical) (hne : divisor.toMvPolynomial ≠ 0)
    (h : f * divisor.toMvPolynomial = p.toMvPolynomial) :
    DegreesFit f divisor.toMvPolynomial := by
  intro name
  by_cases hf : f = 0
  · rw [hf, MvPolynomial.degreeOf_zero, zero_add]
    exact degreeOf_lt_size hdivisor name
  · rw [← MvPolynomial.degreeOf_mul_eq hf hne, h]
    exact degreeOf_lt_size hp name

/-- Without a term that has exponents of it, a polynomial has no greater degrees than before. -/
theorem DegreesFit.sub {g : MvPolynomial String ℚ} (hfit : DegreesFit f g) {t : Term}
    (ht : t.monomial.exponents ∈ f.support) : DegreesFit (f - t.toMvPolynomial) g := by
  intro name
  have hterm : degreeOf name t.toMvPolynomial ≤ degreeOf name f := by
    by_cases hzero : t.coefficient.value = 0
    · simp [Term.toMvPolynomial, hzero]
    · rw [Term.toMvPolynomial, MvPolynomial.degreeOf_monomial_eq _ _ hzero]
      exact MvPolynomial.monomial_le_degreeOf name ht
  have hsub := (MvPolynomial.degreeOf_sub_le name f t.toMvPolynomial).trans (max_le le_rfl hterm)
  exact (Nat.add_le_add_right hsub _).trans_lt (hfit name)

/-- A term with exponents of a factor has a product with terms of the divisor. -/
theorem exists_mul?_rest (hdivisor : divisor.IsOrderly Monomial.IsCanonical)
    (hdexact : divisor.HasCoefficients Q) (hfit : DegreesFit f divisor.toMvPolynomial) {t : Term}
    (ht : t.monomial.exponents ∈ f.support) :
    ∃ product, (combine [t]).mul? divisor.rest = some product := by
  apply Option.ne_none_iff_exists'.1
  rw [Polynomial.mul?, ne_eq, Option.map_eq_none_iff, products?_eq_none_iff]
  rintro ⟨a, ha, b, hb, hnone⟩
  obtain ⟨s, hs, hsa⟩ := exists_monomial_eq_of_mem_combine ha
  rw [← hsa, List.mem_singleton.1 hs, Monomial.mul?, Monomial.ofExponents?_eq_none_iff] at hnone
  obtain ⟨name, _, hsize⟩ := hnone
  have hterm : t.monomial.exponents name ≤ degreeOf name f :=
    MvPolynomial.monomial_le_degreeOf name ht
  have hother : b.monomial.exponents name ≤ degreeOf name divisor.toMvPolynomial :=
    MvPolynomial.monomial_le_degreeOf name
      (hdexact.exponents_mem_support hdivisor (List.mem_of_mem_tail hb))
  exact absurd (hsize.trans (Nat.add_le_add hterm hother)) (Nat.not_le.2 (hfit name))

/-! ## Steps of a division -/

theorem HasCoefficients.toRat?_ne (hpexact : p.HasCoefficients Q) {t : Term} (ht : t ∈ p.terms) :
    t.coefficient.toRat? ≠ some 0 := by
  obtain ⟨hexact, hne, _⟩ := hpexact t ht
  rw [Number.toRat?_eq_value hexact, ne_eq, Option.some.injEq]
  exact hne

/-- As long as a multiple of the divisor is left, a step is possible. -/
theorem exists_divStep? (hp : p.IsOrderly Monomial.IsCanonical)
    (hdivisor : divisor.IsOrderly Monomial.IsCanonical) (hpexact : p.HasCoefficients Q)
    (hdexact : divisor.HasCoefficients Q) (hpne : p.isZero ≠ true)
    (hdlead : divisor.leadingTerm? = some divisorLead)
    (h : f * divisor.toMvPolynomial = p.toMvPolynomial)
    (hfit : DegreesFit f divisor.toMvPolynomial) :
    ∃ step remainder, divStep? p divisor = some (step, remainder) ∧
      step.monomial.exponents ∈ f.support := by
  obtain ⟨lead, hlead⟩ := exists_leadingTerm? (mt List.isEmpty_iff.2 hpne)
  obtain ⟨s, hs, hsum⟩ := exists_exponents_add_eq hp hdivisor hpexact hdexact hlead hdlead h
  obtain ⟨m, hm, hms⟩ := (hp.monomial (List.mem_of_head? hlead)).exists_div? hsum
  have hcoefficient : lead.coefficient.div? divisorLead.coefficient ≠ none :=
    fun hnone ↦ hdexact.toRat?_ne (List.mem_of_head? hdlead) (Number.div?_eq_none_iff.1 hnone)
  obtain ⟨c, hc⟩ := Option.ne_none_iff_exists'.1 hcoefficient
  rw [← hms] at hs
  obtain ⟨product, hproduct⟩ := exists_mul?_rest (t := ⟨c, m⟩) hdivisor hdexact hfit hs
  refine ⟨⟨c, m⟩, p.rest - product, ?_, hs⟩
  simp [divStep?, Term.div?, hlead, hdlead, hm, hc, hproduct]

/--
The steps divide a multiple of the divisor. What is left stays a multiple of it, by a factor that
loses the term of each step.
-/
theorem exists_quotientTerms? {names : List String} (hnames : names.Pairwise (· < ·))
    (hp : p.IsOrderly (Monomial.IsCanonicalIn names))
    (hdivisor : divisor.IsOrderly (Monomial.IsCanonicalIn names))
    (hpexact : p.HasCoefficients fun _ ↦ True) (hdexact : divisor.HasCoefficients fun _ ↦ True)
    (hdlead : divisor.leadingTerm? = some divisorLead)
    (h : f * divisor.toMvPolynomial = p.toMvPolynomial)
    (hfit : DegreesFit f divisor.toMvPolynomial)
    (hexact : ∀ c ∈ quotientCoefficients names divisor p, c.isExact = true) :
    ∃ terms, quotientTerms? names divisor p = some terms := by
  have hdcanonical : divisor.IsOrderly Monomial.IsCanonical := hdivisor.imp fun _ hm ↦ hm.1
  fun_induction quotientTerms? names divisor p generalizing f with
  | case1 p hzero => exact ⟨[], rfl⟩
  | case2 p hzero hnone =>
    obtain ⟨step, remainder, hstep, _⟩ := exists_divStep? (hp.imp fun _ hm ↦ hm.1) hdcanonical
      hpexact hdexact hzero hdlead h hfit
    simp [hnone] at hstep
  | case3 p hzero step remainder hstep hrank ih =>
    rw [quotientCoefficients, if_neg hzero, hstep, List.forall_mem_append, if_pos hrank] at hexact
    obtain ⟨_, _, hstep', hmem⟩ := exists_divStep? (hp.imp fun _ hm ↦ hm.1) hdcanonical
      hpexact hdexact hzero hdlead h hfit
    obtain ⟨rfl, rfl⟩ := Prod.mk.inj (Option.some.inj (hstep.symm.trans hstep'))
    have hremainder : (f - step.toMvPolynomial) * divisor.toMvPolynomial =
        remainder.toMvPolynomial := by
      rw [sub_mul, h, toMvPolynomial_divStep? hstep hexact.1, add_sub_cancel_left]
    obtain ⟨rest, hrest⟩ := ih (hp.of_leaves hdivisor ⟨step, hstep⟩)
      (hpexact.divStep? Number.isClosed_true hdexact hstep hexact.1).2 hremainder
      (hfit.sub hmem) hexact.2
    exact ⟨step :: rest, by rw [hrest]; rfl⟩
  | case4 p hzero step remainder hstep hrank =>
    exact absurd (rank_lt_of_leaves hnames hp hdivisor ⟨step, hstep⟩) hrank

theorem exists_divNumber? {divisor : Number} (h : divisor.toRat? ≠ some 0) :
    ∃ q, p.divNumber? divisor = some q := by
  have hsome : (p.terms.mapM fun t : Term ↦
      (t.coefficient.div? divisor).map fun coefficient ↦ { t with coefficient }) ≠ none := by
    rw [ne_eq, mapM_eq_none_iff]
    rintro ⟨t, _, hnone⟩
    exact h (Number.div?_eq_none_iff.1 (Option.map_eq_none_iff.1 hnone))
  obtain ⟨terms, hterms⟩ := Option.ne_none_iff_exists'.1 hsome
  exact ⟨combine terms, by rw [divNumber?, hterms]; rfl⟩

/-- Every multiple of the divisor has a quotient. -/
theorem exists_div? (hp : p.IsCanonical) (hdivisor : divisor.IsCanonical)
    (hpexact : p.HasCoefficients fun _ ↦ True) (hdexact : divisor.HasCoefficients fun _ ↦ True)
    (hdlead : divisor.leadingTerm? = some divisorLead)
    (h : f * divisor.toMvPolynomial = p.toMvPolynomial)
    (hexact : ∀ c ∈ p.divCoefficients divisor, c.isExact = true) :
    ∃ q, p.div? divisor = some q := by
  by_cases hconstant : divisor.isConstant = true
  · obtain ⟨q, hq⟩ := exists_divNumber? (p := p) (hdexact.toRat?_ne (List.mem_of_head? hdlead))
    exact ⟨q, by simp [div?, hdlead, hconstant, hq]⟩
  · let names := Text.sortNames (p.names ++ divisor.names)
    rw [divCoefficients, hdlead] at hexact
    dsimp only at hexact
    rw [if_neg hconstant, List.forall_mem_append] at hexact
    obtain ⟨terms, hterms⟩ := exists_quotientTerms? (Text.pairwise_sortNames _)
      (hp.isOrderly_isCanonicalIn fun name hname ↦
        Text.mem_sortNames.2 (List.mem_append_left _ hname))
      (hdivisor.isOrderly_isCanonicalIn fun name hname ↦
        Text.mem_sortNames.2 (List.mem_append_right _ hname))
      hpexact hdexact hdlead h
      (degreesFit_of_mul_eq hp.isOrderly hdivisor.isOrderly
        (toMvPolynomial_ne_zero hdivisor.isOrderly hdexact hdlead) h) hexact.1
    exact ⟨combine terms, by simp [div?, hdlead, hconstant, hterms]⟩

/-! ## The quotient -/

theorem isLowest_of_mem_quotientTerms? {names : List String} {terms : List Term}
    (h : quotientTerms? names divisor p = some terms) : ∀ t ∈ terms, t.coefficient.IsLowest := by
  fun_induction quotientTerms? names divisor p generalizing terms with
  | case1 p hzero =>
    rw [← Option.some.inj h]
    exact fun t ht ↦ absurd ht List.not_mem_nil
  | case2 p hzero hnone => simp at h
  | case3 p hzero step remainder hstep hrank ih =>
    obtain ⟨rest, hrest, hterms⟩ := Option.map_eq_some_iff.1 h
    obtain ⟨_, _, _, _, _, hquotient, _⟩ := eq_of_divStep? hstep
    obtain ⟨_, _, _, hc, hterm⟩ := Term.eq_of_div? hquotient
    rw [← hterms, List.forall_mem_cons]
    refine ⟨?_, ih hrest⟩
    rw [hterm]
    exact Number.isLowest_of_div? hc
  | case4 p hzero step remainder hstep hrank => simp at h

/-- A quotient is a combination of terms with coefficients in lowest terms. -/
theorem exists_terms_of_div? (h : p.div? divisor = some q)
    (hexact : ∀ c ∈ p.divCoefficients divisor, c.isExact = true) :
    ∃ terms, q = combine terms ∧ (∀ c ∈ sums terms, c.isExact = true) ∧
      ∀ t ∈ terms, t.coefficient.IsLowest := by
  obtain ⟨_, _, ⟨_, hq, hcoefficients⟩ | ⟨_, terms, hterms, hq, hcoefficients⟩⟩ := eq_of_div? h
  · obtain ⟨terms, hpairs, hq, hsums⟩ := eq_of_divNumber? hq
    rw [hcoefficients, hsums] at hexact
    refine ⟨terms, hq, hexact, fun t ht ↦ ?_⟩
    obtain ⟨_, _, c, hc, hterm⟩ := exists_of_mem_forall₂ hpairs ht
    rw [hterm]
    exact Number.isLowest_of_div? hc
  · rw [hcoefficients, List.forall_mem_append] at hexact
    exact ⟨terms, hq, hexact.2, isLowest_of_mem_quotientTerms? hterms⟩

/-- The quotient of a multiple of the divisor is the canonical form of the factor. -/
theorem isFormOf_of_div? (hp : p.IsCanonical) (hdivisor : divisor.IsCanonical)
    (hdexact : divisor.HasCoefficients fun _ ↦ True)
    (h : f * divisor.toMvPolynomial = p.toMvPolynomial) (hq : p.div? divisor = some q)
    (hexact : ∀ c ∈ p.divCoefficients divisor, c.isExact = true) : IsFormOf f q := by
  obtain ⟨lead, hlead, _⟩ := eq_of_div? hq
  have hne := toMvPolynomial_ne_zero hdivisor.isOrderly hdexact hlead
  have hproduct := toMvPolynomial_div? hq hdivisor.isOrderly.isAscending hexact
  obtain ⟨terms, hterms, hsums, hlowest⟩ := exists_terms_of_div? hq hexact
  have hdenotes := denotes_combine hsums
  rw [← hterms] at hdenotes
  constructor
  · exact hp.div? hdivisor hq
  · exact ⟨hdenotes.isExact, mul_right_cancel₀ hne (hproduct.trans h.symm)⟩
  · rw [hterms]
    exact isReduced_combine hsums hlowest

/-- Among exact coefficients, the division decides divisibility and finds the quotient. -/
theorem exists_isFormOf_div? (hp : p.IsCanonical) (hdivisor : divisor.IsCanonical)
    (hpexact : ∀ t ∈ p.terms, t.coefficient.isExact = true)
    (hdexact : ∀ t ∈ divisor.terms, t.coefficient.isExact = true) (hne : divisor.terms ≠ [])
    (hexact : ∀ c ∈ p.divCoefficients divisor, c.isExact = true)
    (h : f * divisor.toMvPolynomial = p.toMvPolynomial) :
    ∃ q, p.div? divisor = some q ∧ IsFormOf f q := by
  obtain ⟨lead, hlead⟩ := exists_leadingTerm? hne
  have hdcoefficients := hdivisor.hasCoefficients hdexact
  obtain ⟨q, hq⟩ := exists_div? hp hdivisor (hp.hasCoefficients hpexact) hdcoefficients hlead h
    hexact
  exact ⟨q, hq, isFormOf_of_div? hp hdivisor hdcoefficients h hq hexact⟩

/--
The division of canonical polynomials with exact coefficients by one that is not zero, as long as
every coefficient that it computes is exact, has a quotient exactly if some element of the
polynomial ring times the divisor is the dividend, and the quotient is the canonical form of that
element. A product, if all of its coefficients are exact as well, divided by one factor is the other
one, up to the way in which its coefficients are written.
-/
theorem div?_isSome_iff (hp : p.IsCanonical) (hdivisor : divisor.IsCanonical)
    (hpexact : ∀ t ∈ p.terms, t.coefficient.isExact = true)
    (hdexact : ∀ t ∈ divisor.terms, t.coefficient.isExact = true) (hne : divisor.terms ≠ []) :
    ((∀ c ∈ p.divCoefficients divisor, c.isExact = true) →
      ((p.div? divisor).isSome = true ↔
        ∃ f, f * divisor.toMvPolynomial = p.toMvPolynomial) ∧
      ∀ q f, p.div? divisor = some q → f * divisor.toMvPolynomial = p.toMvPolynomial →
        IsFormOf f q) ∧
    ∀ r, p.mul? divisor = some r → (∀ c ∈ p.mulCoefficients divisor, c.isExact = true) →
      (∀ c ∈ r.divCoefficients divisor, c.isExact = true) →
      ∃ q, r.div? divisor = some q ∧ IsFormOf p.toMvPolynomial q ∧
        q.terms.map (·.monomial) = p.terms.map (·.monomial) ∧
        q.terms.map (·.coefficient.toRat?) = p.terms.map (·.coefficient.toRat?) ∧
        ((∀ t ∈ p.terms, t.coefficient.IsReduced) → q = p) := by
  constructor
  · intro hexact
    refine ⟨⟨fun hsome ↦ ?_, ?_⟩, fun q f hq h ↦ ?_⟩
    · obtain ⟨q, hq⟩ := Option.isSome_iff_exists.1 hsome
      exact ⟨q.toMvPolynomial, toMvPolynomial_div? hq hdivisor.isOrderly.isAscending hexact⟩
    · rintro ⟨f, h⟩
      obtain ⟨q, hq, _⟩ := exists_isFormOf_div? hp hdivisor hpexact hdexact hne hexact h
      rw [hq, Option.isSome_some]
    · exact isFormOf_of_div? hp hdivisor (hdivisor.hasCoefficients hdexact) h hq hexact
  · intro r hr hmul hexact
    have hproduct := denotes_of_mul? hr hmul
    obtain ⟨q, hq, hform⟩ := exists_isFormOf_div? (hp.mul? hdivisor hr) hdivisor
      hproduct.isExact hdexact hne hexact hproduct.toMvPolynomial_eq.symm
    obtain ⟨hmonomials, hvalues⟩ := hform.isCanonical.map_eq_of_denotes hp hform.denotes
      ⟨hpexact, rfl⟩
    exact ⟨q, hq, hform, hmonomials, hvalues,
      fun hreduced ↦ hform.unique ⟨hp, ⟨hpexact, rfl⟩, hreduced⟩⟩

/--
The polynomial `x + 1/2 * y` times anything is never `x - 1/2 * y`. Times `x - 1/2 * y` it is
`x ^ 2 - 1/4 * y ^ 2`, and divided out again it leaves the other factor.
-/
theorem div?_isSome_iff_of_conjugates :
    ∃ p divisor r : Polynomial,
      p.terms = [⟨.integer 1, .ofName "x"⟩, ⟨.fraction ⟨true, 0, 1, 2, by decide⟩, .ofName "y"⟩] ∧
      divisor.terms =
        [⟨.integer 1, .ofName "x"⟩, ⟨.fraction ⟨false, 0, 1, 2, by decide⟩, .ofName "y"⟩] ∧
      r.terms = [⟨.integer 1, ⟨[⟨"x", 2⟩]⟩⟩,
        ⟨.fraction ⟨true, 0, 1, 4, by decide⟩, ⟨[⟨"y", 2⟩]⟩⟩] ∧
      p.IsCanonical ∧ divisor.IsCanonical ∧ divisor.terms ≠ [] ∧
      (¬∃ f, f * divisor.toMvPolynomial = p.toMvPolynomial) ∧
      p.mul? divisor = some r ∧ r.div? divisor = some p := by
  let p : Polynomial :=
    ⟨[⟨.integer 1, .ofName "x"⟩, ⟨.fraction ⟨true, 0, 1, 2, by decide⟩, .ofName "y"⟩]⟩
  let divisor : Polynomial :=
    ⟨[⟨.integer 1, .ofName "x"⟩, ⟨.fraction ⟨false, 0, 1, 2, by decide⟩, .ofName "y"⟩]⟩
  let r : Polynomial := ⟨[⟨.integer 1, ⟨[⟨"x", 2⟩]⟩⟩,
    ⟨.fraction ⟨true, 0, 1, 4, by decide⟩, ⟨[⟨"y", 2⟩]⟩⟩]⟩
  have hp : p.IsCanonical := isCanonical_of_ofTerms? (by decide +kernel : ofTerms? p.terms = some p)
  have hdivisor : divisor.IsCanonical :=
    isCanonical_of_ofTerms? (by decide +kernel : ofTerms? divisor.terms = some divisor)
  have hr : p.mul? divisor = some r := by decide +kernel
  have hreduced : ∀ t ∈ p.terms, t.coefficient.IsReduced := by
    rw [List.forall_mem_cons, List.forall_mem_singleton]
    exact ⟨⟨trivial, rfl⟩, ⟨⟨by decide, by decide, by decide⟩, by decide +kernel⟩⟩
  obtain ⟨hquotient, hproduct⟩ :=
    div?_isSome_iff hp hdivisor (by decide) (by decide) (List.cons_ne_nil _ _)
  obtain ⟨q, hq, _, _, _, hsame⟩ := hproduct r hr (by decide +kernel) (by decide +kernel)
  refine ⟨p, divisor, r, rfl, rfl, rfl, hp, hdivisor, List.cons_ne_nil _ _, fun hmultiple ↦ ?_, hr,
    hsame hreduced ▸ hq⟩
  have hsome := (hquotient (by decide +kernel)).1.2 hmultiple
  have hnone : p.div? divisor = none := by decide +kernel
  simp [hnone] at hsome

/--
The product of `x + 1/1099511627776 * y` and `1/3486784401 * x + 1` has a coefficient with a
denominator that exceeds a word. The double in its place is so small that the term is left out, and
what remains is no multiple of `1/3486784401 * x + 1`, although its coefficients and those of the
division are exact.
-/
theorem div?_eq_none_of_rounded_product :
    ∃ p divisor r : Polynomial,
      p.terms = [⟨.integer 1, .ofName "x"⟩,
        ⟨.fraction ⟨false, 0, 1, 1099511627776, by decide⟩, .ofName "y"⟩] ∧
      divisor.terms =
        [⟨.fraction ⟨false, 0, 1, 3486784401, by decide⟩, .ofName "x"⟩, ⟨.integer 1, .one⟩] ∧
      p.IsCanonical ∧ divisor.IsCanonical ∧
      (∀ t ∈ p.terms, t.coefficient.isExact = true) ∧
      (∀ t ∈ divisor.terms, t.coefficient.isExact = true) ∧
      (∀ c ∈ p.divCoefficients divisor, c.isExact = true) ∧
      p.mul? divisor = some r ∧ (∀ t ∈ r.terms, t.coefficient.isExact = true) ∧
      (∀ c ∈ r.divCoefficients divisor, c.isExact = true) ∧ r.div? divisor = none := by
  let p : Polynomial := ⟨[⟨.integer 1, .ofName "x"⟩,
    ⟨.fraction ⟨false, 0, 1, 1099511627776, by decide⟩, .ofName "y"⟩]⟩
  let divisor : Polynomial :=
    ⟨[⟨.fraction ⟨false, 0, 1, 3486784401, by decide⟩, .ofName "x"⟩, ⟨.integer 1, .one⟩]⟩
  let r : Polynomial := ⟨[⟨.fraction ⟨false, 0, 1, 3486784401, by decide⟩, ⟨[⟨"x", 2⟩]⟩⟩,
    ⟨.integer 1, .ofName "x"⟩,
    ⟨.fraction ⟨false, 0, 1, 1099511627776, by decide⟩, .ofName "y"⟩]⟩
  have hp : p.IsCanonical := isCanonical_of_ofTerms? (by decide +kernel : ofTerms? p.terms = some p)
  have hdivisor : divisor.IsCanonical :=
    isCanonical_of_ofTerms? (by decide +kernel : ofTerms? divisor.terms = some divisor)
  exact ⟨p, divisor, r, rfl, rfl, hp, hdivisor, by decide, by decide, by decide +kernel,
    by decide +kernel, by decide, by decide +kernel, by decide +kernel⟩

end Polynomial

end SchoolAlgebra
