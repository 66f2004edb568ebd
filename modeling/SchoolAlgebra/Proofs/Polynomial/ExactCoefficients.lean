import Mathlib
import SchoolAlgebra.Proofs.Number.LowestTerms
import SchoolAlgebra.Proofs.Polynomial.RingPower

/-!
# Coefficients of exact reductions

If all coefficients that a reduction computes are exact, then those of the polynomial are exact and
not zero, and they have every property that the operations on numbers pass on. Such a polynomial is
determined, up to the way in which its coefficients are written, by the element of the polynomial
ring that it denotes.
-/

namespace SchoolAlgebra

open MvPolynomial (C coeff)

namespace Polynomial

/-- Whether all coefficients are exact, are not zero and have a property. -/
def HasCoefficients (Q : Number → Prop) (p : Polynomial) : Prop :=
  ∀ t ∈ p.terms, t.coefficient.isExact = true ∧ t.coefficient.value ≠ 0 ∧ Q t.coefficient

variable {Q : Number → Prop} {p q r : Polynomial} {terms : List Term}

theorem HasCoefficients.of_mem (hp : p.HasCoefficients Q) : ∀ t ∈ p.terms, Q t.coefficient :=
  fun t ht ↦ (hp t ht).2.2

section ring

variable (hQ : Number.IsRingClosed Q)
include hQ

theorem of_mem_collectFrom {first : Term}
    (hexact : ∀ t ∈ collectFrom first terms, t.coefficient.isExact = true)
    (h : ∀ t ∈ first :: terms, Q t.coefficient) :
    ∀ t ∈ collectFrom first terms, Q t.coefficient := by
  fun_induction collectFrom first terms with
  | case1 first => exact h
  | case2 first next rest heq ih =>
    rw [List.forall_mem_cons, List.forall_mem_cons] at h
    have hsum := (sumOf_collectFrom hexact).1 _ List.mem_cons_self
    exact ih hexact (List.forall_mem_cons.2 ⟨hQ.add h.1 h.2.1 hsum, h.2.2⟩)
  | case3 first next rest hne ih =>
    rw [List.forall_mem_cons] at h hexact
    exact List.forall_mem_cons.2 ⟨h.1, ih hexact.2 h.2⟩

theorem of_mem_collect (hexact : ∀ t ∈ collect terms, t.coefficient.isExact = true)
    (h : ∀ t ∈ terms, Q t.coefficient) : ∀ t ∈ collect terms, Q t.coefficient := by
  cases terms with
  | nil => exact h
  | cons first rest => exact of_mem_collectFrom hQ hexact h

theorem hasCoefficients_combine (hexact : ∀ c ∈ sums terms, c.isExact = true)
    (h : ∀ t ∈ terms, Q t.coefficient) : (combine terms).HasCoefficients Q := by
  have hsums := List.forall_mem_map.1 hexact
  have hcollected := of_mem_collect hQ hsums fun t ht ↦ h t ((sortTerms_perm terms).mem_iff.1 ht)
  intro t ht
  obtain ⟨s, hs, hst⟩ := List.mem_map.1 ht
  obtain ⟨hmem, hneg⟩ := List.mem_filter.1 hs
  have hsexact := hsums s hmem
  rw [← hst]
  refine ⟨?_, fun hzero ↦ ?_, hQ.simplified (hcollected s hmem)⟩
  · rw [Number.isExact_iff] at hsexact ⊢
    rw [Term.simplified, Number.toRat?_simplified]
    exact hsexact
  · rw [Term.simplified, Number.value_simplified] at hzero
    rw [Term.isNegligible, if_pos hsexact, Bool.not_eq_true', Bool.eq_false_iff, ne_eq,
      Number.isZero_iff hsexact, Number.toRat?_eq_value hsexact] at hneg
    exact hneg (congrArg some hzero)

theorem hasCoefficients_combine_singleton {t : Term} (hexact : t.coefficient.isExact = true)
    (h : Q t.coefficient) : (combine [t]).HasCoefficients Q := by
  apply hasCoefficients_combine hQ
  · rwa [sums_singleton, List.forall_mem_singleton]
  · exact List.forall_mem_singleton.2 h

/-! ## Operations -/

theorem HasCoefficients.add (hp : p.HasCoefficients Q) (hq : q.HasCoefficients Q)
    (hexact : ∀ c ∈ p.addCoefficients q, c.isExact = true) : (p + q).HasCoefficients Q :=
  hasCoefficients_combine hQ hexact (List.forall_mem_append.2 ⟨hp.of_mem, hq.of_mem⟩)

theorem HasCoefficients.neg (hp : p.HasCoefficients Q)
    (hexact : ∀ c ∈ p.negCoefficients, c.isExact = true) : (-p).HasCoefficients Q := by
  intro t ht
  have hcoefficient := hexact _ (List.mem_map_of_mem ht)
  obtain ⟨s, hs, hst⟩ := List.mem_map.1 ht
  rw [← hst] at hcoefficient ⊢
  change (-s.coefficient).isExact = true at hcoefficient
  change (-s.coefficient).isExact = true ∧ (-s.coefficient).value ≠ 0 ∧ Q (-s.coefficient)
  obtain ⟨_, hne, hs⟩ := hp s hs
  rw [Number.value_neg hcoefficient, neg_ne_zero]
  exact ⟨hcoefficient, hne, hQ.neg hs hcoefficient⟩

theorem HasCoefficients.sub (hp : p.HasCoefficients Q) (hq : q.HasCoefficients Q)
    (hexact : ∀ c ∈ p.subCoefficients q, c.isExact = true) : (p - q).HasCoefficients Q := by
  obtain ⟨hneg, hadd⟩ := List.forall_mem_append.1 hexact
  exact hp.add hQ (hq.neg hQ hneg) hadd

theorem HasCoefficients.mul? (hp : p.HasCoefficients Q) (hq : q.HasCoefficients Q)
    (h : p.mul? q = some r) (hexact : ∀ c ∈ p.mulCoefficients q, c.isExact = true) :
    r.HasCoefficients Q := by
  obtain ⟨products, hproducts, hr, hcoefficients⟩ := eq_of_mul? h
  rw [hcoefficients] at hexact
  rw [hr]
  apply hasCoefficients_combine hQ hexact
  intro t ht
  have hcoefficient := isExact_of_sums hexact t ht
  obtain ⟨a, ha, b, hb, hproduct⟩ := exists_of_mem_products? hproducts ht
  obtain ⟨m, _, hterm⟩ := Term.eq_of_mul? hproduct
  rw [hterm] at hcoefficient ⊢
  exact hQ.mul (hp.of_mem a ha) (hq.of_mem b hb) hcoefficient

theorem HasCoefficients.powWhole? {n : ℕ} (hp : p.HasCoefficients Q) (h : p.powWhole? n = some r)
    (hexact : ∀ c ∈ p.powWholeCoefficients n, c.isExact = true) : r.HasCoefficients Q := by
  rcases eq_of_powWhole? h with ⟨t, m, c, ht, _, hc, hr, hcoefficients⟩ | ⟨hpow, hcoefficients⟩
  · rw [hcoefficients, List.forall_mem_singleton] at hexact
    rw [hr]
    exact hasCoefficients_combine_singleton hQ hexact
      (hQ.powWhole? hc (hp.of_mem t (mem_of_singleTerm? ht)) hexact)
  · rw [hcoefficients] at hexact
    have hone : one.HasCoefficients Q :=
      hasCoefficients_combine_singleton hQ rfl (hQ.integer 1)
    exact of_powFrom? (fun hp hq h hexact ↦ hp.mul? hQ hq h hexact) hone hp hpow hexact

theorem of_constant? {v : Number} (hp : p.HasCoefficients Q) (h : p.constant? = some v) :
    Q v := by
  unfold constant? at h
  split at h
  · exact Option.some.inj h ▸ hQ.integer 0
  · rename_i t hterms
    obtain ⟨_, hv⟩ := Option.ite_none_right_eq_some.1 h
    rw [← Option.some.inj hv]
    exact hp.of_mem t (by rw [hterms]; exact List.mem_singleton_self t)
  · simp at h

end ring

section closed

variable (hQ : Number.IsClosed Q)
include hQ

omit hQ in
theorem HasCoefficients.rest (hp : p.HasCoefficients Q) : p.rest.HasCoefficients Q :=
  fun t ht ↦ hp t (List.mem_of_mem_tail ht)

theorem HasCoefficients.divNumber? {divisor : Number} (hp : p.HasCoefficients Q)
    (hdivisor : Q divisor) (h : p.divNumber? divisor = some r)
    (hexact : ∀ c ∈ p.divNumberCoefficients divisor, c.isExact = true) :
    r.HasCoefficients Q := by
  obtain ⟨quotients, hpairs, hr, hcoefficients⟩ := eq_of_divNumber? h
  rw [hcoefficients] at hexact
  rw [hr]
  apply hasCoefficients_combine hQ.toIsRingClosed hexact
  intro t ht
  have hcoefficient := isExact_of_sums hexact t ht
  obtain ⟨s, hs, c, hc, hterm⟩ := exists_of_mem_forall₂ hpairs ht
  rw [hterm] at hcoefficient ⊢
  exact hQ.div? hc (hp.of_mem s hs) hdivisor hcoefficient

theorem HasCoefficients.divStep? {divisor remainder : Polynomial} {step : Term}
    (hp : p.HasCoefficients Q) (hdivisor : divisor.HasCoefficients Q)
    (h : divStep? p divisor = some (step, remainder))
    (hexact : ∀ c ∈ divStepCoefficients p divisor step, c.isExact = true) :
    Q step.coefficient ∧ remainder.HasCoefficients Q := by
  obtain ⟨lead, divisorLead, product, hlead, hdivisorLead, hstep, hproduct, hremainder,
    hcoefficients⟩ := eq_of_divStep? h
  rw [hcoefficients, List.forall_mem_cons, List.forall_mem_append] at hexact
  obtain ⟨hstepExact, hmul, hsub⟩ := hexact
  have hquotient : Q step.coefficient := by
    obtain ⟨m, c, _, hc, hterm⟩ := Term.eq_of_div? hstep
    rw [hterm] at hstepExact ⊢
    exact hQ.div? hc (hp.of_mem lead (List.mem_of_head? hlead))
      (hdivisor.of_mem divisorLead (List.mem_of_head? hdivisorLead)) hstepExact
  have hsingle := hasCoefficients_combine_singleton hQ.toIsRingClosed hstepExact hquotient
  rw [hremainder]
  have hproductRest := hsingle.mul? hQ.toIsRingClosed hdivisor.rest hproduct hmul
  exact ⟨hquotient, hp.rest.sub hQ.toIsRingClosed hproductRest hsub⟩

theorem HasCoefficients.quotientTerms? {names : List String} {divisor : Polynomial}
    (hp : p.HasCoefficients Q) (hdivisor : divisor.HasCoefficients Q)
    (h : quotientTerms? names divisor p = some terms)
    (hexact : ∀ c ∈ quotientCoefficients names divisor p, c.isExact = true) :
    ∀ t ∈ terms, Q t.coefficient := by
  fun_induction Polynomial.quotientTerms? names divisor p generalizing terms with
  | case1 p hzero =>
    rw [← Option.some.inj h]
    exact fun t ht ↦ absurd ht List.not_mem_nil
  | case2 p hzero hnone => simp at h
  | case3 p hzero step remainder hstep hrank ih =>
    obtain ⟨rest, hrest, hterms⟩ := Option.map_eq_some_iff.1 h
    rw [quotientCoefficients, if_neg hzero, hstep, List.forall_mem_append, if_pos hrank] at hexact
    obtain ⟨hquotient, hremainder⟩ := hp.divStep? hQ hdivisor hstep hexact.1
    rw [← hterms]
    exact List.forall_mem_cons.2 ⟨hquotient, ih hremainder hrest hexact.2⟩
  | case4 p hzero step remainder hstep hrank => simp at h

theorem HasCoefficients.div? {divisor : Polynomial} (hp : p.HasCoefficients Q)
    (hdivisor : divisor.HasCoefficients Q) (h : p.div? divisor = some r)
    (hexact : ∀ c ∈ p.divCoefficients divisor, c.isExact = true) : r.HasCoefficients Q := by
  obtain ⟨lead, hlead, hcases⟩ := eq_of_div? h
  rcases hcases with ⟨_, hr, hcoefficients⟩ | ⟨names, quotients, hterms, hr, hcoefficients⟩
  · rw [hcoefficients] at hexact
    exact hp.divNumber? hQ (hdivisor.of_mem lead (List.mem_of_head? hlead)) hr hexact
  · rw [hcoefficients, List.forall_mem_append] at hexact
    rw [hr]
    exact hasCoefficients_combine hQ.toIsRingClosed hexact.2
      (hp.quotientTerms? hQ hdivisor hterms hexact.1)

theorem HasCoefficients.powNumber? {exponent : Number} (hp : p.HasCoefficients Q)
    (h : p.powNumber? exponent = some r)
    (hexact : ∀ c ∈ p.powNumberCoefficients exponent, c.isExact = true) :
    r.HasCoefficients Q := by
  rcases eq_of_powNumber? h with ⟨base, c, hbase, hc, hr, hcoefficients⟩ |
    ⟨_, ⟨_, k, _, _, hpow, hcoefficients⟩ | ⟨f, t, c, _, ht, hroot, hc, hcoefficients⟩⟩
  · rw [hcoefficients, List.forall_mem_singleton] at hexact
    rw [hr]
    exact hasCoefficients_combine_singleton hQ.toIsRingClosed hexact
      (hQ.pow? hc (of_constant? hQ.toIsRingClosed hp hbase) hexact)
  · rw [hcoefficients] at hexact
    exact hp.powWhole? hQ.toIsRingClosed hpow hexact
  · rw [hcoefficients, List.forall_mem_singleton] at hexact
    obtain ⟨_, _, m, a, _, _, _, ha, hr, _⟩ := eq_of_rootTerm? hroot
    have hsame : c = a := Option.some.inj (hc.symm.trans ha)
    rw [hr, ← hsame]
    exact hasCoefficients_combine_singleton hQ.toIsRingClosed hexact
      (hQ.pow? (b := .fraction f) hc (hp.of_mem t (mem_of_singleTerm? ht)) hexact)

/-! ## Reductions -/

/-- The polynomial of an exact reduction inherits what the constants of the expression have. -/
theorem hasCoefficients_of_ofExpr? {e : Expr}
    (hconstant : ∀ v, Expr.constant v ∈ e.subterms → Q v) (hp : ofExpr? e = some p)
    (hexact : e.ReducesExactly) : p.HasCoefficients Q := by
  induction e generalizing p with
  | constant v =>
    rw [← Option.some.inj hp]
    exact hasCoefficients_combine_singleton hQ.toIsRingClosed (hexact v (List.mem_singleton_self v))
      (hconstant v List.mem_cons_self)
  | var name =>
    rw [← Option.some.inj hp]
    exact hasCoefficients_combine_singleton hQ.toIsRingClosed rfl (hQ.integer 1)
  | add a b iha ihb =>
    obtain ⟨q, r, hq, hr, hp, ha, hb, hsum⟩ := exists_operands hp hexact
    rw [← Option.some.inj hp]
    exact (iha (fun v hv ↦ hconstant v (by simp [Expr.subterms, hv])) hq ha).add hQ.toIsRingClosed
      (ihb (fun v hv ↦ hconstant v (by simp [Expr.subterms, hv])) hr hb) hsum
  | sub a b iha ihb =>
    obtain ⟨q, r, hq, hr, hp, ha, hb, hdiff⟩ := exists_operands hp hexact
    rw [← Option.some.inj hp]
    exact (iha (fun v hv ↦ hconstant v (by simp [Expr.subterms, hv])) hq ha).sub hQ.toIsRingClosed
      (ihb (fun v hv ↦ hconstant v (by simp [Expr.subterms, hv])) hr hb) hdiff
  | mul a b iha ihb =>
    obtain ⟨q, r, hq, hr, hp, ha, hb, hprod⟩ := exists_operands hp hexact
    exact (iha (fun v hv ↦ hconstant v (by simp [Expr.subterms, hv])) hq ha).mul? hQ.toIsRingClosed
      (ihb (fun v hv ↦ hconstant v (by simp [Expr.subterms, hv])) hr hb) hp hprod
  | div a b iha ihb =>
    obtain ⟨q, r, hq, hr, hp, ha, hb, hquot⟩ := exists_operands hp hexact
    exact (iha (fun v hv ↦ hconstant v (by simp [Expr.subterms, hv])) hq ha).div? hQ
      (ihb (fun v hv ↦ hconstant v (by simp [Expr.subterms, hv])) hr hb) hp hquot
  | pow a b iha _ =>
    obtain ⟨q, r, hq, _, hp, ha, _, hpow⟩ := exists_operands hp hexact
    obtain ⟨c, hc, hp⟩ := Option.bind_eq_some_iff.1 hp
    rw [powCoefficients, hc] at hpow
    exact (iha (fun v hv ↦ hconstant v (by simp [Expr.subterms, hv])) hq ha).powNumber? hQ hp
      hpow
  | neg a iha =>
    obtain ⟨q, hq, hp, ha, hneg⟩ := exists_operand hp hexact
    rw [← Option.some.inj hp]
    exact (iha (fun v hv ↦ hconstant v (by simp [Expr.subterms, hv])) hq ha).neg
      hQ.toIsRingClosed hneg
  | pos a iha | group a iha =>
    exact iha (fun v hv ↦ hconstant v (by simp [Expr.subterms, hv])) hp hexact
  | sqrt a iha =>
    obtain ⟨q, hq, hp, ha, hpow⟩ := exists_operand hp hexact
    exact (iha (fun v hv ↦ hconstant v (by simp [Expr.subterms, hv])) hq ha).powNumber? hQ hp
      hpow

end closed

theorem coeff_sumOf_eq_zero {d : String →₀ ℕ} (h : ∀ t ∈ terms, t.monomial.exponents ≠ d) :
    coeff d (sumOf terms) = 0 := by
  induction terms with
  | nil => rfl
  | cons t terms ih =>
    rw [List.forall_mem_cons] at h
    rw [sumOf_cons, MvPolynomial.coeff_add, ih h.2, Term.toMvPolynomial,
      MvPolynomial.coeff_monomial, if_neg h.1, add_zero]

theorem coeff_sumOf_of_mem
    (hne : terms.Pairwise fun s t ↦ s.monomial.exponents ≠ t.monomial.exponents) {t : Term}
    (ht : t ∈ terms) : coeff t.monomial.exponents (sumOf terms) = t.coefficient.value := by
  induction terms with
  | nil => exact absurd ht List.not_mem_nil
  | cons s terms ih =>
    obtain ⟨hs, hrest⟩ := List.pairwise_cons.1 hne
    rw [sumOf_cons, MvPolynomial.coeff_add, Term.toMvPolynomial, MvPolynomial.coeff_monomial]
    rcases List.mem_cons.1 ht with hself | hmem
    · rw [hself, if_pos rfl, coeff_sumOf_eq_zero fun u hu ↦ (hs u hu).symm, add_zero]
    · rw [if_neg (hs t hmem), zero_add, ih hrest hmem]

theorem IsOrderly.pairwise_exponents (hp : p.IsOrderly Monomial.IsCanonical) :
    p.terms.Pairwise fun s t ↦ s.monomial.exponents ≠ t.monomial.exponents := by
  apply hp.isAscending.imp_of_mem
  intro s t hs ht hlt heq
  rw [(hp.monomial hs).eq_of_exponents_eq (hp.monomial ht) heq,
    Monomial.compare_eq_iff.2 rfl] at hlt
  simp at hlt

theorem exists_of_mem_support {d : String →₀ ℕ} (h : d ∈ p.toMvPolynomial.support) :
    ∃ t ∈ p.terms, t.monomial.exponents = d := by
  by_contra hnone
  rw [MvPolynomial.mem_support_iff] at h
  exact h (coeff_sumOf_eq_zero fun t ht heq ↦ hnone ⟨t, ht, heq⟩)

theorem HasCoefficients.exponents_mem_support (hpexact : p.HasCoefficients Q)
    (hp : p.IsOrderly Monomial.IsCanonical) {t : Term} (ht : t ∈ p.terms) :
    t.monomial.exponents ∈ p.toMvPolynomial.support := by
  rw [MvPolynomial.mem_support_iff, toMvPolynomial, coeff_sumOf_of_mem hp.pairwise_exponents ht]
  exact (hpexact t ht).2.1

theorem toMvPolynomial_ne_zero (hp : p.IsOrderly Monomial.IsCanonical)
    (hpexact : p.HasCoefficients Q) {t : Term} (ht : p.leadingTerm? = some t) :
    p.toMvPolynomial ≠ 0 := by
  have hmem := hpexact.exponents_mem_support hp (List.mem_of_head? ht)
  intro hzero
  simp [hzero] at hmem

/-- The monomials of the terms, each with the exact value of its coefficient. -/
def valuedMonomials (p : Polynomial) : List (Monomial × ℚ) :=
  p.terms.map fun t ↦ (t.monomial, t.coefficient.value)

theorem IsOrderly.pairwise_valuedMonomials {P : Monomial → Prop} (hp : p.IsOrderly P) :
    p.valuedMonomials.Pairwise fun a b ↦ a.1.compare b.1 = .lt :=
  List.pairwise_map.2 hp.isAscending

/-- A proportional polynomial has a term for each term, with the proportional coefficient. -/
theorem exists_valuedMonomial_of_eq_C_mul {k : ℚ} (hp : p.IsOrderly Monomial.IsCanonical)
    (hq : q.IsOrderly Monomial.IsCanonical) (hpexact : p.HasCoefficients Q)
    (h : p.toMvPolynomial = C k * q.toMvPolynomial) {a : Monomial × ℚ}
    (ha : a ∈ p.valuedMonomials) : ∃ b ∈ q.valuedMonomials, (b.1, k * b.2) = a := by
  obtain ⟨t, ht, hta⟩ := List.mem_map.1 ha
  have hcoeff : k * coeff t.monomial.exponents q.toMvPolynomial = t.coefficient.value := by
    rw [← MvPolynomial.coeff_C_mul, ← h]
    exact coeff_sumOf_of_mem hp.pairwise_exponents ht
  have hsupport : t.monomial.exponents ∈ q.toMvPolynomial.support := by
    rw [MvPolynomial.mem_support_iff]
    intro hzero
    rw [hzero, mul_zero] at hcoeff
    exact (hpexact t ht).2.1 hcoeff.symm
  obtain ⟨s, hs, heq⟩ := exists_of_mem_support hsupport
  have hmonomial := (hq.monomial hs).eq_of_exponents_eq (hp.monomial ht) heq
  have hvalue : k * s.coefficient.value = t.coefficient.value := by
    rw [← hcoeff, ← coeff_sumOf_of_mem hq.pairwise_exponents hs, ← toMvPolynomial, heq]
  refine ⟨(s.monomial, s.coefficient.value), List.mem_map_of_mem hs, ?_⟩
  rw [← hta, hmonomial, hvalue]

/-- Proportional polynomials have the same monomials, and proportional values of coefficients. -/
theorem valuedMonomials_eq_of_eq_C_mul {k : ℚ} (hk : k ≠ 0) (hp : p.IsOrderly Monomial.IsCanonical)
    (hq : q.IsOrderly Monomial.IsCanonical) (hpexact : p.HasCoefficients Q)
    (hqexact : q.HasCoefficients Q) (h : p.toMvPolynomial = C k * q.toMvPolynomial) :
    p.valuedMonomials = q.valuedMonomials.map fun b ↦ (b.1, k * b.2) := by
  have hinverse : q.toMvPolynomial = C k⁻¹ * p.toMvPolynomial := by
    rw [h, ← mul_assoc, ← map_mul, inv_mul_cancel₀ hk, map_one, one_mul]
  have hpairwise : (q.valuedMonomials.map fun b ↦ (b.1, k * b.2)).Pairwise
      fun a b ↦ a.1.compare b.1 = .lt := List.pairwise_map.2 hq.pairwise_valuedMonomials
  have hnodup : ∀ {as : List (Monomial × ℚ)},
      as.Pairwise (fun a b ↦ a.1.compare b.1 = .lt) → as.Nodup := by
    intro as has
    refine has.imp fun {a b} hlt heq ↦ ?_
    rw [heq, Monomial.compare_eq_iff.2 rfl] at hlt
    simp at hlt
  have hperm : p.valuedMonomials.Perm (q.valuedMonomials.map fun b ↦ (b.1, k * b.2)) := by
    rw [List.perm_ext_iff_of_nodup (hnodup hp.pairwise_valuedMonomials) (hnodup hpairwise)]
    intro a
    rw [List.mem_map]
    refine ⟨exists_valuedMonomial_of_eq_C_mul hp hq hpexact h, ?_⟩
    rintro ⟨b, hb, rfl⟩
    obtain ⟨a, ha, rfl⟩ := exists_valuedMonomial_of_eq_C_mul hq hp hqexact hinverse hb
    rwa [mul_inv_cancel_left₀ hk]
  apply hperm.eq_of_pairwise _ hp.pairwise_valuedMonomials hpairwise
  intro a b _ _ hab hba
  rw [← Monomial.compare_swap, hab] at hba
  simp at hba

/-- The monomials and the values of their coefficients are determined by what they denote. -/
theorem valuedMonomials_eq_of_toMvPolynomial_eq (hp : p.IsOrderly Monomial.IsCanonical)
    (hq : q.IsOrderly Monomial.IsCanonical) (hpexact : p.HasCoefficients Q)
    (hqexact : q.HasCoefficients Q) (h : p.toMvPolynomial = q.toMvPolynomial) :
    p.valuedMonomials = q.valuedMonomials := by
  have hvalued := valuedMonomials_eq_of_eq_C_mul one_ne_zero hp hq hpexact hqexact
    (by rw [h, map_one, one_mul])
  simpa only [one_mul, List.map_id'] using hvalued

theorem map_monomial_eq (p : Polynomial) :
    p.terms.map (·.monomial) = p.valuedMonomials.map (·.1) := by
  rw [valuedMonomials, List.map_map]
  rfl

theorem HasCoefficients.map_toRat?_eq (hp : p.HasCoefficients Q) :
    p.terms.map (·.coefficient.toRat?) = p.valuedMonomials.map (some ·.2) := by
  rw [valuedMonomials, List.map_map]
  exact List.map_congr_left fun t ht ↦ Number.toRat?_eq_value (hp t ht).1

end Polynomial

end SchoolAlgebra
