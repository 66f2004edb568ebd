import Mathlib
import SchoolAlgebra.Proofs.Number.ExactValue
import SchoolAlgebra.Proofs.Polynomial.Ascending
import SchoolAlgebra.Proofs.Polynomial.Exponents

/-!
# Polynomials as elements of the polynomial ring

A list of terms denotes a polynomial with rational coefficients. As long as all coefficients that
they compute are exact, the operations on lists of terms are those of the polynomial ring: combining
terms changes nothing, sums and products are sums and products, and a quotient times the divisor is
the dividend.
-/

namespace SchoolAlgebra

open MvPolynomial (C)

namespace Number

/-- The rational that an exact number denotes, and zero for a double. -/
def value (a : Number) : ℚ := a.toRat?.getD 0

theorem value_eq {a : Number} {x : ℚ} (h : a.toRat? = some x) : a.value = x := by
  rw [value, h, Option.getD_some]

theorem toRat?_eq_value {a : Number} (h : a.isExact = true) : a.toRat? = some a.value := by
  obtain ⟨x, hx⟩ := isExact_iff.1 h
  rw [value_eq hx, hx]

theorem isExact_of_toRat? {a : Number} {x : ℚ} (h : a.toRat? = some x) : a.isExact = true :=
  isExact_iff.2 ⟨x, h⟩

theorem value_add {a b : Number} (h : (a + b).isExact = true) :
    a.isExact = true ∧ b.isExact = true ∧ (a + b).value = a.value + b.value := by
  obtain ⟨x, y, hx, hy, hsum⟩ := toRat?_add (toRat?_eq_value h)
  rw [value_eq hx, value_eq hy]
  exact ⟨isExact_of_toRat? hx, isExact_of_toRat? hy, hsum⟩

theorem value_mul {a b : Number} (h : (a * b).isExact = true) :
    a.isExact = true ∧ b.isExact = true ∧ (a * b).value = a.value * b.value := by
  obtain ⟨x, y, hx, hy, hprod⟩ := toRat?_mul (toRat?_eq_value h)
  rw [value_eq hx, value_eq hy]
  exact ⟨isExact_of_toRat? hx, isExact_of_toRat? hy, hprod⟩

theorem value_neg {a : Number} (h : (-a).isExact = true) : (-a).value = -a.value := by
  obtain ⟨x, hx, hneg⟩ := toRat?_neg (toRat?_eq_value h)
  rw [value_eq hx]
  exact hneg

theorem value_div? {a b c : Number} (h : a.div? b = some c) (hc : c.isExact = true) :
    c.value * b.value = a.value := by
  obtain ⟨x, y, hx, hy, hne, hquot⟩ := toRat?_div? h (toRat?_eq_value hc)
  rw [value_eq hx, value_eq hy, hquot, div_mul_cancel₀ x hne]

@[simp] theorem toRat?_simplified (a : Number) : a.simplified.toRat? = a.toRat? := by
  cases a with
  | integer v => rfl
  | float x => rfl
  | fraction f =>
    simp only [simplified, toInt64?]
    split
    · rename_i hden
      cases hnum : Word.int64? f.toRat.num with
      | none => rfl
      | some n =>
        change some ((n.toInt : ℤ) : ℚ) = some f.toRat
        rw [Word.int64?_eq_some_iff.1 hnum, Rat.coe_int_num_of_den_eq_one hden]
    · rfl

theorem value_simplified (a : Number) : a.simplified.value = a.value := by
  rw [value, value, toRat?_simplified]

end Number

namespace Term

/-- The monomial with its coefficient in the polynomial ring. -/
noncomputable def toMvPolynomial (t : Term) : MvPolynomial String ℚ :=
  MvPolynomial.monomial t.monomial.exponents t.coefficient.value

theorem toMvPolynomial_simplified (t : Term) : t.simplified.toMvPolynomial = t.toMvPolynomial :=
  congrArg (MvPolynomial.monomial t.monomial.exponents) t.coefficient.value_simplified

theorem toMvPolynomial_neg {t : Term} (h : t.neg.coefficient.isExact = true) :
    t.neg.toMvPolynomial = -t.toMvPolynomial := by
  unfold toMvPolynomial
  rw [← map_neg, ← Number.value_neg h]
  rfl

theorem toMvPolynomial_mul? {a b t : Term} (h : a.mul? b = some t)
    (ht : t.coefficient.isExact = true) :
    t.toMvPolynomial = a.toMvPolynomial * b.toMvPolynomial := by
  obtain ⟨m, hm, hterm⟩ := eq_of_mul? h
  subst hterm
  unfold toMvPolynomial
  rw [MvPolynomial.monomial_mul, ← Monomial.exponents_of_mul? hm, ← (Number.value_mul ht).2.2]

theorem toMvPolynomial_div? {a b t : Term} (h : a.div? b = some t)
    (ht : t.coefficient.isExact = true) :
    t.toMvPolynomial * b.toMvPolynomial = a.toMvPolynomial := by
  obtain ⟨m, c, hm, hc, hterm⟩ := eq_of_div? h
  subst hterm
  unfold toMvPolynomial
  rw [MvPolynomial.monomial_mul, Monomial.exponents_of_div? hm, Number.value_div? hc ht]

theorem toMvPolynomial_eq_zero {t : Term} (h : t.coefficient.isExact = true)
    (hneg : t.isNegligible = true) : t.toMvPolynomial = 0 := by
  unfold isNegligible at hneg
  rw [if_pos h, Number.isZero_iff h] at hneg
  rw [toMvPolynomial, Number.value_eq hneg, MvPolynomial.monomial_zero]

end Term

namespace Polynomial

/-! ## Combined terms -/

/-- The sum of the terms in the polynomial ring. -/
noncomputable def sumOf (terms : List Term) : MvPolynomial String ℚ :=
  (terms.map Term.toMvPolynomial).sum

/-- The polynomial in the polynomial ring. -/
noncomputable def toMvPolynomial (p : Polynomial) : MvPolynomial String ℚ := sumOf p.terms

@[simp] theorem sumOf_nil : sumOf [] = 0 := rfl

@[simp] theorem sumOf_cons (t : Term) (terms : List Term) :
    sumOf (t :: terms) = t.toMvPolynomial + sumOf terms := List.sum_cons

@[simp] theorem sumOf_append (as bs : List Term) : sumOf (as ++ bs) = sumOf as + sumOf bs := by
  rw [sumOf, List.map_append, List.sum_append]
  rfl

theorem sumOf_perm {as bs : List Term} (h : as.Perm bs) : sumOf as = sumOf bs :=
  (h.map _).sum_eq

theorem sumOf_collectFrom {first : Term} {terms : List Term}
    (h : ∀ t ∈ collectFrom first terms, t.coefficient.isExact = true) :
    (∀ t ∈ first :: terms, t.coefficient.isExact = true) ∧
      sumOf (collectFrom first terms) = sumOf (first :: terms) := by
  fun_induction collectFrom first terms with
  | case1 first => exact ⟨h, rfl⟩
  | case2 first next rest heq ih =>
    obtain ⟨hexact, hsum⟩ := ih h
    rw [List.forall_mem_cons] at hexact
    obtain ⟨hfirst, hnext, hvalue⟩ := Number.value_add hexact.1
    refine ⟨List.forall_mem_cons.2 ⟨hfirst, List.forall_mem_cons.2 ⟨hnext, hexact.2⟩⟩, ?_⟩
    have hmerged : Term.toMvPolynomial ⟨first.coefficient + next.coefficient, first.monomial⟩ =
        first.toMvPolynomial + next.toMvPolynomial := by
      unfold Term.toMvPolynomial
      rw [hvalue, map_add, heq]
    calc sumOf (collectFrom ⟨first.coefficient + next.coefficient, first.monomial⟩ rest) =
          first.toMvPolynomial + next.toMvPolynomial + sumOf rest := by
          rw [hsum, sumOf_cons, hmerged]
      _ = sumOf (first :: next :: rest) := by rw [sumOf_cons, sumOf_cons, add_assoc]
  | case3 first next rest hne ih =>
    rw [List.forall_mem_cons] at h
    obtain ⟨hexact, hsum⟩ := ih h.2
    exact ⟨List.forall_mem_cons.2 ⟨h.1, hexact⟩, by rw [sumOf_cons, hsum, sumOf_cons first]⟩

section combine

variable {terms : List Term}

theorem sumOf_collect (h : ∀ c ∈ sums terms, c.isExact = true) :
    (∀ t ∈ terms, t.coefficient.isExact = true) ∧
      sumOf (collect (sortTerms terms)) = sumOf terms := by
  have hperm := sortTerms_perm terms
  unfold sums at h
  rw [List.forall_mem_map] at h
  rw [← sumOf_perm hperm]
  cases hsorted : sortTerms terms with
  | nil =>
    rw [hsorted] at hperm
    exact ⟨by simp [List.nil_perm.1 hperm], rfl⟩
  | cons first rest =>
    rw [hsorted] at h hperm
    obtain ⟨hexact, hsum⟩ := sumOf_collectFrom h
    exact ⟨fun t ht ↦ hexact t (hperm.mem_iff.2 ht), hsum⟩

theorem isExact_of_sums (h : ∀ c ∈ sums terms, c.isExact = true) :
    ∀ t ∈ terms, t.coefficient.isExact = true :=
  (sumOf_collect h).1

theorem sums_singleton (t : Term) : sums [t] = [t.coefficient] := by
  rw [sums, List.perm_singleton.1 (sortTerms_perm [t])]
  rfl

theorem sumOf_filter (h : ∀ t ∈ terms, t.coefficient.isExact = true) :
    sumOf ((terms.filter fun t ↦ !t.isNegligible).map Term.simplified) = sumOf terms := by
  induction terms with
  | nil => rfl
  | cons t terms ih =>
    rw [List.forall_mem_cons] at h
    cases hneg : t.isNegligible with
    | true =>
      rw [List.filter_cons_of_neg (by simp [hneg]), ih h.2, sumOf_cons,
        t.toMvPolynomial_eq_zero h.1 hneg, zero_add]
    | false =>
      rw [List.filter_cons_of_pos (by simp [hneg]), List.map_cons, sumOf_cons, sumOf_cons,
        ih h.2, t.toMvPolynomial_simplified]

/-- Combining terms keeps their sum. -/
theorem toMvPolynomial_combine (h : ∀ c ∈ sums terms, c.isExact = true) :
    (combine terms).toMvPolynomial = sumOf terms := by
  unfold sums at h
  rw [List.forall_mem_map] at h
  calc (combine terms).toMvPolynomial = sumOf (collect (sortTerms terms)) := sumOf_filter h
    _ = sumOf terms := (sumOf_collect (List.forall_mem_map.2 h)).2

theorem toMvPolynomial_combine_singleton {t : Term} (h : t.coefficient.isExact = true) :
    (combine [t]).toMvPolynomial = t.toMvPolynomial := by
  rw [toMvPolynomial_combine (by simpa [sums_singleton] using h), sumOf_cons, sumOf_nil, add_zero]

end combine

/-! ## Operations -/

variable {p q r : Polynomial}

theorem toMvPolynomial_add (h : ∀ c ∈ p.addCoefficients q, c.isExact = true) :
    (p + q).toMvPolynomial = p.toMvPolynomial + q.toMvPolynomial :=
  (toMvPolynomial_combine h).trans (sumOf_append p.terms q.terms)

theorem toMvPolynomial_neg (h : ∀ c ∈ p.negCoefficients, c.isExact = true) :
    (-p).toMvPolynomial = -p.toMvPolynomial := by
  have hterms : ∀ terms : List Term, (∀ t ∈ terms, t.neg.coefficient.isExact = true) →
      sumOf (terms.map Term.neg) = -sumOf terms := by
    intro terms hexact
    induction terms with
    | nil => simp
    | cons t terms ih =>
      rw [List.forall_mem_cons] at hexact
      rw [List.map_cons, sumOf_cons, sumOf_cons, Term.toMvPolynomial_neg hexact.1,
        ih hexact.2, neg_add]
  apply hterms
  intro t ht
  exact h _ (List.mem_map_of_mem (List.mem_map_of_mem ht))

theorem toMvPolynomial_sub (h : ∀ c ∈ p.subCoefficients q, c.isExact = true) :
    (p - q).toMvPolynomial = p.toMvPolynomial - q.toMvPolynomial := by
  obtain ⟨hneg, hadd⟩ := List.forall_mem_append.1 h
  rw [sub_eq_add_neg, ← toMvPolynomial_neg hneg]
  exact toMvPolynomial_add hadd

theorem sumOf_row {a : Term} {bs row : List Term}
    (h : List.Forall₂ (fun b t ↦ a.mul? b = some t) bs row)
    (hexact : ∀ t ∈ row, t.coefficient.isExact = true) :
    sumOf row = a.toMvPolynomial * sumOf bs := by
  induction h with
  | nil => simp
  | cons ht _ ih =>
    rw [List.forall_mem_cons] at hexact
    rw [sumOf_cons, sumOf_cons, mul_add, Term.toMvPolynomial_mul? ht hexact.1, ih hexact.2]

/-- The products of the terms are those of the distributive law. -/
theorem sumOf_products? {as bs terms : List Term} (h : products? as bs = some terms)
    (hexact : ∀ t ∈ terms, t.coefficient.isExact = true) :
    sumOf terms = sumOf as * sumOf bs := by
  unfold products? at h
  simp only [Option.bind_eq_bind, Option.bind_eq_some_iff] at h
  obtain ⟨rows, hrows, hterms⟩ := h
  have hflatten : rows.flatten = terms := Option.some.inj hterms
  rw [← hflatten] at hexact ⊢
  have hpairs := forall₂_of_mapM_eq_some hrows
  clear hrows hterms hflatten
  induction hpairs with
  | nil => simp
  | @cons a row as rows hrow _ ih =>
    rw [List.flatten_cons, List.forall_mem_append] at hexact
    calc sumOf (row :: rows).flatten = sumOf row + sumOf rows.flatten := by
          rw [List.flatten_cons, sumOf_append]
      _ = a.toMvPolynomial * sumOf bs + sumOf as * sumOf bs := by
          rw [sumOf_row (forall₂_of_mapM_eq_some hrow) hexact.1, ih hexact.2]
      _ = sumOf (a :: as) * sumOf bs := by rw [sumOf_cons, add_mul]

theorem toMvPolynomial_mul? (h : p.mul? q = some r)
    (hexact : ∀ c ∈ p.mulCoefficients q, c.isExact = true) :
    r.toMvPolynomial = p.toMvPolynomial * q.toMvPolynomial := by
  obtain ⟨terms, hterms, hr, hsums⟩ := eq_of_mul? h
  rw [hsums] at hexact
  calc r.toMvPolynomial = sumOf terms := by rw [hr, toMvPolynomial_combine hexact]
    _ = p.toMvPolynomial * q.toMvPolynomial := sumOf_products? hterms (isExact_of_sums hexact)

theorem toMvPolynomial_divNumber? {divisor : Number} (h : p.divNumber? divisor = some q)
    (hexact : ∀ c ∈ p.divNumberCoefficients divisor, c.isExact = true) :
    q.toMvPolynomial * C divisor.value = p.toMvPolynomial := by
  obtain ⟨terms, hpairs, hq, hsums⟩ := eq_of_divNumber? h
  rw [hsums] at hexact
  rw [hq, toMvPolynomial_combine hexact, toMvPolynomial]
  have hquotients := isExact_of_sums hexact
  generalize p.terms = dividend at hpairs
  clear hexact hq hsums
  induction hpairs with
  | nil => simp
  | @cons s t _ _ ht _ ih =>
    rw [List.forall_mem_cons] at hquotients
    obtain ⟨c, hc, ht⟩ := ht
    have hcexact : c.isExact = true := by
      have hfirst := hquotients.1
      rwa [ht] at hfirst
    have hterm : t.toMvPolynomial * C divisor.value = s.toMvPolynomial := by
      rw [ht, Term.toMvPolynomial, Term.toMvPolynomial, mul_comm, MvPolynomial.C_mul_monomial,
        mul_comm, Number.value_div? hc hcexact]
    rw [sumOf_cons, sumOf_cons, add_mul, ih hquotients.2, hterm]

theorem exists_leadingTerm? (h : p.terms ≠ []) : ∃ t, p.leadingTerm? = some t :=
  Option.ne_none_iff_exists'.1 (mt List.head?_eq_none_iff.1 h)

theorem eq_cons_of_leadingTerm? {t : Term} (h : p.leadingTerm? = some t) :
    p.terms = t :: p.rest.terms := (List.cons_head?_tail h).symm

theorem toMvPolynomial_eq_leading_add_rest {t : Term} (h : p.leadingTerm? = some t) :
    p.toMvPolynomial = t.toMvPolynomial + p.rest.toMvPolynomial := by
  rw [toMvPolynomial, eq_cons_of_leadingTerm? h, sumOf_cons]
  rfl

theorem toMvPolynomial_divStep? {divisor remainder : Polynomial} {step : Term}
    (h : divStep? p divisor = some (step, remainder))
    (hexact : ∀ c ∈ divStepCoefficients p divisor step, c.isExact = true) :
    p.toMvPolynomial =
      step.toMvPolynomial * divisor.toMvPolynomial + remainder.toMvPolynomial := by
  obtain ⟨lead, divisorLead, product, hlead, hdivisorLead, hstep, hproduct, hremainder,
    hcoefficients⟩ := eq_of_divStep? h
  rw [hcoefficients, List.forall_mem_cons, List.forall_mem_append] at hexact
  obtain ⟨hcoefficient, hmul, hsub⟩ := hexact
  have hrest : remainder.toMvPolynomial =
      p.rest.toMvPolynomial - step.toMvPolynomial * divisor.rest.toMvPolynomial := by
    rw [hremainder, toMvPolynomial_sub hsub, toMvPolynomial_mul? hproduct hmul,
      toMvPolynomial_combine_singleton hcoefficient]
  calc p.toMvPolynomial = lead.toMvPolynomial + p.rest.toMvPolynomial :=
        toMvPolynomial_eq_leading_add_rest hlead
    _ = step.toMvPolynomial * divisorLead.toMvPolynomial + p.rest.toMvPolynomial := by
        rw [Term.toMvPolynomial_div? hstep hcoefficient]
    _ = step.toMvPolynomial * (divisorLead.toMvPolynomial + divisor.rest.toMvPolynomial) +
          remainder.toMvPolynomial := by
        rw [hrest]
        ring
    _ = step.toMvPolynomial * divisor.toMvPolynomial + remainder.toMvPolynomial := by
        rw [toMvPolynomial_eq_leading_add_rest hdivisorLead]

/-- At every step the quotient so far times the divisor plus the remainder is the dividend. -/
theorem sumOf_quotientTerms? {names : List String} {divisor : Polynomial} {terms : List Term}
    (h : quotientTerms? names divisor p = some terms)
    (hexact : ∀ c ∈ quotientCoefficients names divisor p, c.isExact = true) :
    sumOf terms * divisor.toMvPolynomial = p.toMvPolynomial := by
  fun_induction quotientTerms? names divisor p generalizing terms with
  | case1 p hzero =>
    have hterms : p.terms = [] := List.isEmpty_iff.1 hzero
    rw [← Option.some.inj h, sumOf_nil, zero_mul, toMvPolynomial, hterms, sumOf_nil]
  | case2 p hzero hnone => simp at h
  | case3 p hzero step remainder hstep hrank ih =>
    obtain ⟨rest, hrest, hterms⟩ := Option.map_eq_some_iff.1 h
    rw [quotientCoefficients, if_neg hzero, hstep, List.forall_mem_append, if_pos hrank] at hexact
    calc sumOf terms * divisor.toMvPolynomial =
          step.toMvPolynomial * divisor.toMvPolynomial + sumOf rest * divisor.toMvPolynomial := by
          rw [← hterms, sumOf_cons, add_mul]
      _ = step.toMvPolynomial * divisor.toMvPolynomial + remainder.toMvPolynomial := by
          rw [ih hrest hexact.2]
      _ = p.toMvPolynomial := (toMvPolynomial_divStep? hstep hexact.1).symm
  | case4 p hzero step remainder hstep hrank => simp at h

theorem toMvPolynomial_of_isConstant {t : Term} (hp : IsAscending p.terms)
    (hconstant : p.isConstant = true) (ht : p.leadingTerm? = some t) :
    p.toMvPolynomial = C t.coefficient.value := by
  have hterms := eq_cons_of_leadingTerm? ht
  rw [isConstant, hterms, List.all_cons, Bool.and_eq_true] at hconstant
  have hone : ∀ s : Term, s.isConstant = true → s.monomial = .one := by
    intro s hs
    exact congrArg Monomial.mk (List.isEmpty_iff.1 hs)
  have hrest : p.rest.terms = [] := by
    cases hnext : p.rest.terms with
    | nil => rfl
    | cons s rest =>
      rw [hnext, List.all_cons, Bool.and_eq_true] at hconstant
      rw [hterms, hnext] at hp
      have hlt := List.rel_of_pairwise_cons hp List.mem_cons_self
      rw [hone t hconstant.1, hone s hconstant.2.1] at hlt
      simp [Monomial.compare_eq_iff.2 rfl] at hlt
  rw [toMvPolynomial, hterms, hrest, sumOf_cons, sumOf_nil, add_zero, Term.toMvPolynomial,
    hone t hconstant.1]
  rfl

/-- The quotient times the divisor is the dividend. -/
theorem toMvPolynomial_div? {divisor : Polynomial} (h : p.div? divisor = some q)
    (hdivisor : IsAscending divisor.terms)
    (hexact : ∀ c ∈ p.divCoefficients divisor, c.isExact = true) :
    q.toMvPolynomial * divisor.toMvPolynomial = p.toMvPolynomial := by
  obtain ⟨lead, hlead, hcases⟩ := eq_of_div? h
  rcases hcases with ⟨hconstant, hq, hcoefficients⟩ | ⟨names, terms, hterms, hq, hcoefficients⟩
  · rw [hcoefficients] at hexact
    rw [toMvPolynomial_of_isConstant hdivisor hconstant hlead]
    exact toMvPolynomial_divNumber? hq hexact
  · rw [hcoefficients, List.forall_mem_append] at hexact
    calc q.toMvPolynomial * divisor.toMvPolynomial = sumOf terms * divisor.toMvPolynomial := by
          rw [hq, toMvPolynomial_combine hexact.2]
      _ = p.toMvPolynomial := sumOf_quotientTerms? hterms hexact.1

end Polynomial

end SchoolAlgebra
