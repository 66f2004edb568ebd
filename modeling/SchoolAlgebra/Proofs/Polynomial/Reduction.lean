import Mathlib
import SchoolAlgebra.Proofs.Polynomial.Ascending
import SchoolAlgebra.Proofs.Polynomial.Exponents

/-!
# The terms of a reduction

Every operation on polynomials keeps two things: the terms ascend strictly, and their monomials have
any property that products, quotients, powers and roots of monomials pass on. What all operations
keep holds for the polynomial of an expression.
-/

namespace SchoolAlgebra.Polynomial

/-- Whether the terms ascend strictly and their monomials have a property. -/
structure IsOrderly (P : Monomial → Prop) (p : Polynomial) : Prop where
  isAscending : IsAscending p.terms
  monomial {t : Term} (ht : t ∈ p.terms) : P t.monomial

variable {P : Monomial → Prop} {p q r : Polynomial} {terms : List Term}

theorem IsOrderly.imp {P' : Monomial → Prop} (hp : p.IsOrderly P) (h : ∀ m, P m → P' m) :
    p.IsOrderly P' :=
  ⟨hp.isAscending, fun ht ↦ h _ (hp.monomial ht)⟩

theorem isOrderly_combine (h : ∀ t ∈ terms, P t.monomial) : (combine terms).IsOrderly P := by
  refine ⟨isAscending_combine terms, fun {t} ht ↦ ?_⟩
  obtain ⟨s, hs, hst⟩ := exists_monomial_eq_of_mem_combine ht
  rw [← hst]
  exact h s hs

theorem isOrderly_combine_singleton {t : Term} (h : P t.monomial) :
    (combine [t]).IsOrderly P :=
  isOrderly_combine (List.forall_mem_singleton.2 h)

theorem IsOrderly.add (hp : p.IsOrderly P) (hq : q.IsOrderly P) : (p + q).IsOrderly P :=
  isOrderly_combine (List.forall_mem_append.2 ⟨fun _ ↦ hp.monomial, fun _ ↦ hq.monomial⟩)

theorem IsOrderly.neg (hp : p.IsOrderly P) : (-p).IsOrderly P := by
  constructor
  · exact List.pairwise_map.2 (hp.isAscending.imp fun h ↦ h)
  · intro t ht
    obtain ⟨s, hs, hst⟩ := List.mem_map.1 ht
    rw [← hst]
    change P s.monomial
    exact hp.monomial hs

theorem IsOrderly.sub (hp : p.IsOrderly P) (hq : q.IsOrderly P) : (p - q).IsOrderly P :=
  hp.add hq.neg

theorem IsOrderly.mul? (hP : Monomial.IsClosed P) (hp : p.IsOrderly P) (hq : q.IsOrderly P)
    (h : p.mul? q = some r) : r.IsOrderly P := by
  obtain ⟨products, hproducts, hr, _⟩ := eq_of_mul? h
  rw [hr]
  apply isOrderly_combine
  intro t ht
  obtain ⟨a, ha, b, hb, hproduct⟩ := exists_of_mem_products? hproducts ht
  obtain ⟨m, hm, hterm⟩ := Term.eq_of_mul? hproduct
  rw [hterm]
  exact hP.mul? hm (hp.monomial ha) (hq.monomial hb)

theorem IsOrderly.rest (hp : p.IsOrderly P) : p.rest.IsOrderly P :=
  ⟨hp.isAscending.sublist p.terms.tail_sublist,
    fun ht ↦ hp.monomial (List.mem_of_mem_tail ht)⟩

theorem IsOrderly.divNumber? {divisor : Number} (hp : p.IsOrderly P)
    (h : p.divNumber? divisor = some r) : r.IsOrderly P := by
  obtain ⟨terms, hpairs, hr, _⟩ := eq_of_divNumber? h
  rw [hr]
  apply isOrderly_combine
  intro t ht
  obtain ⟨u, hu, c, _, hterm⟩ := exists_of_mem_forall₂ hpairs ht
  rw [hterm]
  exact hp.monomial (t := u) hu

theorem IsOrderly.divStep? {divisor remainder : Polynomial} {step : Term}
    (hP : Monomial.IsClosed P) (hp : p.IsOrderly P) (hdivisor : divisor.IsOrderly P)
    (h : divStep? p divisor = some (step, remainder)) :
    P step.monomial ∧ remainder.IsOrderly P := by
  obtain ⟨lead, _, product, hlead, _, hstep, hproduct, hremainder, _⟩ := eq_of_divStep? h
  have hmonomial : P step.monomial := by
    obtain ⟨m, c, hm, _, hterm⟩ := Term.eq_of_div? hstep
    rw [hterm]
    exact hP.div? hm (hp.monomial (List.mem_of_head? hlead))
  rw [hremainder]
  exact ⟨hmonomial,
    hp.rest.sub ((isOrderly_combine_singleton hmonomial).mul? hP hdivisor.rest hproduct)⟩

theorem IsOrderly.quotientTerms? {names : List String} {divisor : Polynomial}
    (hP : Monomial.IsClosed P) (hp : p.IsOrderly P) (hdivisor : divisor.IsOrderly P)
    (h : quotientTerms? names divisor p = some terms) : ∀ t ∈ terms, P t.monomial := by
  fun_induction Polynomial.quotientTerms? names divisor p generalizing terms with
  | case1 p hzero =>
    rw [← Option.some.inj h]
    exact fun t ht ↦ absurd ht List.not_mem_nil
  | case2 p hzero hnone => simp at h
  | case3 p hzero step remainder hstep hrank ih =>
    obtain ⟨rest, hrest, hterms⟩ := Option.map_eq_some_iff.1 h
    obtain ⟨hmonomial, hremainder⟩ := hp.divStep? hP hdivisor hstep
    rw [← hterms]
    exact List.forall_mem_cons.2 ⟨hmonomial, ih hremainder hrest⟩
  | case4 p hzero step remainder hstep hrank => simp at h

theorem IsOrderly.div? {divisor : Polynomial} (hP : Monomial.IsClosed P) (hp : p.IsOrderly P)
    (hdivisor : divisor.IsOrderly P) (h : p.div? divisor = some r) : r.IsOrderly P := by
  obtain ⟨lead, _, hcases⟩ := eq_of_div? h
  rcases hcases with ⟨_, hr, _⟩ | ⟨names, terms, hterms, hr, _⟩
  · exact hp.divNumber? hr
  · rw [hr]
    exact isOrderly_combine (hp.quotientTerms? hP hdivisor hterms)

theorem isOrderly_ofNumber (hP : Monomial.IsClosed P) (v : Number) : (ofNumber v).IsOrderly P :=
  isOrderly_combine_singleton hP.one

theorem mem_of_singleTerm? {t : Term} (h : p.singleTerm? = some t) : t ∈ p.terms := by
  unfold singleTerm? at h
  split at h
  · rename_i s hterms
    rw [hterms, Option.some.inj h]
    exact List.mem_singleton_self t
  · simp at h

theorem IsOrderly.powWhole? {n : ℕ} (hP : Monomial.IsClosed P) (hp : p.IsOrderly P)
    (h : p.powWhole? n = some r) : r.IsOrderly P := by
  rcases eq_of_powWhole? h with ⟨t, m, c, ht, hm, _, hr, _⟩ | ⟨hr, _⟩
  · rw [hr]
    exact isOrderly_combine_singleton (hP.pow? hm (hp.monomial (mem_of_singleTerm? ht)))
  · exact of_powFrom? (P := fun _ ↦ True) (fun hp hq h _ ↦ hp.mul? hP hq h)
      (isOrderly_ofNumber hP _) hp hr fun _ _ ↦ trivial

theorem IsOrderly.powNumber? {exponent : Number} (hP : Monomial.IsClosed P)
    (hp : p.IsOrderly P) (h : p.powNumber? exponent = some r) : r.IsOrderly P := by
  rcases eq_of_powNumber? h with ⟨_, c, _, _, hr, _⟩ | ⟨_, ⟨_, k, _, _, hr, _⟩ | hroot⟩
  · rw [hr]
    exact isOrderly_ofNumber hP c
  · exact hp.powWhole? hP hr
  · obtain ⟨f, t, _, _, ht, hr, _, _⟩ := hroot
    obtain ⟨_, _, m, c, _, _, hm, _, hr, _⟩ := eq_of_rootTerm? hr
    rw [hr]
    exact isOrderly_combine_singleton (hP.root? hm (hp.monomial (mem_of_singleTerm? ht)))

/-- Whether a property of polynomials passes on from operands to results. -/
structure IsClosed (C : Polynomial → Prop) : Prop where
  ofNumber (v : Number) : C (ofNumber v)
  add {p q : Polynomial} (hp : C p) (hq : C q) : C (p + q)
  sub {p q : Polynomial} (hp : C p) (hq : C q) : C (p - q)
  neg {p : Polynomial} (hp : C p) : C (-p)
  mul? {p q r : Polynomial} (hp : C p) (hq : C q) (h : p.mul? q = some r) : C r
  div? {p q r : Polynomial} (hp : C p) (hq : C q) (h : p.div? q = some r) : C r
  powNumber? {p r : Polynomial} {exponent : Number} (hp : C p)
    (h : p.powNumber? exponent = some r) : C r

/-- The polynomial of an expression inherits what its variables have. -/
theorem IsClosed.of_ofExpr? {C : Polynomial → Prop} (hC : IsClosed C) {e : Expr}
    (hvar : ∀ name, Expr.var name ∈ e.subterms → C (ofName name)) (h : ofExpr? e = some p) :
    C p := by
  induction e generalizing p with
  | constant v =>
    rw [← Option.some.inj h]
    exact hC.ofNumber v
  | var name =>
    rw [← Option.some.inj h]
    exact hvar name List.mem_cons_self
  | add a b iha ihb =>
    simp only [ofExpr?, Option.bind_eq_bind, Option.bind_eq_some_iff] at h
    obtain ⟨q, hq, r, hr, hp⟩ := h
    rw [← Option.some.inj hp]
    exact hC.add (iha (fun name hname ↦ hvar name (by simp [Expr.subterms, hname])) hq)
      (ihb (fun name hname ↦ hvar name (by simp [Expr.subterms, hname])) hr)
  | sub a b iha ihb =>
    simp only [ofExpr?, Option.bind_eq_bind, Option.bind_eq_some_iff] at h
    obtain ⟨q, hq, r, hr, hp⟩ := h
    rw [← Option.some.inj hp]
    exact hC.sub (iha (fun name hname ↦ hvar name (by simp [Expr.subterms, hname])) hq)
      (ihb (fun name hname ↦ hvar name (by simp [Expr.subterms, hname])) hr)
  | mul a b iha ihb =>
    simp only [ofExpr?, Option.bind_eq_bind, Option.bind_eq_some_iff] at h
    obtain ⟨q, hq, r, hr, hp⟩ := h
    exact hC.mul? (iha (fun name hname ↦ hvar name (by simp [Expr.subterms, hname])) hq)
      (ihb (fun name hname ↦ hvar name (by simp [Expr.subterms, hname])) hr) hp
  | div a b iha ihb =>
    simp only [ofExpr?, Option.bind_eq_bind, Option.bind_eq_some_iff] at h
    obtain ⟨q, hq, r, hr, hp⟩ := h
    exact hC.div? (iha (fun name hname ↦ hvar name (by simp [Expr.subterms, hname])) hq)
      (ihb (fun name hname ↦ hvar name (by simp [Expr.subterms, hname])) hr) hp
  | pow a b iha _ =>
    simp only [ofExpr?, Option.bind_eq_bind, Option.bind_eq_some_iff] at h
    obtain ⟨q, hq, r, _, hp⟩ := h
    obtain ⟨c, _, hp⟩ := Option.bind_eq_some_iff.1 hp
    exact hC.powNumber? (iha (fun name hname ↦ hvar name (by simp [Expr.subterms, hname])) hq) hp
  | neg a iha =>
    simp only [ofExpr?, Option.bind_eq_bind, Option.bind_eq_some_iff] at h
    obtain ⟨q, hq, hp⟩ := h
    rw [← Option.some.inj hp]
    exact hC.neg (iha (fun name hname ↦ hvar name (by simp [Expr.subterms, hname])) hq)
  | pos a iha | group a iha =>
    exact iha (fun name hname ↦ hvar name (by simp [Expr.subterms, hname])) h
  | sqrt a iha =>
    simp only [ofExpr?, Option.bind_eq_bind, Option.bind_eq_some_iff] at h
    obtain ⟨q, hq, hp⟩ := h
    exact hC.powNumber? (iha (fun name hname ↦ hvar name (by simp [Expr.subterms, hname])) hq) hp

theorem isClosed_isOrderly (hP : Monomial.IsClosed P) : IsClosed (IsOrderly P) where
  ofNumber v := isOrderly_ofNumber hP v
  add hp hq := hp.add hq
  sub hp hq := hp.sub hq
  neg hp := hp.neg
  mul? hp hq h := hp.mul? hP hq h
  div? hp hq h := hp.div? hP hq h
  powNumber? hp h := hp.powNumber? hP h

theorem isOrderly_of_ofExpr? {e : Expr} (hP : Monomial.IsClosed P)
    (hvar : ∀ name, Expr.var name ∈ e.subterms → P (.ofName name)) (h : ofExpr? e = some p) :
    p.IsOrderly P :=
  (isClosed_isOrderly hP).of_ofExpr?
    (fun name hname ↦ isOrderly_combine_singleton (hvar name hname)) h

end SchoolAlgebra.Polynomial
