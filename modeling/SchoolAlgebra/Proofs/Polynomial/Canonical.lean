import Mathlib
import SchoolAlgebra.Proofs.Polynomial.Reduction
import SchoolAlgebra.Proofs.Polynomial.Ring

/-!
# Canonical polynomials

A polynomial is canonical in its terms if their monomials are canonical and ascend strictly, and if
no coefficient is an exact zero. Combining terms with canonical monomials makes such a polynomial,
and every operation answers with one, those included that do not combine terms: a change of sign
keeps the monomials and turns no coefficient into zero. So every polynomial that can be obtained is
canonical in its terms.
-/

namespace SchoolAlgebra

namespace Number

/-- Whether the number is the integer zero, or a fraction of which both parts are zero. -/
def IsExactZero : Number → Prop
  | integer v => v = 0
  | fraction f => f.whole = 0 ∧ f.numerator = 0
  | float _ => False

theorem isExactZero_iff {a : Number} : a.IsExactZero ↔ a.toRat? = some 0 := by
  cases a with
  | integer v => simp [IsExactZero, ← Int64.toInt_inj]
  | fraction f =>
    rw [toRat?_fraction, Option.some.injEq, ← f.isZero_iff]
    simp [IsExactZero, Fraction.isZero]
  | float x => simp [IsExactZero]

theorem isExactZero_of_neg {a : Number} (h : (-a).IsExactZero) : a.IsExactZero := by
  obtain ⟨x, hx, hzero⟩ := toRat?_neg (isExactZero_iff.1 h)
  rw [isExactZero_iff, hx, neg_eq_zero.1 hzero.symm]

end Number

theorem Term.isNegligible_of_isExactZero {t : Term} (h : t.coefficient.IsExactZero) :
    t.isNegligible = true := by
  have hvalue := Number.isExactZero_iff.1 h
  have hexact := Number.isExact_of_toRat? hvalue
  rwa [isNegligible, if_pos hexact, Number.isZero_iff hexact]

namespace Polynomial

/-- Whether the terms are canonical, apart from the way in which a coefficient is written. -/
structure IsCanonical (p : Polynomial) : Prop where
  isOrderly : p.IsOrderly Monomial.IsCanonical
  not_isExactZero : ∀ t ∈ p.terms, ¬t.coefficient.IsExactZero

variable {p q r : Polynomial} {terms : List Term}

theorem not_isExactZero_combine (terms : List Term) :
    ∀ t ∈ (combine terms).terms, ¬t.coefficient.IsExactZero := by
  intro t ht hzero
  obtain ⟨s, hs, hst⟩ := List.mem_map.1 ht
  rw [← hst, Term.simplified, Number.isExactZero_iff, Number.toRat?_simplified,
    ← Number.isExactZero_iff] at hzero
  have hkept := (List.mem_filter.1 hs).2
  rw [Term.isNegligible_of_isExactZero hzero] at hkept
  exact absurd hkept Bool.false_ne_true

/-- What is orderly and combined is canonical. -/
theorem IsOrderly.isCanonical (hp : p.IsOrderly Monomial.IsCanonical) (h : p = combine terms) :
    p.IsCanonical :=
  ⟨hp, h ▸ not_isExactZero_combine terms⟩

theorem isCanonical_combine (h : ∀ t ∈ terms, t.monomial.IsCanonical) :
    (combine terms).IsCanonical :=
  (isOrderly_combine h).isCanonical rfl

theorem isCanonical_combine_singleton {t : Term} (h : t.monomial.IsCanonical) :
    (combine [t]).IsCanonical :=
  isCanonical_combine (List.forall_mem_singleton.2 h)

theorem isCanonical_zero : zero.IsCanonical :=
  ⟨⟨.nil, nofun⟩, nofun⟩

theorem isCanonical_ofNumber (v : Number) : (ofNumber v).IsCanonical :=
  isCanonical_combine_singleton Monomial.isClosed_isCanonical.one

theorem isCanonical_ofName (name : String) : (ofName name).IsCanonical :=
  isCanonical_combine_singleton (Monomial.isCanonical_ofName name)

theorem isCanonical_of_ofTerms? (h : ofTerms? terms = some p) : p.IsCanonical := by
  obtain ⟨canonical, hpairs, hp, _⟩ := eq_of_ofTerms? h
  rw [hp]
  apply isCanonical_combine
  intro t ht
  obtain ⟨s, _, m, hm, hterm⟩ := exists_of_mem_forall₂ hpairs ht
  rw [hterm]
  exact Monomial.isCanonical_of_ofExponents? hm

theorem IsCanonical.add (hp : p.IsCanonical) (hq : q.IsCanonical) : (p + q).IsCanonical :=
  (hp.isOrderly.add hq.isOrderly).isCanonical rfl

theorem IsCanonical.neg (hp : p.IsCanonical) : (-p).IsCanonical := by
  refine ⟨hp.isOrderly.neg, fun t ht hzero ↦ ?_⟩
  obtain ⟨s, hs, hst⟩ := List.mem_map.1 ht
  rw [← hst] at hzero
  exact hp.not_isExactZero s hs (Number.isExactZero_of_neg hzero)

theorem IsCanonical.sub (hp : p.IsCanonical) (hq : q.IsCanonical) : (p - q).IsCanonical :=
  hp.add hq.neg

theorem IsCanonical.scale (hp : p.IsCanonical) (factor : Number) : (p.scale factor).IsCanonical :=
  isCanonical_combine (List.forall_mem_map.2 fun t ht ↦ hp.isOrderly.monomial (t := t) ht)

theorem IsCanonical.mul? (hp : p.IsCanonical) (hq : q.IsCanonical) (h : p.mul? q = some r) :
    r.IsCanonical := by
  obtain ⟨_, _, hr, _⟩ := eq_of_mul? h
  exact (hp.isOrderly.mul? Monomial.isClosed_isCanonical hq.isOrderly h).isCanonical hr

theorem IsCanonical.div? (hp : p.IsCanonical) (hq : q.IsCanonical) (h : p.div? q = some r) :
    r.IsCanonical := by
  have horderly := hp.isOrderly.div? Monomial.isClosed_isCanonical hq.isOrderly h
  obtain ⟨_, _, ⟨_, hr, _⟩ | ⟨_, _, _, hr, _⟩⟩ := eq_of_div? h
  · obtain ⟨_, _, hr, _⟩ := eq_of_divNumber? hr
    exact horderly.isCanonical hr
  · exact horderly.isCanonical hr

theorem IsCanonical.powWhole? {n : ℕ} (hp : p.IsCanonical) (h : p.powWhole? n = some r) :
    r.IsCanonical := by
  have horderly := hp.isOrderly.powWhole? Monomial.isClosed_isCanonical h
  rcases eq_of_powWhole? h with ⟨_, _, _, _, _, _, hr, _⟩ | ⟨hr, _⟩
  · exact horderly.isCanonical hr
  · exact of_powFrom? (P := fun _ ↦ True) (fun hp hq h _ ↦ hp.mul? hq h)
      (isCanonical_ofNumber _) hp hr fun _ _ ↦ trivial

theorem IsCanonical.powNumber? {exponent : Number} (hp : p.IsCanonical)
    (h : p.powNumber? exponent = some r) : r.IsCanonical := by
  have horderly := hp.isOrderly.powNumber? Monomial.isClosed_isCanonical h
  rcases eq_of_powNumber? h with ⟨_, c, _, _, hr, _⟩ | ⟨_, ⟨_, _, _, _, hr, _⟩ | hroot⟩
  · exact horderly.isCanonical hr
  · exact hp.powWhole? hr
  · obtain ⟨_, _, _, _, _, hr, _, _⟩ := hroot
    obtain ⟨_, _, _, _, _, _, _, _, hr, _⟩ := eq_of_rootTerm? hr
    exact horderly.isCanonical hr

theorem isClosed_isCanonical : IsClosed IsCanonical where
  ofNumber v := isCanonical_ofNumber v
  add hp hq := hp.add hq
  sub hp hq := hp.sub hq
  neg hp := hp.neg
  mul? hp hq h := hp.mul? hq h
  div? hp hq h := hp.div? hq h
  powNumber? hp h := hp.powNumber? h

/-- Whether the polynomial is the result of some sequence of constructions and operations. -/
inductive IsObtainable : Polynomial → Prop where
  | zero : IsObtainable zero
  | one : IsObtainable one
  | ofNumber (v : Number) : IsObtainable (ofNumber v)
  | ofName (name : String) : IsObtainable (ofName name)
  | ofTerms? {terms : List Term} {p : Polynomial} (h : ofTerms? terms = some p) : IsObtainable p
  | ofExpr? {e : Expr} {p : Polynomial} (h : ofExpr? e = some p) : IsObtainable p
  | add {p q : Polynomial} (hp : IsObtainable p) (hq : IsObtainable q) : IsObtainable (p + q)
  | sub {p q : Polynomial} (hp : IsObtainable p) (hq : IsObtainable q) : IsObtainable (p - q)
  | mul? {p q r : Polynomial} (hp : IsObtainable p) (hq : IsObtainable q)
      (h : p.mul? q = some r) : IsObtainable r
  | neg {p : Polynomial} (hp : IsObtainable p) : IsObtainable (-p)
  | scale {p : Polynomial} (hp : IsObtainable p) (factor : Number) :
      IsObtainable (p.scale factor)
  | div? {p q r : Polynomial} (hp : IsObtainable p) (hq : IsObtainable q)
      (h : p.div? q = some r) : IsObtainable r
  | pow? {p exponent r : Polynomial} (hp : IsObtainable p) (hexponent : IsObtainable exponent)
      (h : p.pow? exponent = some r) : IsObtainable r
  | powNumber? {p r : Polynomial} {exponent : Number} (hp : IsObtainable p)
      (h : p.powNumber? exponent = some r) : IsObtainable r
  | sqrt? {p r : Polynomial} (hp : IsObtainable p) (h : p.sqrt? = some r) : IsObtainable r

/-- What all operations pass on holds for every polynomial that can be obtained. -/
theorem IsClosed.of_isObtainable {C : Polynomial → Prop} (hC : IsClosed C) (hzero : C zero)
    (hname : ∀ name, C (ofName name))
    (hterms : ∀ {terms : List Term} {q : Polynomial}, ofTerms? terms = some q → C q)
    (hscale : ∀ {q : Polynomial} (factor : Number), C q → C (q.scale factor))
    (h : p.IsObtainable) : C p := by
  induction h with
  | zero => exact hzero
  | one => exact hC.ofNumber _
  | ofNumber v => exact hC.ofNumber v
  | ofName name => exact hname name
  | ofTerms? h => exact hterms h
  | ofExpr? h => exact hC.of_ofExpr? (fun name _ ↦ hname name) h
  | add _ _ ihp ihq => exact hC.add ihp ihq
  | sub _ _ ihp ihq => exact hC.sub ihp ihq
  | mul? _ _ h ihp ihq => exact hC.mul? ihp ihq h
  | neg _ ihp => exact hC.neg ihp
  | scale _ factor ihp => exact hscale factor ihp
  | div? _ _ h ihp ihq => exact hC.div? ihp ihq h
  | pow? _ _ h ihp _ =>
    obtain ⟨c, _, hr⟩ := Option.bind_eq_some_iff.1 h
    exact hC.powNumber? ihp hr
  | powNumber? _ h ihp | sqrt? _ h ihp => exact hC.powNumber? ihp h

theorem IsObtainable.isCanonical (h : p.IsObtainable) : p.IsCanonical :=
  isClosed_isCanonical.of_isObtainable isCanonical_zero isCanonical_ofName isCanonical_of_ofTerms?
    (fun factor hq ↦ hq.scale factor) h

theorem IsCanonical.compare_eq_lt (hp : p.IsCanonical) :
    p.terms.Pairwise fun s t ↦ s.compare t = .lt := by
  apply hp.isOrderly.isAscending.imp
  intro s t hlt
  rw [Term.compare, hlt]
  rfl

theorem IsCanonical.nodup_monomials (hp : p.IsCanonical) : (p.terms.map (·.monomial)).Nodup :=
  hp.isOrderly.isAscending.nodup_monomials

/--
In every polynomial that can be obtained, the terms strictly ascend and no two have the same
monomial; the names of a monomial strictly ascend and its powers are at least one; and no
coefficient is an exact zero.
-/
theorem isCanonical_of_isObtainable (h : p.IsObtainable) :
    (p.terms.Pairwise fun s t ↦ s.compare t = .lt) ∧ (p.terms.map (·.monomial)).Nodup ∧
      ∀ t ∈ p.terms, t.monomial.names.Pairwise (· < ·) ∧
        (∀ f ∈ t.monomial.factors, 1 ≤ f.power) ∧ ¬t.coefficient.IsExactZero := by
  have hp := h.isCanonical
  refine ⟨hp.compare_eq_lt, hp.nodup_monomials, fun t ht ↦ ?_⟩
  have hmonomial := hp.isOrderly.monomial ht
  refine ⟨hmonomial.names_pairwise, fun f hf ↦ ?_, hp.not_isExactZero t ht⟩
  rw [UInt32.le_iff_toNat_le]
  apply Nat.one_le_iff_ne_zero.2
  exact fun hzero ↦ hmonomial.power_ne_zero f hf (UInt32.toNat_inj.1 hzero)

/--
The terms `2 * y * x * y`, `0 * z`, `2/4 * x ^ 0` and `3/2 * y ^ 2 * x` add up to
`3 1/2 * x * y ^ 2 + 2/4`, and the square of that is subtracted from zero.
-/
theorem isCanonical_of_isObtainable_square :
    ∃ p : Polynomial,
      p.terms = [⟨.fraction ⟨true, 12, 1, 4, by decide⟩, ⟨[⟨"x", 2⟩, ⟨"y", 4⟩]⟩⟩,
        ⟨.fraction ⟨true, 3, 1, 2, by decide⟩, ⟨[⟨"x", 1⟩, ⟨"y", 2⟩]⟩⟩,
        ⟨.fraction ⟨true, 0, 1, 4, by decide⟩, .one⟩] ∧
      p.IsObtainable ∧ (p.terms.Pairwise fun s t ↦ s.compare t = .lt) ∧
      (p.terms.map (·.monomial)).Nodup ∧
      ∀ t ∈ p.terms, t.monomial.names.Pairwise (· < ·) ∧
        (∀ f ∈ t.monomial.factors, 1 ≤ f.power) ∧ ¬t.coefficient.IsExactZero := by
  let base : Polynomial :=
    ⟨[⟨.fraction ⟨false, 3, 1, 2, by decide⟩, ⟨[⟨"x", 1⟩, ⟨"y", 2⟩]⟩⟩,
      ⟨.fraction ⟨false, 0, 2, 4, by decide⟩, .one⟩]⟩
  let square : Polynomial :=
    ⟨[⟨.fraction ⟨false, 12, 1, 4, by decide⟩, ⟨[⟨"x", 2⟩, ⟨"y", 4⟩]⟩⟩,
      ⟨.fraction ⟨false, 3, 1, 2, by decide⟩, ⟨[⟨"x", 1⟩, ⟨"y", 2⟩]⟩⟩,
      ⟨.fraction ⟨false, 0, 1, 4, by decide⟩, .one⟩]⟩
  have hbase : ofTerms? [⟨.integer 2, ⟨[⟨"y", 1⟩, ⟨"x", 1⟩, ⟨"y", 1⟩]⟩⟩, ⟨.integer 0, .ofName "z"⟩,
      ⟨.fraction ⟨false, 0, 2, 4, by decide⟩, ⟨[⟨"x", 0⟩]⟩⟩,
      ⟨.fraction ⟨false, 0, 3, 2, by decide⟩, ⟨[⟨"y", 2⟩, ⟨"x", 1⟩]⟩⟩] = some base := by
    decide +kernel
  have hsquare : base.mul? base = some square := by decide +kernel
  have h : (zero - square).IsObtainable :=
    .sub .zero (.mul? (.ofTerms? hbase) (.ofTerms? hbase) hsquare)
  exact ⟨zero - square, by decide +kernel, h, isCanonical_of_isObtainable h⟩

end Polynomial

end SchoolAlgebra
