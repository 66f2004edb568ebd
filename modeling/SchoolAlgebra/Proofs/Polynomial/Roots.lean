import Mathlib
import SchoolAlgebra.Proofs.Number.PowerLimits
import SchoolAlgebra.Proofs.Polynomial.SingleTerms

/-!
# Roots of single terms

A power with a fraction as exponent is taken of the coefficient and of the exponents separately. If
the coefficient of the result is exact, both are powers with the same exponent in lowest terms: the
power of the result that the denominator gives is the power of the polynomial that the numerator
gives, and the numerator is positive, because the exponent of a variable cannot change its sign. A
square has a root in turn. Its exponents are even, and its coefficient is the square of a rational
whose magnitude is found again.
-/

namespace SchoolAlgebra

open MvPolynomial (monomial)

namespace Monomial

variable {a m : Monomial}

/-- A monomial whose exponents are multiples has the root of that order. -/
theorem IsCanonical.root?_eq_some (ha : a.IsCanonical) (hm : m.IsCanonical) {n : Int64}
    (hn : 0 < n.toInt) (h : ∀ name, (m.exponent name : ℤ) = a.exponent name * n.toInt) :
    m.root? 1 n = some a := by
  have hscaled : ∀ name, scaledExponent? (m.exponent name) 1 n = some (a.exponent name) := by
    intro name
    have hlt := hm.exponent_lt_size name
    have hsize : UInt32.size = 4294967296 := rfl
    have hmin : Int64.minValue.toInt = -9223372036854775808 := rfl
    have hmax : Int64.maxValue.toInt = 9223372036854775807 := rfl
    have hone : (1 : Int64).toInt = 1 := rfl
    have hword : Word.int64? (m.exponent name * (1 : Int64).toInt) =
        some (Int64.ofInt (m.exponent name)) := by
      rw [hone, mul_one]
      exact if_pos ⟨by omega, by omega⟩
    have hvalue : (Int64.ofInt (m.exponent name)).toInt = m.exponent name := by
      rw [Word.int64?_eq_some_iff.1 hword, hone, mul_one]
    have hquotient : (m.exponent name : ℤ) / n.toInt = a.exponent name := by
      rw [h, Int.mul_ediv_cancel _ hn.ne']
    have hdvd : n.toInt ∣ (m.exponent name : ℤ) := Dvd.intro_left _ (h name).symm
    simp only [scaledExponent?, hword, Option.bind_eq_bind, Option.bind_some, hvalue]
    rw [if_pos ⟨Int.natCast_nonneg _, hdvd⟩, hquotient, Int.toNat_natCast]
  have hroots : (m.names.all fun name ↦ (scaledExponent? (m.exponent name) 1 n).isSome) = true := by
    rw [List.all_eq_true]
    intro name _
    rw [hscaled, Option.isSome_some]
  have hsome : m.root? 1 n ≠ none := by
    rw [root?, if_pos hroots, ne_eq, ofExponents?_eq_none_iff]
    rintro ⟨name, _, hsize⟩
    rw [hscaled, Option.getD_some] at hsize
    exact absurd hsize (Nat.not_le.2 (ha.exponent_lt_size name))
  obtain ⟨b, hb⟩ := Option.ne_none_iff_exists'.1 hsome
  have hbcanonical := isClosed_isCanonical.root? hb hm
  have hexponent : ∀ name, b.exponent name = a.exponent name := by
    intro name
    have hscale := exponent_of_root? hb hn.le name
    rw [h, show (1 : Int64).toInt = 1 from rfl, mul_one] at hscale
    exact_mod_cast mul_right_cancel₀ hn.ne' hscale
  rw [hb, hbcanonical.eq_of_exponent_eq ha hexponent]

end Monomial

namespace Polynomial

variable {p q : Polynomial} {r t : Term} {f : Fraction}

/-- The variables of a single term that is no constant occur with powers. -/
theorem exists_exponent_ne_zero (hp : p.IsCanonical) (hconstant : p.constant? = none)
    (hterms : p.terms = [t]) : ∃ name, t.monomial.exponent name ≠ 0 := by
  have hvariables : t.monomial.factors ≠ [] := by
    intro hnil
    have hone : t.isConstant = true := List.isEmpty_iff.2 hnil
    simp [constant?, hterms, hone] at hconstant
  obtain ⟨v, hv⟩ := List.exists_mem_of_ne_nil _ hvariables
  have hmonomial := hp.isOrderly.monomial (hterms ▸ List.mem_singleton_self t)
  refine ⟨v.name, ?_⟩
  rw [hmonomial.exponent_eq_power hv]
  exact fun hzero ↦ hmonomial.power_ne_zero v hv (UInt32.toNat_inj.1 hzero)

theorem constant?_eq_none_of_terms (hterms : p.terms = [t]) {name : String}
    (h : t.monomial.exponent name ≠ 0) : p.constant? = none := by
  have hvariables : t.isConstant = false := by
    cases hone : t.isConstant with
    | false => rfl
    | true =>
      have hnil : t.monomial.factors = [] := List.isEmpty_iff.1 hone
      rw [Monomial.exponent, hnil] at h
      exact absurd rfl h
  simp [constant?, hterms, hvariables]

/-- A combined term has a coefficient that is exact only if its own is. -/
theorem eq_of_exact_mem_combine_singleton
    (h : ∃ s ∈ (combine [t]).terms, s.coefficient.isExact = true) :
    combine [t] = ⟨[t.simplified]⟩ ∧ t.coefficient.isExact = true := by
  obtain ⟨s, hs, hexact⟩ := h
  cases hneg : t.isNegligible with
  | true =>
    rw [combine_singleton_of_isNegligible hneg] at hs
    exact absurd hs List.not_mem_nil
  | false =>
    have hterms := combine_singleton hneg
    rw [hterms, List.mem_singleton] at hs
    rw [hs, Term.simplified, Number.isExact_iff, Number.toRat?_simplified,
      ← Number.isExact_iff] at hexact
    exact ⟨hterms, hexact⟩

theorem toInt64?_of_one_lt_den (h : 1 < f.toRat.den) : (Number.fraction f).toInt64? = none :=
  if_neg (ne_of_gt h)

/-- A power with a proper fraction as exponent is the power of a single term. -/
theorem eq_of_powNumber?_fraction (hconstant : p.constant? = none) (hf : 1 < f.toRat.den)
    (h : p.powNumber? (.fraction f) = some q) :
    ∃ t, p.singleTerm? = some t ∧ rootTerm? t f = some q := by
  rcases eq_of_powNumber? h with ⟨_, _, hbase, _⟩ |
    ⟨_, ⟨_, _, hn, _⟩ | ⟨g, t, _, hg, ht, hroot, _⟩⟩
  · simp [hconstant] at hbase
  · simp [toInt64?_of_one_lt_den hf] at hn
  · rw [← Number.fraction.inj hg] at hroot
    exact ⟨t, ht, hroot⟩

theorem num_pos_of_root? {m : Monomial} {num den : Int64} {a : Monomial}
    (h : a.root? num den = some m) (hnum : num.toInt = f.toRat.num)
    (hden : den.toInt = (f.toRat.den : ℤ)) (hf : 1 < f.toRat.den) {name : String}
    (hname : a.exponent name ≠ 0) : 0 < f.toRat.num := by
  have hscale := Monomial.exponent_of_root? h (hden ▸ Int.natCast_nonneg _) name
  rw [hnum, hden] at hscale
  have hnonneg : 0 ≤ (a.exponent name : ℤ) * f.toRat.num := hscale ▸ by positivity
  have hpos : (0 : ℤ) < a.exponent name := by omega
  have hne : f.toRat.num ≠ 0 := by
    intro hzero
    rw [Rat.num_eq_zero.1 hzero] at hf
    exact absurd hf (by decide)
  exact lt_of_le_of_ne (nonneg_of_mul_nonneg_right hnonneg hpos) hne.symm

/-- The power that the denominator gives is the power that the numerator gives. -/
theorem pow_den_eq_pow_num (hp : p.IsCanonical) (hconstant : p.constant? = none)
    (hf : 1 < f.toRat.den) (h : p.powNumber? (.fraction f) = some q)
    (hexact : ∃ t ∈ q.terms, t.coefficient.isExact = true) :
    ∃ s t, p.terms = [s] ∧ q.terms = [t] ∧ 0 < f.toRat.num ∧
      q.toMvPolynomial ^ f.toRat.den = p.toMvPolynomial ^ f.toRat.num.toNat := by
  obtain ⟨s, hs, hroot⟩ := eq_of_powNumber?_fraction hconstant hf h
  obtain ⟨num, den, m, c, hnum, hden, hm, hc, hq, _⟩ := eq_of_rootTerm? hroot
  have hterms := terms_of_singleTerm? hs
  obtain ⟨name, hname⟩ := exists_exponent_ne_zero hp hconstant hterms
  have hpos := num_pos_of_root? hm hnum hden hf hname
  rw [hq] at hexact
  obtain ⟨hsimplified, hcexact⟩ := eq_of_exact_mem_combine_singleton hexact
  have hqterms := congrArg terms (hq.trans hsimplified)
  refine ⟨s, _, hterms, hqterms, hpos, ?_⟩
  have hexponents : f.toRat.den • m.exponents = f.toRat.num.toNat • s.monomial.exponents := by
    ext name
    have hscale := Monomial.exponent_of_root? hm (hden ▸ Int.natCast_nonneg _) name
    rw [hnum, hden, ← Int.toNat_of_nonneg hpos.le] at hscale
    simp only [Finsupp.smul_apply, smul_eq_mul, Monomial.exponents_apply]
    rw [mul_comm, mul_comm f.toRat.num.toNat]
    exact_mod_cast hscale
  obtain ⟨x, hx, _, hpow, _⟩ := Number.isPower_of_powFraction? hc (Number.toRat?_eq_value hcexact)
  have hvalue : c.value ^ f.toRat.den = s.coefficient.value ^ f.toRat.num.toNat := by
    rw [hpow, Number.value_eq hx, ← zpow_natCast, Int.toNat_of_nonneg hpos.le]
  rw [hq, toMvPolynomial_combine_singleton hcexact, toMvPolynomial_of_singleTerm? hs,
    Term.toMvPolynomial, Term.toMvPolynomial, MvPolynomial.monomial_pow,
    MvPolynomial.monomial_pow, hexponents, hvalue]

/-! ## Square roots of squares -/

theorem definite?_eq_some {c : Number} {x : ℚ} (h : c.toRat? = some x) : definite? c = some c := by
  have hnan : c.isNaN = false := by cases c <;> simp_all [Number.isNaN]
  rw [definite?, if_neg (by simp [hnan])]

/-- The square of a single term is a single term. -/
theorem eq_combine_of_mul?_self (hterms : p.terms = [r]) (h : p.mul? p = some q) :
    ∃ m, r.monomial.mul? r.monomial = some m ∧
      q = combine [⟨r.coefficient * r.coefficient, m⟩] := by
  obtain ⟨products, hproducts, hq, _⟩ := eq_of_mul? h
  rw [hterms] at hproducts
  cases hsquare : r.mul? r with
  | none => simp [products?, hsquare] at hproducts
  | some square =>
    obtain ⟨m, hm, hterm⟩ := Term.eq_of_mul? hsquare
    have hsingle : products = [square] := by
      simpa [products?, hsquare, eq_comm] using hproducts
    exact ⟨m, hm, by rw [hq, hsingle, hterm]⟩

/-- A single term whose exponents are even and whose coefficient is a square has a square root. -/
theorem sqrt?_of_square {s : Polynomial} {a c : Number} {m : Monomial} {x : ℚ}
    (hterms : s.terms = [⟨a, m⟩]) (hconstant : s.constant? = none)
    (ha : a.sqrt? = some c) (hc : c.toRat? = some x) (hx : x ≠ 0) {root : Monomial}
    (hroot : m.root? 1 2 = some root) :
    ∃ q, s.sqrt? = some q ∧ q.terms = [⟨c.simplified, root⟩] := by
  have hnum : Word.int64? Fraction.half.toRat.num = some 1 := by decide +kernel
  have hden : Word.int64? Fraction.half.toRat.den = some 2 := by decide +kernel
  have hword : (Number.fraction .half).toInt64? = none := by decide +kernel
  have hsingle : s.singleTerm? = some ⟨a, m⟩ := by simp [singleTerm?, hterms]
  have hcoefficient : a.powFraction? .half = some c := ha
  have hkept : (Term.mk c root).isNegligible = false := isNegligible_eq_false hc hx
  have hrootTerm : rootTerm? ⟨a, m⟩ .half = some (combine [⟨c, root⟩]) := by
    simp only [rootTerm?, hnum, hden, hroot, hcoefficient, definite?_eq_some hc,
      Option.bind_eq_bind, Option.bind_some]
    rfl
  refine ⟨combine [⟨c, root⟩], ?_, congrArg terms (combine_singleton hkept)⟩
  simp only [sqrt?, powNumber?, hconstant, hword, hsingle, Option.bind_eq_bind, Option.bind_some,
    hrootTerm]

/-- The square root of a square of a single term has its monomial and the magnitude of its
coefficient. -/
theorem sqrt?_of_mul?_self (hp : p.IsCanonical)
    (hpexact : ∀ t ∈ p.terms, t.coefficient.isExact = true) (hconstant : p.constant? = none)
    (hterms : p.terms = [r]) (h : p.mul? p = some q)
    (hexact : ∃ t ∈ q.terms, t.coefficient.isExact = true) :
    ∃ root v, q.sqrt? = some root ∧ root.terms = [⟨v, r.monomial⟩] ∧
      v.toRat? = some |r.coefficient.value| := by
  have hmem : r ∈ p.terms := hterms ▸ List.mem_singleton_self r
  have hmonomial := hp.isOrderly.monomial hmem
  obtain ⟨m, hm, hq⟩ := eq_combine_of_mul?_self hterms h
  have hmcanonical := Monomial.isCanonical_of_ofExponents? hm
  have hdouble : ∀ name, m.exponent name = r.monomial.exponent name + r.monomial.exponent name :=
    fun name ↦ DFunLike.congr_fun (Monomial.exponents_of_mul? hm) name
  rw [hq] at hexact
  obtain ⟨hsimplified, hcexact⟩ := eq_of_exact_mem_combine_singleton hexact
  have hqterms := congrArg terms (hq.trans hsimplified)
  have hne : r.coefficient.value ≠ 0 := (hp.hasCoefficients hpexact r hmem).2.1
  have hsquare : (r.coefficient * r.coefficient).simplified.toRat? =
      some (|r.coefficient.value| ^ 2) := by
    rw [Number.toRat?_simplified, Number.toRat?_eq_value hcexact, (Number.value_mul hcexact).2.2,
      sq_abs, pow_two]
  obtain ⟨c, hc, hcvalue⟩ := Number.exists_sqrt? hsquare (abs_nonneg _)
  obtain ⟨name, hname⟩ := exists_exponent_ne_zero hp hconstant hterms
  have hqconstant : q.constant? = none := by
    have hpower : m.exponent name ≠ 0 := by
      rw [hdouble]
      omega
    exact constant?_eq_none_of_terms hqterms hpower
  have hroot : m.root? 1 2 = some r.monomial := by
    apply hmonomial.root?_eq_some hmcanonical (by decide)
    intro name
    rw [hdouble, show (2 : Int64).toInt = 2 from rfl]
    push_cast
    ring
  obtain ⟨root, hsqrt, hrootTerms⟩ :=
    sqrt?_of_square hqterms hqconstant hc hcvalue (abs_ne_zero.2 hne) hroot
  exact ⟨root, c.simplified, hsqrt, hrootTerms, by rw [Number.toRat?_simplified, hcvalue]⟩

/--
A power of a canonical polynomial with exact coefficients, which is no constant, with a fraction as
exponent that is not whole undoes a power, as long as its coefficient is exact. It is a single term,
as the polynomial is, the exponent is positive, and the power of it that the denominator gives is
the power of the polynomial that the numerator gives. So a square root times itself is the
polynomial. Conversely, a square of a single term, if its coefficient is exact, has a square root,
with the same monomial and the magnitude of the coefficient.
-/
theorem powNumber?_fraction_undoes_power (hp : p.IsCanonical)
    (hpexact : ∀ t ∈ p.terms, t.coefficient.isExact = true) (hconstant : p.constant? = none) :
    (∀ f q, 1 < f.toRat.den → p.powNumber? (.fraction f) = some q →
      (∃ t ∈ q.terms, t.coefficient.isExact = true) →
        ∃ s t, p.terms = [s] ∧ q.terms = [t] ∧ 0 < f.toRat.num ∧
          q.toMvPolynomial ^ f.toRat.den = p.toMvPolynomial ^ f.toRat.num.toNat) ∧
    (∀ q, p.sqrt? = some q → (∃ t ∈ q.terms, t.coefficient.isExact = true) →
      q.toMvPolynomial * q.toMvPolynomial = p.toMvPolynomial) ∧
    ∀ r s, p.terms = [r] → p.mul? p = some s →
      (∃ t ∈ s.terms, t.coefficient.isExact = true) →
        ∃ root v, s.sqrt? = some root ∧ root.terms = [⟨v, r.monomial⟩] ∧
          v.toRat? = some |r.coefficient.value| := by
  refine ⟨fun f q hf h hexact ↦ pow_den_eq_pow_num hp hconstant hf h hexact, fun q h hexact ↦ ?_,
    fun r s hterms h hexact ↦ sqrt?_of_mul?_self hp hpexact hconstant hterms h hexact⟩
  have hden : Fraction.half.toRat.den = 2 := by decide +kernel
  have hnum : Fraction.half.toRat.num.toNat = 1 := by decide +kernel
  obtain ⟨_, _, _, _, _, hpow⟩ := pow_den_eq_pow_num hp hconstant (by rw [hden]; decide) h hexact
  rwa [hden, hnum, pow_two, pow_one] at hpow

/--
The square of `-3/2 * x * y ^ 2` is `9/4 * x ^ 2 * y ^ 4`, whose square root is `3/2 * x * y ^ 2`
and whose power with the exponent `6/4` is `27/8 * x ^ 3 * y ^ 6`.
-/
theorem powNumber?_fraction_undoes_power_of_square :
    ∃ (p s root q : Polynomial) (v : Number),
      p.terms = [⟨.fraction ⟨true, 1, 1, 2, by decide⟩, ⟨[⟨"x", 1⟩, ⟨"y", 2⟩]⟩⟩] ∧
      s.terms = [⟨.fraction ⟨false, 2, 1, 4, by decide⟩, ⟨[⟨"x", 2⟩, ⟨"y", 4⟩]⟩⟩] ∧
      q.terms = [⟨.fraction ⟨false, 3, 3, 8, by decide⟩, ⟨[⟨"x", 3⟩, ⟨"y", 6⟩]⟩⟩] ∧
      p.IsCanonical ∧ s.IsCanonical ∧ p.mul? p = some s ∧ s.sqrt? = some root ∧
      root.terms = [⟨v, ⟨[⟨"x", 1⟩, ⟨"y", 2⟩]⟩⟩] ∧ v.toRat? = some (3 / 2) ∧
      s.powNumber? (.fraction ⟨false, 0, 6, 4, by decide⟩) = some q ∧
      q.toMvPolynomial ^ 2 = s.toMvPolynomial ^ 3 := by
  let p : Polynomial :=
    ⟨[⟨.fraction ⟨true, 1, 1, 2, by decide⟩, ⟨[⟨"x", 1⟩, ⟨"y", 2⟩]⟩⟩]⟩
  let s : Polynomial :=
    ⟨[⟨.fraction ⟨false, 2, 1, 4, by decide⟩, ⟨[⟨"x", 2⟩, ⟨"y", 4⟩]⟩⟩]⟩
  let q : Polynomial :=
    ⟨[⟨.fraction ⟨false, 3, 3, 8, by decide⟩, ⟨[⟨"x", 3⟩, ⟨"y", 6⟩]⟩⟩]⟩
  let f : Fraction := ⟨false, 0, 6, 4, by decide⟩
  have hp : p.IsCanonical := isCanonical_of_ofTerms? (by decide +kernel : ofTerms? p.terms = some p)
  have hs : s.IsCanonical := isCanonical_of_ofTerms? (by decide +kernel : ofTerms? s.terms = some s)
  have hsquare : p.mul? p = some s := by decide +kernel
  have hq : s.powNumber? (.fraction f) = some q := by decide +kernel
  have hden : f.toRat.den = 2 := by decide +kernel
  have hnum : f.toRat.num.toNat = 3 := by decide +kernel
  obtain ⟨hpower, _, _⟩ := powNumber?_fraction_undoes_power hs (by decide) rfl
  obtain ⟨_, _, _, _, _, hpow⟩ := hpower f q (by rw [hden]; decide) hq (by decide)
  rw [hden, hnum] at hpow
  obtain ⟨_, _, hconverse⟩ := powNumber?_fraction_undoes_power hp (by decide) rfl
  obtain ⟨root, v, hroot, hterms, hv⟩ := hconverse _ s rfl hsquare (by decide)
  have hmagnitude : |(Number.fraction ⟨true, 1, 1, 2, by decide⟩).value| = 3 / 2 := by
    decide +kernel
  rw [hmagnitude] at hv
  exact ⟨p, s, root, q, v, rfl, rfl, rfl, hp, hs, hsquare, hroot, hterms, hv, hq, hpow⟩

end Polynomial

end SchoolAlgebra
