import Mathlib
import SchoolAlgebra.Proofs.Number.ExactPower
import SchoolAlgebra.Proofs.Polynomial.Reduction
import SchoolAlgebra.Proofs.Polynomial.Ring

/-!
# Powers in the polynomial ring

A power with a whole exponent is the power in the polynomial ring. A root of a single term is known
by its values: at a point, the value of the power is the power of the value. A root of even order
needs a point without negative coordinates, because the root of `x ^ 2` is written `x`.
-/

namespace SchoolAlgebra

open MvPolynomial (monomial C X)

theorem IsPower.mul {x y z x' z' : ℚ} (h : IsPower x y z) (h' : IsPower x' y z') :
    IsPower (x * x') y (z * z') := by
  refine ⟨fun hzero ↦ ?_, ?_, fun heven ↦ mul_nonneg (h.2.2 heven) (h'.2.2 heven)⟩
  · rcases mul_eq_zero.1 hzero with hx | hx'
    · exact h.1 hx
    · exact h'.1 hx'
  · rw [mul_pow, mul_zpow, h.2.1, h'.2.1]

/-- A product of powers with exponents that are scaled by a fraction. -/
theorem isPower_prod {s s' : String →₀ ℕ} {y : ℚ} {σ : String → ℚ}
    (h : ∀ name, (s' name : ℤ) * y.den = s name * y.num)
    (hσ : Even y.den → ∀ name, 0 ≤ σ name) :
    IsPower (s.prod fun name n ↦ σ name ^ n) y (s'.prod fun name n ↦ σ name ^ n) := by
  have hden : (0 : ℤ) < y.den := by exact_mod_cast y.den_pos
  have hnonneg : Even y.den → 0 ≤ s'.prod fun name n ↦ σ name ^ n := by
    intro heven
    exact Finset.prod_nonneg fun name _ ↦ pow_nonneg (hσ heven name) _
  have hpow : ∀ (n : ℕ) (u : String →₀ ℕ),
      (u.prod fun name k ↦ σ name ^ k) ^ n = (n • u).prod fun name k ↦ σ name ^ k := by
    intro n u
    calc (u.prod fun name k ↦ σ name ^ k) ^ n = MvPolynomial.eval σ (monomial u 1) ^ n := by
          rw [MvPolynomial.eval_monomial, one_mul]
      _ = MvPolynomial.eval σ (monomial (n • u) 1) := by
          rw [← map_pow, MvPolynomial.monomial_pow, one_pow]
      _ = (n • u).prod fun name k ↦ σ name ^ k := by rw [MvPolynomial.eval_monomial, one_mul]
  rcases le_or_gt 0 y.num with hnum | hnum
  · obtain ⟨n, hn⟩ := Int.eq_ofNat_of_zero_le hnum
    refine ⟨fun _ ↦ Rat.num_nonneg.1 hnum, ?_, hnonneg⟩
    have hexponents : y.den • s' = n • s := by
      ext name
      have hname := h name
      rw [hn] at hname
      simp only [Finsupp.smul_apply, smul_eq_mul]
      rw [mul_comm, mul_comm n]
      exact_mod_cast hname
    rw [hn, zpow_natCast, hpow, hpow, hexponents]
  · have hzero : ∀ name, s name = 0 ∧ s' name = 0 := by
      intro name
      have hname := h name
      have hs' : (0 : ℤ) ≤ s' name * y.den := by positivity
      have hs : (s name : ℤ) = 0 := by
        by_contra hne
        have hpos : (0 : ℤ) < s name := by omega
        have hneg := mul_neg_of_pos_of_neg hpos hnum
        omega
      rw [hs, zero_mul] at hname
      have hs'zero := (mul_eq_zero.1 hname).resolve_right hden.ne'
      exact ⟨by exact_mod_cast hs, by exact_mod_cast hs'zero⟩
    have hs : s = 0 := Finsupp.ext fun name ↦ (hzero name).1
    have hs' : s' = 0 := Finsupp.ext fun name ↦ (hzero name).2
    rw [hs, hs', Finsupp.prod_zero_index]
    exact ⟨fun hone ↦ absurd hone one_ne_zero, by simp, fun _ ↦ zero_le_one⟩

namespace Number

theorem value_powWhole? {a c : Number} {n : ℕ} (h : a.powWhole? n = some c)
    (hc : c.isExact = true) : c.value = a.value ^ n := by
  obtain ⟨x, hx, hpow⟩ := isPower_of_powWhole? h (toRat?_eq_value hc)
  rw [value_eq hx, (isPower_intCast.1 hpow).2, zpow_natCast]

theorem toRat?_of_toInt64? {a : Number} {n : Int64} (h : a.toInt64? = some n) :
    a.toRat? = some (n.toInt : ℚ) := by
  cases a with
  | integer v => rw [toRat?_integer, Option.some.inj h]
  | float x => simp [toInt64?] at h
  | fraction f =>
    obtain ⟨hden, hn⟩ := Option.ite_none_right_eq_some.1 h
    rw [toRat?_fraction, Word.int64?_eq_some_iff.1 hn, Rat.coe_int_num_of_den_eq_one hden]

end Number

namespace Polynomial

variable {p q : Polynomial}

theorem toMvPolynomial_ofNumber {v : Number} (h : v.isExact = true) :
    (ofNumber v).toMvPolynomial = C v.value :=
  toMvPolynomial_combine_singleton (t := .constant v) h

theorem toMvPolynomial_one : one.toMvPolynomial = 1 := by
  rw [one, toMvPolynomial_ofNumber rfl, Number.value_eq (Number.toRat?_integer 1)]
  exact map_one C

theorem toMvPolynomial_ofName (name : String) : (ofName name).toMvPolynomial = X name := by
  rw [ofName, toMvPolynomial_combine_singleton rfl, Term.toMvPolynomial,
    Monomial.exponents_ofName, Number.value_eq (Number.toRat?_integer 1)]
  rfl

theorem toMvPolynomial_of_singleTerm? {t : Term} (h : p.singleTerm? = some t) :
    p.toMvPolynomial = t.toMvPolynomial := by
  unfold singleTerm? at h
  split at h
  · rename_i s hterms
    rw [toMvPolynomial, hterms, sumOf_cons, sumOf_nil, add_zero, Option.some.inj h]
  · simp at h

theorem toMvPolynomial_of_constant? {v : Number} (h : p.constant? = some v) :
    p.toMvPolynomial = C v.value := by
  unfold constant? at h
  split at h
  · rename_i hterms
    rw [toMvPolynomial, hterms, ← Option.some.inj h, Number.value_eq (Number.toRat?_integer 0)]
    simp
  · rename_i t hterms
    obtain ⟨hconstant, hv⟩ := Option.ite_none_right_eq_some.1 h
    have hone : t.monomial = .one := congrArg Monomial.mk (List.isEmpty_iff.1 hconstant)
    rw [toMvPolynomial, hterms, sumOf_cons, sumOf_nil, add_zero, Term.toMvPolynomial, hone,
      Option.some.inj hv]
    rfl
  · simp at h

/-- A binary digit of the exponent contributes its power of the base. -/
theorem toMvPolynomial_digit {result base next : Polynomial} {n : ℕ}
    (h : n % 2 = 1 ∧ result.mul? base = some next ∧
        (∀ c ∈ result.mulCoefficients base, c.isExact = true) ∨ n % 2 = 0 ∧ next = result) :
    next.toMvPolynomial = result.toMvPolynomial * base.toMvPolynomial ^ (n % 2) := by
  rcases h with ⟨hodd, hproduct, hproducts⟩ | ⟨heven, hsame⟩
  · rw [toMvPolynomial_mul? hproduct hproducts, hodd, pow_one]
  · rw [hsame, heven, pow_zero, mul_one]

/-- The binary digits of the exponent that are still to come make up the rest of the power. -/
theorem toMvPolynomial_powFrom? {result base : Polynomial} {n : ℕ}
    (h : powFrom? result base n = some q)
    (hexact : ∀ c ∈ powFromCoefficients result base n, c.isExact = true) :
    q.toMvPolynomial = result.toMvPolynomial * base.toMvPolynomial ^ n := by
  apply powFrom?_induction
    (motive := fun result base n q ↦
      q.toMvPolynomial = result.toMvPolynomial * base.toMvPolynomial ^ n) _ _ _ h hexact
  · intro result base
    rw [pow_zero, mul_one]
  · intro result base next hnext
    rw [toMvPolynomial_mul? hnext.1 hnext.2, pow_one]
  · intro result base next square n q hnext hsquare hsquared hq
    calc q.toMvPolynomial = next.toMvPolynomial * square.toMvPolynomial ^ (n / 2) := hq
      _ = result.toMvPolynomial * (base.toMvPolynomial ^ (n % 2) *
            base.toMvPolynomial ^ (2 * (n / 2))) := by
          rw [toMvPolynomial_digit hnext, toMvPolynomial_mul? hsquare hsquared, mul_assoc, pow_mul,
            pow_two]
      _ = result.toMvPolynomial * base.toMvPolynomial ^ n := by
          rw [← pow_add, Nat.mod_add_div]

/-- The power with a whole exponent is the power in the polynomial ring. -/
theorem toMvPolynomial_powWhole? {n : ℕ} (h : p.powWhole? n = some q)
    (hexact : ∀ c ∈ p.powWholeCoefficients n, c.isExact = true) :
    q.toMvPolynomial = p.toMvPolynomial ^ n := by
  rcases eq_of_powWhole? h with ⟨t, m, c, ht, hm, hc, hq, hcoefficients⟩ | ⟨hpow, hcoefficients⟩
  · rw [hcoefficients, List.forall_mem_singleton] at hexact
    rw [hq, toMvPolynomial_combine_singleton hexact, toMvPolynomial_of_singleTerm? ht,
      Term.toMvPolynomial, Term.toMvPolynomial, MvPolynomial.monomial_pow,
      Monomial.exponents_of_pow? hm, Number.value_powWhole? hc hexact]
  · rw [hcoefficients] at hexact
    rw [toMvPolynomial_powFrom? hpow hexact, toMvPolynomial_one, one_mul]

theorem isPower_of_rootTerm? {t : Term} {f : Fraction} (h : rootTerm? t f = some q)
    (hexact : ∀ c, t.coefficient.powFraction? f = some c → c.isExact = true) {σ : String → ℚ}
    (hσ : Even f.toRat.den → ∀ name, 0 ≤ σ name) :
    IsPower (MvPolynomial.eval σ t.toMvPolynomial) f.toRat
      (MvPolynomial.eval σ q.toMvPolynomial) := by
  obtain ⟨num, den, m, c, hnum, hden, hm, hc, hq, _⟩ := eq_of_rootTerm? h
  rw [hq, toMvPolynomial_combine_singleton (hexact c hc), Term.toMvPolynomial,
    Term.toMvPolynomial, MvPolynomial.eval_monomial, MvPolynomial.eval_monomial]
  apply IsPower.mul
  · obtain ⟨x, hx, hpow⟩ := Number.isPower_of_powFraction? hc (Number.toRat?_eq_value (hexact c hc))
    rw [Number.value_eq hx]
    exact hpow
  · apply isPower_prod _ hσ
    intro name
    have hroot := Monomial.exponent_of_root? hm (hden ▸ Int.natCast_nonneg _) name
    rwa [hnum, hden] at hroot

/-- At a point, the value of the power is the power of the value. -/
theorem isPower_of_powNumber? {exponent : Number} (h : p.powNumber? exponent = some q)
    (hexact : ∀ c ∈ p.powNumberCoefficients exponent, c.isExact = true) {σ : String → ℚ}
    (hσ : p.constant? = none → ∀ y, exponent.toRat? = some y → Even y.den →
      ∀ name, 0 ≤ σ name) :
    IsPower (MvPolynomial.eval σ p.toMvPolynomial) exponent.value
      (MvPolynomial.eval σ q.toMvPolynomial) := by
  rcases eq_of_powNumber? h with ⟨base, c, hbase, hc, hq, hcoefficients⟩ |
    ⟨hnone, ⟨n, k, hn, hk, hpow, hcoefficients⟩ | ⟨f, t, c, hf, ht, hroot, hc, hcoefficients⟩⟩
  · rw [hcoefficients, List.forall_mem_singleton] at hexact
    obtain ⟨x, y, hx, hy, hpow⟩ := Number.isPower_of_pow? hc (Number.toRat?_eq_value hexact)
    rw [toMvPolynomial_of_constant? hbase, hq, toMvPolynomial_ofNumber hexact,
      MvPolynomial.eval_C, MvPolynomial.eval_C, Number.value_eq hx, Number.value_eq hy]
    exact hpow
  · rw [hcoefficients] at hexact
    have hvalue := Number.value_eq (Number.toRat?_of_toInt64? hn)
    rw [hk] at hvalue
    rw [hvalue, toMvPolynomial_powWhole? hpow hexact, isPower_intCast, map_pow, zpow_natCast]
    exact ⟨fun _ ↦ Int.natCast_nonneg k, rfl⟩
  · rw [hcoefficients, List.forall_mem_singleton] at hexact
    have hroot' : ∀ a, t.coefficient.powFraction? f = some a → a.isExact = true := by
      intro a ha
      rw [hc] at ha
      exact Option.some.inj ha ▸ hexact
    subst hf
    rw [toMvPolynomial_of_singleTerm? ht]
    exact isPower_of_rootTerm? hroot hroot' (hσ hnone f.toRat rfl)

end Polynomial

end SchoolAlgebra
