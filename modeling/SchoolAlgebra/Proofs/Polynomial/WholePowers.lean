import Mathlib
import SchoolAlgebra.Proofs.Polynomial.Divisibility

/-!
# Whole powers

A power with a whole exponent is the canonical form of the power in the polynomial ring, and it is
absent exactly if a power of a variable, times the exponent, exceeds its word. A single term has its
exponents multiplied. Several terms are multiplied by the binary digits of the exponent, and then
the degrees decide: the degrees of a product add up, because the greatest powers of a variable
cannot cancel. Every product and every square on the way divides the power, so its degrees are no
greater, and none of them exceeds a word that the power does not exceed.
-/

namespace SchoolAlgebra

open MvPolynomial (degreeOf)

namespace Monomial

/-- A canonical monomial has the power unless a power of a variable, multiplied, exceeds a word. -/
theorem IsCanonical.pow?_eq_none_iff {m : Monomial} (hm : m.IsCanonical) {n : ℕ} :
    m.pow? n = none ↔ ∃ f ∈ m.factors, UInt32.size ≤ f.power.toNat * n := by
  rw [pow?, ofExponents?_eq_none_iff]
  constructor
  · rintro ⟨name, hname, hsize⟩
    obtain ⟨f, hf, hfname⟩ := List.mem_map.1 hname
    exact ⟨f, hf, by rwa [← hfname, hm.exponent_eq_power hf] at hsize⟩
  · rintro ⟨f, hf, hsize⟩
    exact ⟨f.name, List.mem_map_of_mem hf, by rwa [hm.exponent_eq_power hf]⟩

end Monomial

namespace Polynomial

variable {p q r result base : Polynomial} {n : ℕ} {f g : MvPolynomial String ℚ}

/-- Whether the polynomial is canonical, has exact coefficients and is not zero. -/
structure IsExactNonzero (p : Polynomial) : Prop where
  isCanonical : p.IsCanonical
  isExact : ∀ t ∈ p.terms, t.coefficient.isExact = true
  terms_ne_nil : p.terms ≠ []

namespace IsExactNonzero

theorem hasCoefficients (hp : p.IsExactNonzero) : p.HasCoefficients fun _ ↦ True :=
  hp.isCanonical.hasCoefficients hp.isExact

theorem toMvPolynomial_ne_zero (hp : p.IsExactNonzero) : p.toMvPolynomial ≠ 0 := by
  obtain ⟨lead, hlead⟩ := exists_leadingTerm? hp.terms_ne_nil
  exact Polynomial.toMvPolynomial_ne_zero hp.isCanonical.isOrderly hp.hasCoefficients hlead

theorem mul? (hp : p.IsExactNonzero) (hq : q.IsExactNonzero) (h : p.mul? q = some r)
    (hexact : ∀ c ∈ p.mulCoefficients q, c.isExact = true) : r.IsExactNonzero := by
  have hproduct := denotes_of_mul? h hexact
  refine ⟨hp.isCanonical.mul? hq.isCanonical h, hproduct.isExact, fun hnil ↦ ?_⟩
  have hzero : r.toMvPolynomial = 0 := by rw [toMvPolynomial, hnil, sumOf_nil]
  rw [hproduct.toMvPolynomial_eq] at hzero
  exact mul_ne_zero hp.toMvPolynomial_ne_zero hq.toMvPolynomial_ne_zero hzero

theorem one : one.IsExactNonzero :=
  ⟨isCanonical_ofNumber _, by decide +kernel, by decide +kernel⟩

end IsExactNonzero

/-- Whether the degree in some variable exceeds a word. -/
def ExceedsWord (f : MvPolynomial String ℚ) : Prop :=
  ∃ name, UInt32.size ≤ degreeOf name f

theorem IsCanonical.not_exceedsWord (hp : p.IsCanonical) : ¬ExceedsWord p.toMvPolynomial := by
  rintro ⟨name, hsize⟩
  exact absurd hsize (Nat.not_le.2 (degreeOf_lt_size hp.isOrderly name))

/-- What exceeds a word exceeds it in every multiple as well. -/
theorem ExceedsWord.mul_right (h : ExceedsWord f) (hf : f ≠ 0) (hg : g ≠ 0) :
    ExceedsWord (f * g) := by
  obtain ⟨name, hsize⟩ := h
  refine ⟨name, hsize.trans ?_⟩
  rw [MvPolynomial.degreeOf_mul_eq hf hg]
  exact Nat.le_add_right _ _

/-- A power of a variable in a term is at most the degree. -/
theorem IsExactNonzero.power_le_degreeOf (hp : p.IsExactNonzero) {t : Term} (ht : t ∈ p.terms)
    {v : VariablePower} (hv : v ∈ t.monomial.factors) :
    v.power.toNat ≤ degreeOf v.name p.toMvPolynomial := by
  rw [← (hp.isCanonical.isOrderly.monomial ht).exponent_eq_power hv]
  exact MvPolynomial.monomial_le_degreeOf v.name
    (hp.hasCoefficients.exponents_mem_support hp.isCanonical.isOrderly ht)

/-- A degree other than zero is a power of the variable in a term. -/
theorem exists_power_eq_degreeOf (hp : p.IsCanonical) {name : String}
    (hdegree : degreeOf name p.toMvPolynomial ≠ 0) :
    ∃ t ∈ p.terms, ∃ v ∈ t.monomial.factors,
      v.power.toNat = degreeOf name p.toMvPolynomial := by
  have hne : p.toMvPolynomial.support.Nonempty := by
    rw [MvPolynomial.support_nonempty]
    rintro hzero
    exact hdegree (by rw [hzero, MvPolynomial.degreeOf_zero])
  obtain ⟨s, hs, hsup⟩ := Finset.exists_mem_eq_sup _ hne fun s : String →₀ ℕ ↦ s name
  obtain ⟨t, ht, hts⟩ := exists_of_mem_support hs
  have hexponent : t.monomial.exponent name = degreeOf name p.toMvPolynomial := by
    rw [MvPolynomial.degreeOf_eq_sup, hsup, ← hts, Monomial.exponents_apply]
  have hname := Monomial.mem_names_of_exponent_ne_zero (hexponent ▸ hdegree)
  obtain ⟨v, hv, hvname⟩ := List.mem_map.1 hname
  refine ⟨t, ht, v, hv, ?_⟩
  rw [← (hp.isOrderly.monomial ht).exponent_eq_power hv, hvname, hexponent]

/-- A power exceeds a word exactly if a power of a variable, times the exponent, exceeds it. -/
theorem IsExactNonzero.exceedsWord_pow_iff (hp : p.IsExactNonzero) :
    ExceedsWord (p.toMvPolynomial ^ n) ↔
      ∃ t ∈ p.terms, ∃ v ∈ t.monomial.factors, UInt32.size ≤ v.power.toNat * n := by
  have hdegree : ∀ name, degreeOf name (p.toMvPolynomial ^ n) =
      n * degreeOf name p.toMvPolynomial :=
    fun name ↦ MvPolynomial.degreeOf_pow_eq name _ n hp.toMvPolynomial_ne_zero
  constructor
  · rintro ⟨name, hsize⟩
    rw [hdegree] at hsize
    have hne : degreeOf name p.toMvPolynomial ≠ 0 := by
      intro hzero
      rw [hzero, mul_zero] at hsize
      exact absurd hsize (by decide)
    obtain ⟨t, ht, v, hv, hpower⟩ := exists_power_eq_degreeOf hp.isCanonical hne
    exact ⟨t, ht, v, hv, by rwa [hpower, mul_comm]⟩
  · rintro ⟨t, ht, v, hv, hsize⟩
    refine ⟨v.name, ?_⟩
    rw [hdegree, mul_comm]
    exact hsize.trans (Nat.mul_le_mul_right n (hp.power_le_degreeOf ht hv))

theorem exceedsWord_of_mul?_eq_none (hp : p.IsExactNonzero) (hq : q.IsExactNonzero)
    (h : p.mul? q = none) : ExceedsWord (p.toMvPolynomial * q.toMvPolynomial) := by
  obtain ⟨a, ha, b, hb, v, hv, w, hw, hname, hsize⟩ :=
    (hp.isCanonical.mul?_eq_none_iff hq.isCanonical).1 h
  refine ⟨v.name, hsize.trans ?_⟩
  rw [MvPolynomial.degreeOf_mul_eq hp.toMvPolynomial_ne_zero hq.toMvPolynomial_ne_zero]
  exact Nat.add_le_add (hp.power_le_degreeOf ha hv) (hname ▸ hq.power_le_degreeOf hb hw)

theorem isReduced_of_mul? (h : p.mul? q = some r)
    (hexact : ∀ c ∈ p.mulCoefficients q, c.isExact = true) :
    ∀ t ∈ r.terms, t.coefficient.IsReduced := by
  obtain ⟨terms, hterms, hr, hcoefficients⟩ := eq_of_mul? h
  rw [hcoefficients] at hexact
  rw [hr]
  apply isReduced_combine hexact
  intro t ht
  obtain ⟨a, _, b, _, hproduct⟩ := exists_of_mem_products? hterms ht
  obtain ⟨m, _, hterm⟩ := Term.eq_of_mul? hproduct
  rw [hterm]
  exact Number.isLowest_mul _ _

/-! ## Products by binary digits -/

theorem IsExactNonzero.of_digit {next : Polynomial} (hresult : result.IsExactNonzero)
    (hbase : base.IsExactNonzero)
    (h : (if n % 2 = 1 then result.mul? base else some result) = some next)
    (hexact : ∀ c ∈ if n % 2 = 1 then result.mulCoefficients base else [], c.isExact = true) :
    next.IsExactNonzero ∧
      next.toMvPolynomial = result.toMvPolynomial * base.toMvPolynomial ^ (n % 2) := by
  have hdigit := digit_cases h hexact
  refine ⟨?_, toMvPolynomial_digit hdigit⟩
  rcases hdigit with ⟨-, hproduct, hproducts⟩ | ⟨-, hsame⟩
  · exact hresult.mul? hbase hproduct hproducts
  · exact hsame ▸ hresult

/--
Where the product by binary digits is absent, the power exceeds a word. Behind the last digit the
digits are those of `n / 2`, for the square of the base.
-/
theorem exceedsWord_of_powFrom?_eq_none (hresult : result.IsExactNonzero)
    (hbase : base.IsExactNonzero) (h : powFrom? result base n = none)
    (hexact : ∀ c ∈ powFromCoefficients result base n, c.isExact = true) :
    ExceedsWord (result.toMvPolynomial * base.toMvPolynomial ^ n) := by
  induction n using Nat.strongRecOn generalizing result base with
  | ind n ih =>
    have hresultne := hresult.toMvPolynomial_ne_zero
    have hbasene := hbase.toMvPolynomial_ne_zero
    by_cases hn : n = 0
    · rw [powFrom?, if_pos hn] at h
      exact absurd h (Option.some_ne_none _)
    rw [powFrom?_eq_bind hn] at h
    rw [powFromCoefficients, if_neg hn, List.forall_mem_append] at hexact
    obtain ⟨hdigit, hexact⟩ := hexact
    cases hnext : if n % 2 = 1 then result.mul? base else some result with
    | none =>
      have hproduct : result.mul? base = none := by
        split at hnext
        · exact hnext
        · exact absurd hnext (Option.some_ne_none _)
      have hsplit : result.toMvPolynomial * base.toMvPolynomial ^ n =
          result.toMvPolynomial * base.toMvPolynomial * base.toMvPolynomial ^ (n - 1) := by
        rw [mul_assoc, mul_pow_sub_one hn]
      rw [hsplit]
      exact (exceedsWord_of_mul?_eq_none hresult hbase hproduct).mul_right
        (mul_ne_zero hresultne hbasene) (pow_ne_zero _ hbasene)
    | some next =>
      obtain ⟨hnextNonzero, hnextValue⟩ := hresult.of_digit hbase hnext hdigit
      have hsplit : result.toMvPolynomial * base.toMvPolynomial ^ n =
          next.toMvPolynomial * (base.toMvPolynomial * base.toMvPolynomial) ^ (n / 2) := by
        rw [hnextValue, ← pow_two, ← pow_mul, mul_assoc, ← pow_add, Nat.mod_add_div]
      rw [hnext, Option.bind_some] at h
      rw [hnext] at hexact
      dsimp only at hexact
      by_cases hhalf : n / 2 = 0
      · rw [if_pos hhalf] at h
        exact absurd h (Option.some_ne_none _)
      rw [if_neg hhalf] at h hexact
      rw [List.forall_mem_append] at hexact
      obtain ⟨hsquares, hexact⟩ := hexact
      rw [hsplit]
      cases hsquare : base.mul? base with
      | none =>
        have hexceeds := exceedsWord_of_mul?_eq_none hbase hbase hsquare
        have hsquarene := mul_ne_zero hbasene hbasene
        rw [← mul_pow_sub_one hhalf, mul_left_comm]
        exact hexceeds.mul_right hsquarene
          (mul_ne_zero hnextNonzero.toMvPolynomial_ne_zero (pow_ne_zero _ hsquarene))
      | some square =>
        rw [hsquare] at h hexact
        rw [← toMvPolynomial_mul? hsquare hsquares]
        exact ih (n / 2) (by omega) hnextNonzero (hbase.mul? hbase hsquare hsquares) h hexact

/-- Products by binary digits that start from a reduced polynomial are reduced. -/
theorem isReduced_of_powFrom? (h : powFrom? result base n = some q)
    (hexact : ∀ c ∈ powFromCoefficients result base n, c.isExact = true)
    (hreduced : ∀ t ∈ result.terms, t.coefficient.IsReduced) :
    ∀ t ∈ q.terms, t.coefficient.IsReduced := by
  apply powFrom?_induction
    (motive := fun result _ _ q ↦ (∀ t ∈ result.terms, t.coefficient.IsReduced) →
      ∀ t ∈ q.terms, t.coefficient.IsReduced) _ _ _ h hexact hreduced
  · intro result base hreduced
    exact hreduced
  · intro result base next hnext _
    exact isReduced_of_mul? hnext.1 hnext.2
  · intro result base next square n q hnext _ _ ih hreduced
    apply ih
    rcases hnext with ⟨_, hproduct, hproducts⟩ | ⟨_, hsame⟩
    · exact isReduced_of_mul? hproduct hproducts
    · exact hsame ▸ hreduced

/-! ## Whole powers -/

theorem isReduced_one : ∀ t ∈ one.terms, t.coefficient.IsReduced := by
  have hterms : one.terms = [⟨.integer 1, .one⟩] := by decide +kernel
  rw [hterms, List.forall_mem_singleton]
  exact ⟨trivial, rfl⟩

/-- A power with a whole exponent is the canonical form of the power in the ring. -/
theorem isFormOf_powWhole? (hp : p.IsExactNonzero) (h : p.powWhole? n = some q)
    (hexact : ∀ c ∈ p.powWholeCoefficients n, c.isExact = true) :
    IsFormOf (p.toMvPolynomial ^ n) q := by
  have hcoefficients :=
    hp.hasCoefficients.powWhole? Number.isClosed_true.toIsRingClosed h hexact
  refine ⟨hp.isCanonical.powWhole? h,
    ⟨fun t ht ↦ (hcoefficients t ht).1, toMvPolynomial_powWhole? h hexact⟩, ?_⟩
  rcases eq_of_powWhole? h with ⟨t, m, c, _, _, hc, hq, hsingle⟩ | ⟨hpow, hproducts⟩
  · rw [hsingle] at hexact
    rw [hq]
    apply isReduced_combine
    · rwa [sums_singleton]
    · exact List.forall_mem_singleton.2 (Number.isLowest_of_powWhole? hc)
  · rw [hproducts] at hexact
    exact isReduced_of_powFrom? hpow hexact isReduced_one

theorem powTerm?_eq_none_iff {t : Term} : powTerm? t n = none ↔ t.monomial.pow? n = none := by
  have hcoefficient : t.coefficient.powWhole? n ≠ none := by
    rw [ne_eq, Number.powWhole?_eq_none_iff]
    rintro ⟨_, hneg⟩
    omega
  obtain ⟨c, hc⟩ := Option.ne_none_iff_exists'.1 hcoefficient
  cases hm : t.monomial.pow? n <;> simp [powTerm?, hm, hc]

/-- A power within the limit of expansion is absent exactly if it exceeds a word. -/
theorem powWhole?_eq_none_iff (hp : p.IsExactNonzero)
    (hlimit : p.singleTerm? = none → n ≤ maxExpandedPower)
    (hexact : ∀ c ∈ p.powWholeCoefficients n, c.isExact = true) :
    p.powWhole? n = none ↔ ExceedsWord (p.toMvPolynomial ^ n) := by
  constructor
  · intro h
    unfold powWhole? at h
    unfold powWholeCoefficients at hexact
    cases ht : p.singleTerm? with
    | some t =>
      rw [ht] at h
      have hmem := mem_of_singleTerm? ht
      obtain ⟨v, hv, hsize⟩ :=
        (hp.isCanonical.isOrderly.monomial hmem).pow?_eq_none_iff.1 (powTerm?_eq_none_iff.1 h)
      exact hp.exceedsWord_pow_iff.2 ⟨t, hmem, v, hv, hsize⟩
    | none =>
      simp only [ht, if_neg (Nat.not_lt.2 (hlimit ht))] at h hexact
      have hexceeds := exceedsWord_of_powFrom?_eq_none .one hp h hexact
      rwa [toMvPolynomial_one, one_mul] at hexceeds
  · intro hexceeds
    rw [Option.eq_none_iff_forall_ne_some]
    intro q hq
    have hform := isFormOf_powWhole? hp hq hexact
    rw [← hform.denotes.toMvPolynomial_eq] at hexceeds
    exact hform.isCanonical.not_exceedsWord hexceeds

/-- The product of equal factors, one after the other. -/
def repeatedProduct? (p : Polynomial) : ℕ → Option Polynomial
  | 0 => some one
  | n + 1 => (p.repeatedProduct? n).bind (·.mul? p)

/-- The coefficients of all products on the way. -/
def repeatedProductCoefficients (p : Polynomial) : ℕ → List Number
  | 0 => []
  | n + 1 =>
    p.repeatedProductCoefficients n ++
      ((p.repeatedProduct? n).map (·.mulCoefficients p)).getD []

/-- A product of equal factors is the canonical form of the power in the ring. -/
theorem isFormOf_repeatedProduct? (hp : p.IsExactNonzero) (h : p.repeatedProduct? n = some q)
    (hexact : ∀ c ∈ p.repeatedProductCoefficients n, c.isExact = true) :
    q.IsExactNonzero ∧ IsFormOf (p.toMvPolynomial ^ n) q := by
  induction n generalizing q with
  | zero =>
    rw [← Option.some.inj h, pow_zero]
    have hone := IsExactNonzero.one
    exact ⟨hone, hone.isCanonical, ⟨hone.isExact, toMvPolynomial_one⟩, isReduced_one⟩
  | succ n ih =>
    obtain ⟨product, hproduct, h⟩ := Option.bind_eq_some_iff.1 h
    rw [repeatedProductCoefficients, hproduct, List.forall_mem_append] at hexact
    obtain ⟨hnonzero, hform⟩ := ih hproduct hexact.1
    have hdenotes := denotes_of_mul? h hexact.2
    rw [hform.denotes.toMvPolynomial_eq, ← pow_succ] at hdenotes
    exact ⟨hnonzero.mul? hp h hexact.2, hnonzero.isCanonical.mul? hp.isCanonical h, hdenotes,
      isReduced_of_mul? h hexact.2⟩

theorem exceedsWord_of_repeatedProduct?_eq_none (hp : p.IsExactNonzero)
    (h : p.repeatedProduct? n = none)
    (hexact : ∀ c ∈ p.repeatedProductCoefficients n, c.isExact = true) :
    ExceedsWord (p.toMvPolynomial ^ n) := by
  induction n with
  | zero => exact absurd h (Option.some_ne_none _)
  | succ n ih =>
    rw [repeatedProductCoefficients, List.forall_mem_append] at hexact
    rw [pow_succ]
    cases hproduct : p.repeatedProduct? n with
    | none =>
      exact (ih hproduct hexact.1).mul_right (pow_ne_zero n hp.toMvPolynomial_ne_zero)
        hp.toMvPolynomial_ne_zero
    | some product =>
      obtain ⟨hnonzero, hform⟩ := isFormOf_repeatedProduct? hp hproduct hexact.1
      rw [repeatedProduct?, hproduct, Option.bind_some] at h
      rw [← hform.denotes.toMvPolynomial_eq]
      exact exceedsWord_of_mul?_eq_none hnonzero hp h

/-- The power by binary digits and the product of equal factors are the same. -/
theorem powWhole?_eq_repeatedProduct? (hp : p.IsExactNonzero)
    (hlimit : p.singleTerm? = none → n ≤ maxExpandedPower)
    (hexact : ∀ c ∈ p.powWholeCoefficients n, c.isExact = true)
    (hrepeated : ∀ c ∈ p.repeatedProductCoefficients n, c.isExact = true) :
    p.powWhole? n = p.repeatedProduct? n := by
  cases h : p.repeatedProduct? n with
  | none =>
    rw [powWhole?_eq_none_iff hp hlimit hexact]
    exact exceedsWord_of_repeatedProduct?_eq_none hp h hrepeated
  | some product =>
    obtain ⟨_, hform⟩ := isFormOf_repeatedProduct? hp h hrepeated
    have hsome : p.powWhole? n ≠ none := by
      rw [ne_eq, powWhole?_eq_none_iff hp hlimit hexact, ← hform.denotes.toMvPolynomial_eq]
      exact hform.isCanonical.not_exceedsWord
    obtain ⟨q, hq⟩ := Option.ne_none_iff_exists'.1 hsome
    rw [hq, (isFormOf_powWhole? hp hq hexact).unique hform]

theorem terms_ne_nil_of_constant?_eq_none (h : p.constant? = none) : p.terms ≠ [] := by
  intro hnil
  simp [constant?, hnil] at h

/-- A polynomial that is no constant has the power with a whole number that is a word. -/
theorem powNumber?_eq_powWhole? {exponent : Number} {k : Int64} (hconstant : p.constant? = none)
    (hk : exponent.toInt64? = some k) (hn : k.toInt = n) (hword : n < UInt32.size) :
    p.powNumber? exponent = p.powWhole? n ∧
      p.powNumberCoefficients exponent = p.powWholeCoefficients n := by
  have hnat : k.toInt.toNat? = some n := Int.mem_toNat?.2 hn
  have hfits : Word.uint32? n = some (UInt32.ofNat n) := if_pos hword
  constructor
  · simp [powNumber?, hconstant, hk, hnat, hfits, Nat.mod_eq_of_lt hword]
  · simp [powNumberCoefficients, hconstant, hk, hnat, hfits, Nat.mod_eq_of_lt hword]

/--
The power of a canonical polynomial with exact coefficients, which is no constant, with a whole
number as exponent, which is at most the limit of expansion if there are several terms, is absent
exactly if a power of a variable, times the exponent, exceeds a word. Otherwise it is the canonical
form of the power in the polynomial ring, and the constant one if the exponent is zero. It is what
multiplication by one factor after the other has as its result. All of this holds as long as the
coefficients that are computed are exact.
-/
theorem powNumber?_eq_repeatedProduct? {exponent : Number} {k : Int64} (hp : p.IsCanonical)
    (hpexact : ∀ t ∈ p.terms, t.coefficient.isExact = true) (hconstant : p.constant? = none)
    (hk : exponent.toInt64? = some k) (hn : k.toInt = n) (hword : n < UInt32.size)
    (hlimit : p.singleTerm? = none → n ≤ maxExpandedPower)
    (hexact : ∀ c ∈ p.powNumberCoefficients exponent, c.isExact = true) :
    (p.powNumber? exponent = none ↔
      ∃ t ∈ p.terms, ∃ v ∈ t.monomial.factors, UInt32.size ≤ v.power.toNat * n) ∧
    (∀ q, p.powNumber? exponent = some q → IsFormOf (p.toMvPolynomial ^ n) q) ∧
    (n = 0 → p.powNumber? exponent = some one) ∧
    ((∀ c ∈ p.repeatedProductCoefficients n, c.isExact = true) →
      p.powNumber? exponent = p.repeatedProduct? n) := by
  have hnonzero : p.IsExactNonzero :=
    ⟨hp, hpexact, terms_ne_nil_of_constant?_eq_none hconstant⟩
  obtain ⟨hpower, hcoefficients⟩ := powNumber?_eq_powWhole? hconstant hk hn hword
  rw [hcoefficients] at hexact
  rw [hpower]
  refine ⟨?_, fun q hq ↦ isFormOf_powWhole? hnonzero hq hexact, ?_,
    powWhole?_eq_repeatedProduct? hnonzero hlimit hexact⟩
  · rw [powWhole?_eq_none_iff hnonzero hlimit hexact, hnonzero.exceedsWord_pow_iff]
  · rintro rfl
    exact powWhole?_eq_repeatedProduct? hnonzero hlimit hexact fun c hc ↦
      absurd hc List.not_mem_nil

/--
The cube of `x - 1/2 * y` is that of repeated multiplication. The power of `2 * x ^ 65536 * y` with
the exponent 65536 would need the exponent `2 ^ 32`, and the power of its coefficient is not
computed.
-/
theorem powNumber?_eq_repeatedProduct?_cube :
    ∃ p q r : Polynomial,
      p.terms = [⟨.integer 1, .ofName "x"⟩, ⟨.fraction ⟨true, 0, 1, 2, by decide⟩, .ofName "y"⟩] ∧
      q.terms = [⟨.integer 1, ⟨[⟨"x", 3⟩]⟩⟩,
        ⟨.fraction ⟨true, 1, 1, 2, by decide⟩, ⟨[⟨"x", 2⟩, ⟨"y", 1⟩]⟩⟩,
        ⟨.fraction ⟨false, 0, 3, 4, by decide⟩, ⟨[⟨"x", 1⟩, ⟨"y", 2⟩]⟩⟩,
        ⟨.fraction ⟨true, 0, 1, 8, by decide⟩, ⟨[⟨"y", 3⟩]⟩⟩] ∧
      r.terms = [⟨.integer 2, ⟨[⟨"x", 65536⟩, ⟨"y", 1⟩]⟩⟩] ∧
      p.IsCanonical ∧ p.powNumber? (.integer 3) = some q ∧ p.repeatedProduct? 3 = some q ∧
      IsFormOf (p.toMvPolynomial ^ 3) q ∧
      r.IsCanonical ∧ r.powNumber? (.integer 65536) = none := by
  let p : Polynomial :=
    ⟨[⟨.integer 1, .ofName "x"⟩, ⟨.fraction ⟨true, 0, 1, 2, by decide⟩, .ofName "y"⟩]⟩
  let q : Polynomial := ⟨[⟨.integer 1, ⟨[⟨"x", 3⟩]⟩⟩,
    ⟨.fraction ⟨true, 1, 1, 2, by decide⟩, ⟨[⟨"x", 2⟩, ⟨"y", 1⟩]⟩⟩,
    ⟨.fraction ⟨false, 0, 3, 4, by decide⟩, ⟨[⟨"x", 1⟩, ⟨"y", 2⟩]⟩⟩,
    ⟨.fraction ⟨true, 0, 1, 8, by decide⟩, ⟨[⟨"y", 3⟩]⟩⟩]⟩
  let r : Polynomial := ⟨[⟨.integer 2, ⟨[⟨"x", 65536⟩, ⟨"y", 1⟩]⟩⟩]⟩
  have hp : p.IsCanonical := isCanonical_of_ofTerms? (by decide +kernel : ofTerms? p.terms = some p)
  have hr : r.IsCanonical := isCanonical_of_ofTerms? (by decide +kernel : ofTerms? r.terms = some r)
  have hq : p.powNumber? (.integer 3) = some q := by decide +kernel
  obtain ⟨_, hform, _, hrepeated⟩ :=
    powNumber?_eq_repeatedProduct? (n := 3) hp (by decide) rfl
      (rfl : (Number.integer 3).toInt64? = some 3) rfl (by decide) (by decide) (by decide +kernel)
  obtain ⟨habsent, _⟩ :=
    powNumber?_eq_repeatedProduct? (n := 65536) hr (by decide) rfl
      (rfl : (Number.integer 65536).toInt64? = some 65536) rfl (by decide) (by decide)
      (by decide +kernel)
  refine ⟨p, q, r, rfl, rfl, rfl, hp, hq, ?_, hform q hq, hr, ?_⟩
  · rw [← hrepeated (by decide +kernel), hq]
  · exact habsent.2 ⟨_, List.mem_cons_self, ⟨"x", 65536⟩, List.mem_cons_self, by decide⟩

end Polynomial

end SchoolAlgebra
