import Mathlib
import SchoolAlgebra.Proofs.Polynomial.ExactCoefficients

/-!
# Polynomials with integers as coefficients

Integers stay integers under sums, products and whole powers, as long as no result leaves the words.
A polynomial whose coefficients are integers other than zero, with canonical monomials in ascending
order, is determined by the element of the polynomial ring that it denotes.
-/

namespace SchoolAlgebra

namespace Number

/-- Whether the number is an integer. -/
def IsInteger (a : Number) : Prop := ∃ v, a = integer v

theorem isInteger_of_isExact {result : Option Int64} {x : Float}
    (h : ((result.map integer).getD (float x)).isExact = true) :
    ((result.map integer).getD (float x)).IsInteger := by
  cases result with
  | none => simp [isExact] at h
  | some v => exact ⟨v, rfl⟩

theorem IsInteger.add {a b : Number} (ha : a.IsInteger) (hb : b.IsInteger)
    (h : (a + b).isExact = true) : (a + b).IsInteger := by
  obtain ⟨v, rfl⟩ := ha
  obtain ⟨w, rfl⟩ := hb
  exact isInteger_of_isExact h

theorem IsInteger.mul {a b : Number} (ha : a.IsInteger) (hb : b.IsInteger)
    (h : (a * b).isExact = true) : (a * b).IsInteger := by
  obtain ⟨v, rfl⟩ := ha
  obtain ⟨w, rfl⟩ := hb
  exact isInteger_of_isExact h

theorem IsInteger.neg {a : Number} (ha : a.IsInteger) (h : (-a).isExact = true) :
    (-a).IsInteger := by
  obtain ⟨v, rfl⟩ := ha
  exact isInteger_of_isExact h

theorem IsInteger.powWhole? {a c : Number} {n : ℕ} (ha : a.IsInteger)
    (h : a.powWhole? n = some c) (hc : c.isExact = true) : c.IsInteger := by
  obtain ⟨v, rfl⟩ := ha
  unfold Number.powWhole? at h
  dsimp only at h
  rw [if_pos (Int.natCast_nonneg n)] at h
  rw [← Option.some.inj h] at hc ⊢
  exact isInteger_of_isExact hc

theorem IsInteger.simplified {a : Number} (ha : a.IsInteger) : a.simplified = a := by
  obtain ⟨v, rfl⟩ := ha
  rfl

theorem isRingClosed_isInteger : IsRingClosed IsInteger where
  integer v := ⟨v, rfl⟩
  neg ha hexact := ha.neg hexact
  add ha hb hexact := ha.add hb hexact
  mul ha hb hexact := ha.mul hb hexact
  powWhole? h ha hexact := ha.powWhole? h hexact
  simplified ha := ha.simplified.symm ▸ ha

theorem IsInteger.isExact {a : Number} (ha : a.IsInteger) : a.isExact = true := by
  obtain ⟨v, rfl⟩ := ha
  rfl

end Number

namespace Polynomial

variable {p q : Polynomial}

/-- Whether all coefficients are integers other than zero. -/
def HasIntegerCoefficients (p : Polynomial) : Prop :=
  ∀ t ∈ p.terms, t.coefficient.IsInteger ∧ t.coefficient.value ≠ 0

theorem hasIntegerCoefficients_iff :
    p.HasIntegerCoefficients ↔ p.HasCoefficients Number.IsInteger :=
  forall₂_congr fun _ _ ↦
    ⟨fun ⟨hinteger, hne⟩ ↦ ⟨hinteger.isExact, hne, hinteger⟩,
      fun ⟨_, hne, hinteger⟩ ↦ ⟨hinteger, hne⟩⟩

theorem HasCoefficients.powNumber?_of_nonneg {n : Int64} {r : Polynomial} (hn : 0 ≤ n.toInt)
    (hp : p.HasCoefficients Number.IsInteger) (h : p.powNumber? (.integer n) = some r)
    (hexact : ∀ c ∈ p.powNumberCoefficients (.integer n), c.isExact = true) :
    r.HasCoefficients Number.IsInteger := by
  rcases eq_of_powNumber? h with ⟨base, c, hbase, hc, hr, hcoefficients⟩ |
    ⟨_, ⟨_, k, _, _, hpow, hcoefficients⟩ | ⟨f, _, _, hf, _⟩⟩
  · obtain ⟨k, hk⟩ := Int.eq_ofNat_of_zero_le hn
    rw [hcoefficients, List.forall_mem_singleton] at hexact
    rw [Number.pow?, hk] at hc
    rw [hr]
    exact hasCoefficients_combine_singleton Number.isRingClosed_isInteger hexact
      ((of_constant? Number.isRingClosed_isInteger hp hbase).powWhole? hc hexact)
  · rw [hcoefficients] at hexact
    exact hp.powWhole? Number.isRingClosed_isInteger hpow hexact
  · exact absurd hf Number.noConfusion

/--
The terms are determined by the polynomial that they denote, since the value of an integer is
written in one way.
-/
theorem terms_eq_of_toMvPolynomial_eq (hp : p.IsOrderly Monomial.IsCanonical)
    (hq : q.IsOrderly Monomial.IsCanonical) (hpint : p.HasIntegerCoefficients)
    (hqint : q.HasIntegerCoefficients) (h : p.toMvPolynomial = q.toMvPolynomial) :
    p.terms = q.terms := by
  have hrestored : ∀ {r : Polynomial}, r.HasIntegerCoefficients →
      r.valuedMonomials.map (fun a ↦ ⟨.integer (.ofInt a.2.num), a.1⟩) = r.terms := by
    intro r hr
    rw [valuedMonomials, List.map_map]
    refine (List.map_congr_left fun t ht ↦ ?_).trans (List.map_id _)
    obtain ⟨v, hv⟩ := (hr t ht).1
    obtain ⟨c, m⟩ := t
    dsimp only at hv
    simp [hv, Number.value_eq (Number.toRat?_integer v)]
  have hsame := valuedMonomials_eq_of_toMvPolynomial_eq hp hq (hasIntegerCoefficients_iff.1 hpint)
    (hasIntegerCoefficients_iff.1 hqint) h
  rw [← hrestored hpint, ← hrestored hqint, hsame]

end Polynomial

end SchoolAlgebra
