import Mathlib
import SchoolAlgebra.Answer.Comparison
import SchoolAlgebra.Proofs.Number.Distance
import SchoolAlgebra.Proofs.Polynomial.ExactCoefficients
import SchoolAlgebra.Proofs.Polynomial.SingleTerms

/-!
# Comparison with a multiple

A polynomial counts as a multiple of another one if it is near the other one scaled to its own first
coefficient. Where all numbers that this computes are exact, the answer follows the values of the
coefficients, unless one of them is about as far from the scaled one as the tolerance.
-/

namespace SchoolAlgebra.Polynomial

variable {p q : Polynomial} {s t : Term}

/-- The factor and the coefficients that are computed to compare `p` with a multiple of `q`. -/
def multipleCoefficients (p q : Polynomial) : List Number :=
  (do
    let s ← p.leadingTerm?
    let t ← q.leadingTerm?
    let k ← s.coefficient.div? t.coefficient
    return k :: q.scaleCoefficients k).getD []

/-- The value of the first coefficient. -/
def leadingValue (p : Polynomial) : ℚ := (p.leadingTerm?.map (·.coefficient.value)).getD 0

/-- The factor that scales `q` to the first coefficient of `p`. -/
def ratio (p q : Polynomial) : ℚ := p.leadingValue / q.leadingValue

theorem leadingValue_eq (h : p.leadingTerm? = some s) : p.leadingValue = s.coefficient.value := by
  rw [leadingValue, h]
  rfl

/-- An exact multiple has the multiple of each coefficient in its place. -/
theorem terms_scale {k : Number} (hq : ∀ t ∈ q.terms, t.coefficient.value ≠ 0)
    (hascending : IsAscending q.terms) (hk : k.value ≠ 0)
    (hexact : ∀ c ∈ q.scaleCoefficients k, c.isExact = true) :
    (q.scale k).terms = q.terms.map fun t ↦ (t.scale k).simplified := by
  have hterms := List.forall_mem_map.1 (isExact_of_sums hexact)
  rw [scale, terms_combine_of_isAscending, List.map_map]
  · rfl
  · exact List.pairwise_map.2 hascending
  · refine List.forall_mem_map.2 fun t ht ↦ ?_
    have hvalue := Number.toRat?_eq_value (hterms t ht)
    refine isNegligible_eq_false hvalue ?_
    change (t.coefficient * k).value ≠ 0
    rw [(Number.value_mul (hterms t ht)).2.2]
    exact mul_ne_zero (hq t ht) hk

theorem isNear_iff : p.isNear q = true ↔
    List.Forall₂ (fun a b ↦ a.monomial = b.monomial ∧ a.coefficient.isNear b.coefficient = true)
      p.terms q.terms := by
  rw [isNear]
  generalize p.terms = as
  generalize q.terms = bs
  induction as generalizing bs with
  | nil => cases bs <;> simp [areNear]
  | cons a as ih => cases bs <;> simp [areNear, ih]

/-- Terms in the same places are the terms with the same monomials, where none occurs twice. -/
theorem forall₂_monomial_iff {R : Term → Term → Prop} {as bs : List Term}
    (hnodup : (bs.map (·.monomial)).Nodup) :
    List.Forall₂ (fun a b ↦ a.monomial = b.monomial ∧ R a b) as bs ↔
      as.map (·.monomial) = bs.map (·.monomial) ∧
        ∀ a ∈ as, ∀ b ∈ bs, a.monomial = b.monomial → R a b := by
  induction as generalizing bs with
  | nil => cases bs <;> simp
  | cons a as ih =>
    cases bs with
    | nil => simp
    | cons b bs =>
      rw [List.map_cons, List.nodup_cons] at hnodup
      rw [List.forall₂_cons, ih hnodup.2]
      simp only [List.map_cons, List.cons.injEq, List.forall_mem_cons]
      constructor
      · rintro ⟨⟨hmonomial, hrelated⟩, hmonomials, hrest⟩
        refine ⟨⟨hmonomial, hmonomials⟩, ⟨fun _ ↦ hrelated, fun b' hb' heq ↦ ?_⟩,
          fun a' ha' ↦ ⟨fun heq ↦ ?_, hrest a' ha'⟩⟩
        · exact absurd (hmonomial.symm.trans heq ▸ List.mem_map_of_mem hb') hnodup.1
        · exact absurd (heq ▸ hmonomials ▸ List.mem_map_of_mem ha') hnodup.1
      · rintro ⟨⟨hmonomial, hmonomials⟩, ⟨hrelated, _⟩, hrest⟩
        exact ⟨⟨hmonomial, hrelated hmonomial⟩, hmonomials, fun a' ha' ↦ (hrest a' ha').2⟩

/--
Whether `p` is a multiple of `q` by the values of the coefficients: each is that of `q` times the
factor, or differs from it by clearly less than the tolerance.
-/
def Meets (p q : Polynomial) : Prop :=
  p.terms.map (·.monomial) = q.terms.map (·.monomial) ∧
    ∀ a ∈ p.terms, ∀ b ∈ q.terms, a.monomial = b.monomial →
      a.coefficient.value = p.ratio q * b.coefficient.value ∨
        Number.AreClose a.coefficient.value (p.ratio q * b.coefficient.value)

/--
Whether `p` is no multiple of `q` by the values of the coefficients: the monomials are others, or a
coefficient differs from that of `q` times the factor by clearly more than the tolerance.
-/
def Misses (p q : Polynomial) : Prop :=
  p.terms.map (·.monomial) ≠ q.terms.map (·.monomial) ∨
    ∃ a ∈ p.terms, ∃ b ∈ q.terms, a.monomial = b.monomial ∧
      Number.AreApart a.coefficient.value (p.ratio q * b.coefficient.value)

instance (p q : Polynomial) : Decidable (p.Meets q) :=
  inferInstanceAs (Decidable (_ ∧ _))

instance (p q : Polynomial) : Decidable (p.Misses q) :=
  inferInstanceAs (Decidable (_ ∨ _))

/-- Whether `p` is compared with a multiple of `q` by exact numbers only. -/
structure IsComparedExactly (p q : Polynomial) : Prop where
  isAscending : IsAscending q.terms
  left : p.HasCoefficients Number.IsLowest
  right : q.HasCoefficients Number.IsLowest
  isExact : ∀ c ∈ p.multipleCoefficients q, c.isExact = true

/--
In an exact comparison the monomials are the same, and each coefficient is near a number in lowest
terms that has the scaled value.
-/
theorem IsComparedExactly.exists_isMultiple_iff (h : p.IsComparedExactly q)
    (hs : p.leadingTerm? = some s) (ht : q.leadingTerm? = some t) : ∃ scaled : Term → Number,
    (∀ b ∈ q.terms, (scaled b).toRat? = some (p.ratio q * b.coefficient.value) ∧
      (scaled b).IsLowest) ∧
    (p.isMultiple q = true ↔ p.terms.map (·.monomial) = q.terms.map (·.monomial) ∧
      ∀ a ∈ p.terms, ∀ b ∈ q.terms, a.monomial = b.monomial →
        a.coefficient.isNear (scaled b) = true) := by
  have hsvalue := (h.left s (List.mem_of_head? hs)).2.1
  have htvalue := (h.right t (List.mem_of_head? ht)).2.1
  obtain ⟨k, hk⟩ : ∃ k, s.coefficient.div? t.coefficient = some k := by
    rw [← Option.isSome_iff_exists, Option.isSome_iff_ne_none, ne_eq, Number.div?_eq_none_iff]
    exact fun hzero ↦ htvalue (Number.value_eq hzero)
  have hexact := h.isExact
  have hcoefficients : p.multipleCoefficients q = k :: q.scaleCoefficients k := by
    simp [multipleCoefficients, hs, ht, hk]
  rw [hcoefficients, List.forall_mem_cons] at hexact
  have hratio : p.ratio q = s.coefficient.value / t.coefficient.value := by
    rw [ratio, leadingValue_eq hs, leadingValue_eq ht]
  have hvalue : k.value = p.ratio q := by
    rw [hratio, eq_div_iff htvalue]
    exact Number.value_div? hk hexact.1
  have hscaled := terms_scale (fun b hb ↦ (h.right b hb).2.1) h.isAscending
    (hvalue ▸ hratio ▸ div_ne_zero hsvalue htvalue) hexact.2
  have hproducts := List.forall_mem_map.1 (isExact_of_sums hexact.2)
  refine ⟨fun b ↦ (b.coefficient * k).simplified, fun b hb ↦ ?_, ?_⟩
  · have hproduct : (b.coefficient * k).isExact = true := hproducts b hb
    refine ⟨?_, Number.isLowest_simplified (Number.isLowest_mul _ _)⟩
    rw [Number.toRat?_simplified, Number.toRat?_eq_value hproduct,
      (Number.value_mul hproduct).2.2, hvalue, mul_comm]
  · simp only [isMultiple, hs, ht, hk]
    rw [isNear_iff, hscaled, List.forall₂_map_right_iff]
    exact forall₂_monomial_iff h.isAscending.nodup_monomials

theorem IsComparedExactly.isMultiple_of_meets (h : p.IsComparedExactly q)
    (hs : p.leadingTerm? = some s) (ht : q.leadingTerm? = some t) (hmeets : p.Meets q) :
    p.isMultiple q = true := by
  obtain ⟨scaled, hscaled, hiff⟩ := h.exists_isMultiple_iff hs ht
  refine hiff.2 ⟨hmeets.1, fun a ha b hb hmonomial ↦ ?_⟩
  obtain ⟨hvalue, hlowest⟩ := hscaled b hb
  obtain ⟨hexact, _, halowest⟩ := h.left a ha
  have havalue := Number.toRat?_eq_value hexact
  rcases hmeets.2 a ha b hb hmonomial with heq | hclose
  · exact Number.isNear_of_toRat?_eq halowest hlowest hexact (Number.isExact_of_toRat? hvalue)
      (havalue.trans (heq ▸ hvalue.symm))
  · exact Number.isNear_of_areClose havalue hvalue hclose

theorem IsComparedExactly.isMultiple_eq_false_of_misses (h : p.IsComparedExactly q)
    (hs : p.leadingTerm? = some s) (ht : q.leadingTerm? = some t) (hmisses : p.Misses q) :
    p.isMultiple q = false := by
  obtain ⟨scaled, hscaled, hiff⟩ := h.exists_isMultiple_iff hs ht
  rw [← Bool.not_eq_true, hiff]
  rintro ⟨hmonomials, hnear⟩
  obtain ⟨a, ha, b, hb, hmonomial, hapart⟩ := hmisses.resolve_left (not_not_intro hmonomials)
  have hfar := Number.isNear_eq_false_of_areApart (Number.toRat?_eq_value (h.left a ha).1)
    (hscaled b hb).1 hapart
  rw [hnear a ha b hb hmonomial] at hfar
  exact absurd hfar Bool.noConfusion

/-- An exact comparison follows the values, if they decide it. -/
theorem IsComparedExactly.isMultiple_iff (h : p.IsComparedExactly q)
    (hdecided : p.Meets q ∨ p.Misses q) : p.isMultiple q = true ↔ p.Meets q := by
  cases hs : p.leadingTerm? with
  | none =>
    cases ht : q.leadingTerm? with
    | none =>
      simp [isMultiple, hs, ht, Meets, List.head?_eq_none_iff.1 hs, List.head?_eq_none_iff.1 ht]
    | some t =>
      obtain ⟨rest, hq⟩ := List.head?_eq_some_iff.1 ht
      simp [isMultiple, hs, ht, Meets, List.head?_eq_none_iff.1 hs, hq]
  | some s =>
    obtain ⟨rest, hp⟩ := List.head?_eq_some_iff.1 hs
    cases ht : q.leadingTerm? with
    | none => simp [isMultiple, hs, ht, Meets, List.head?_eq_none_iff.1 ht, hp]
    | some t =>
      rcases hdecided with hmeets | hmisses
      · exact iff_of_true (h.isMultiple_of_meets hs ht hmeets) hmeets
      · have hfalse := h.isMultiple_eq_false_of_misses hs ht hmisses
        refine iff_of_false (by rw [hfalse]; exact Bool.false_ne_true) fun hmeets ↦ ?_
        rw [h.isMultiple_of_meets hs ht hmeets] at hfalse
        exact absurd hfalse Bool.noConfusion

/-- Of proportional polynomials each meets the other one, at whatever factor. -/
theorem meets_of_eq_C_mul {Q : Number → Prop} {k : ℚ} (hk : k ≠ 0)
    (hp : p.IsOrderly Monomial.IsCanonical) (hq : q.IsOrderly Monomial.IsCanonical)
    (hpexact : p.HasCoefficients Q) (hqexact : q.HasCoefficients Q)
    (h : p.toMvPolynomial = MvPolynomial.C k * q.toMvPolynomial) : p.Meets q := by
  have hvalued := valuedMonomials_eq_of_eq_C_mul hk hp hq hpexact hqexact h
  have hmonomials : p.terms.map (·.monomial) = q.terms.map (·.monomial) := by
    rw [map_monomial_eq, map_monomial_eq, hvalued, List.map_map]
    rfl
  have hvalue : ∀ a ∈ p.terms, ∀ b ∈ q.terms, a.monomial = b.monomial →
      a.coefficient.value = k * b.coefficient.value := by
    intro a ha b hb hab
    have hmem : (a.monomial, a.coefficient.value) ∈ p.valuedMonomials :=
      List.mem_map_of_mem (f := fun t : Term ↦ (t.monomial, t.coefficient.value)) ha
    rw [hvalued] at hmem
    obtain ⟨_, hvalued', heq⟩ := List.mem_map.1 hmem
    obtain ⟨b', hb', rfl⟩ := List.mem_map.1 hvalued'
    obtain ⟨hmonomial, hcoefficient⟩ := Prod.mk.inj heq
    have hsame : b' = b := List.inj_on_of_nodup_map hq.isAscending.nodup_monomials hb' hb
      (hmonomial.trans hab)
    rw [← hcoefficient, hsame]
  refine ⟨hmonomials, fun a ha b hb hab ↦ .inl ?_⟩
  obtain ⟨s, ss, hs⟩ := List.exists_cons_of_ne_nil (List.ne_nil_of_mem ha)
  obtain ⟨t, ts, ht⟩ := List.exists_cons_of_ne_nil (List.ne_nil_of_mem hb)
  have hst : s.monomial = t.monomial := by
    rw [hs, ht] at hmonomials
    exact (List.cons.inj hmonomials).1
  have hmems : s ∈ p.terms := by rw [hs]; exact List.mem_cons_self
  have hmemt : t ∈ q.terms := by rw [ht]; exact List.mem_cons_self
  have hratio : p.ratio q = k := by
    rw [ratio, leadingValue_eq (s := s) (by rw [leadingTerm?, hs]; rfl),
      leadingValue_eq (s := t) (by rw [leadingTerm?, ht]; rfl), hvalue s hmems t hmemt hst]
    exact mul_div_cancel_right₀ k (hqexact t hmemt).2.1
  rw [hratio]
  exact hvalue a ha b hb hab

end SchoolAlgebra.Polynomial
