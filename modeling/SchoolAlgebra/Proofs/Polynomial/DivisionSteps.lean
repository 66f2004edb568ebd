import Mathlib
import SchoolAlgebra.Proofs.Polynomial.Canonical
import SchoolAlgebra.Proofs.Polynomial.MonomialOrder

/-!
# The steps of a division

A step of the division takes the leading term off the dividend and subtracts products that all come
later in the order of monomials, because a common factor keeps the order. So the leading monomial of
the remainder comes strictly after that of the dividend, whatever the coefficients become by
rounding. The number of terms and their degree may grow, but over the variables of the dividend and
the divisor the order has no endless chain: the division ends, and its steps may be repeated without
a bound.
-/

namespace SchoolAlgebra.Polynomial

variable {p q r divisor remainder : Polynomial}

theorem exists_monomial_eq_of_mem_sub {t : Term} (ht : t ∈ (p - q).terms) :
    (∃ s ∈ p.terms, s.monomial = t.monomial) ∨ ∃ s ∈ q.terms, s.monomial = t.monomial := by
  obtain ⟨s, hs, hst⟩ := exists_monomial_eq_of_mem_combine ht
  rcases List.mem_append.1 hs with hleft | hright
  · exact Or.inl ⟨s, hleft, hst⟩
  · obtain ⟨u, hu, hus⟩ := List.mem_map.1 hright
    refine Or.inr ⟨u, hu, ?_⟩
    rw [← hst, ← hus]
    rfl

theorem exists_mul?_of_mem_mul? (h : p.mul? q = some r) {t : Term} (ht : t ∈ r.terms) :
    ∃ a ∈ p.terms, ∃ b ∈ q.terms, a.monomial.mul? b.monomial = some t.monomial := by
  obtain ⟨terms, hterms, hr, _⟩ := eq_of_mul? h
  rw [hr] at ht
  obtain ⟨s, hs, hst⟩ := exists_monomial_eq_of_mem_combine ht
  obtain ⟨a, ha, b, hb, hproduct⟩ := exists_of_mem_products? hterms hs
  obtain ⟨m, hm, hterm⟩ := Term.eq_of_mul? hproduct
  rw [hterm] at hst
  exact ⟨a, ha, b, hb, hst ▸ hm⟩

/-- Whether one step of the division by `divisor` leaves `remainder` of `p`. -/
def Leaves (divisor p remainder : Polynomial) : Prop :=
  ∃ step, divStep? p divisor = some (step, remainder)

/-- Whether `q` is zero or its leading monomial comes strictly after that of `p`. -/
def LeadsBefore (p q : Polynomial) : Prop :=
  q.isZero = true ∨ ∃ s t, p.leadingTerm? = some s ∧ q.leadingTerm? = some t ∧
    s.monomial.compare t.monomial = .lt

theorem IsOrderly.compare_eq_lt_of_mem_rest {P : Monomial → Prop} (hp : p.IsOrderly P)
    {lead t : Term} (hlead : p.leadingTerm? = some lead) (ht : t ∈ p.rest.terms) :
    lead.monomial.compare t.monomial = .lt := by
  have hascending := hp.isAscending
  rw [eq_cons_of_leadingTerm? hlead] at hascending
  exact List.rel_of_pairwise_cons hascending ht

/-- Every monomial that a step leaves comes after the leading one. -/
theorem compare_eq_lt_of_divStep? (hp : p.IsOrderly Monomial.IsCanonical)
    (hdivisor : divisor.IsOrderly Monomial.IsCanonical) {step : Term}
    (h : divStep? p divisor = some (step, remainder)) {lead t : Term}
    (hlead : p.leadingTerm? = some lead) (ht : t ∈ remainder.terms) :
    lead.monomial.compare t.monomial = .lt := by
  obtain ⟨lead', divisorLead, product, hlead', hdivisorLead, hstep, hproduct, hremainder, _⟩ :=
    eq_of_divStep? h
  rw [hlead] at hlead'
  rw [Option.some.inj hlead'] at hlead ⊢
  rw [hremainder] at ht
  rcases exists_monomial_eq_of_mem_sub ht with ⟨s, hs, hst⟩ | ⟨s, hs, hst⟩
  · rw [← hst]
    exact hp.compare_eq_lt_of_mem_rest hlead hs
  · obtain ⟨a, ha, b, hb, hmul⟩ := exists_mul?_of_mem_mul? hproduct hs
    obtain ⟨step', hstep', hastep⟩ := exists_monomial_eq_of_mem_combine ha
    obtain ⟨m, c, hm, _, hterm⟩ := Term.eq_of_div? hstep
    rw [List.mem_singleton.1 hstep', hterm] at hastep
    dsimp only at hastep
    rw [← hastep] at hmul
    rw [← hst, Monomial.compare_eq_lt_iff_of_add
      (hdivisor.monomial (List.mem_of_head? hdivisorLead))
      (hdivisor.monomial (List.mem_of_mem_tail hb)) (hp.monomial (List.mem_of_head? hlead))
      (Monomial.isCanonical_of_ofExponents? hmul) (Monomial.exponents_of_div? hm).symm
      (Monomial.exponents_of_mul? hmul)]
    exact hdivisor.compare_eq_lt_of_mem_rest hdivisorLead hb

/-- A step leaves nothing, or something that leads later. -/
theorem leadsBefore_of_leaves (hp : p.IsOrderly Monomial.IsCanonical)
    (hdivisor : divisor.IsOrderly Monomial.IsCanonical) (h : Leaves divisor p remainder) :
    p.LeadsBefore remainder := by
  obtain ⟨step, h⟩ := h
  obtain ⟨lead, _, _, hlead, _⟩ := eq_of_divStep? h
  cases ht : remainder.leadingTerm? with
  | none => exact Or.inl (List.isEmpty_iff.2 (List.head?_eq_none_iff.1 ht))
  | some t =>
    exact Or.inr ⟨lead, t, hlead, ht,
      compare_eq_lt_of_divStep? hp hdivisor h hlead (List.mem_of_head? ht)⟩

/--
Whether the division of `p` by `divisor` ends after `n` steps: with the terms of the quotient if
nothing is left, and with none if something is left of which no further step is possible.
-/
inductive DivisionEnds (divisor : Polynomial) :
    Polynomial → ℕ → Option (List Term) → Prop where
  | divided {p : Polynomial} (h : p.isZero = true) : DivisionEnds divisor p 0 (some [])
  | stuck {p : Polynomial} (h : p.isZero = false) (hstep : divStep? p divisor = none) :
      DivisionEnds divisor p 0 none
  | step {p remainder : Polynomial} {step : Term} {n : ℕ} {quotient : Option (List Term)}
      (hstep : divStep? p divisor = some (step, remainder))
      (hrest : DivisionEnds divisor remainder n quotient) :
      DivisionEnds divisor p (n + 1) (quotient.map (step :: ·))

theorem isZero_eq_false_of_divStep? {step : Term}
    (h : divStep? p divisor = some (step, remainder)) : p.isZero = false := by
  obtain ⟨lead, _, _, hlead, _⟩ := eq_of_divStep? h
  rw [isZero, eq_cons_of_leadingTerm? hlead]
  rfl

/-- A division ends in one way. -/
theorem DivisionEnds.unique {m n : ℕ} {as bs : Option (List Term)}
    (h : DivisionEnds divisor p m as) (h' : DivisionEnds divisor p n bs) : m = n ∧ as = bs := by
  induction h generalizing n bs with
  | divided hzero =>
    cases h' with
    | divided => exact ⟨rfl, rfl⟩
    | stuck hnonzero => simp [hzero] at hnonzero
    | step hstep => simp [isZero_eq_false_of_divStep? hstep] at hzero
  | stuck hnonzero hnone =>
    cases h' with
    | divided hzero => simp [hzero] at hnonzero
    | stuck => exact ⟨rfl, rfl⟩
    | step hstep => simp [hnone] at hstep
  | step hstep _ ih =>
    cases h' with
    | divided hzero => simp [isZero_eq_false_of_divStep? hstep] at hzero
    | stuck _ hnone => simp [hnone] at hstep
    | step hstep' hrest' =>
      obtain ⟨rfl, rfl⟩ := Prod.mk.inj (Option.some.inj (hstep.symm.trans hstep'))
      obtain ⟨rfl, rfl⟩ := ih hrest'
      exact ⟨rfl, rfl⟩

section names

variable {names : List String}

/-- What leads later has a lower rank. -/
theorem rank_lt_of_leadsBefore (hnames : names.Pairwise (· < ·))
    (hp : p.IsOrderly (Monomial.IsCanonicalIn names))
    (hq : q.IsOrderly (Monomial.IsCanonicalIn names)) (hnonzero : p.isZero = false)
    (h : p.LeadsBefore q) : rank names q < rank names p := by
  rcases h with hzero | ⟨s, t, hs, ht, hlt⟩
  · obtain ⟨s, hs⟩ := exists_leadingTerm? (List.isEmpty_eq_false_iff.1 hnonzero)
    rw [rank, rank, hs, leadingTerm?, List.isEmpty_iff.1 hzero]
    exact Nat.succ_pos _
  · rw [rank, rank, hs, ht]
    exact Nat.succ_lt_succ (Monomial.leadingRank_lt hnames (hp.monomial (List.mem_of_head? hs))
      (hq.monomial (List.mem_of_head? ht)).1 hlt)

theorem IsOrderly.of_leaves (hp : p.IsOrderly (Monomial.IsCanonicalIn names))
    (hdivisor : divisor.IsOrderly (Monomial.IsCanonicalIn names))
    (h : Leaves divisor p remainder) : remainder.IsOrderly (Monomial.IsCanonicalIn names) := by
  obtain ⟨step, h⟩ := h
  exact (hp.divStep? (Monomial.isClosed_isCanonicalIn names) hdivisor h).2

theorem rank_lt_of_leaves (hnames : names.Pairwise (· < ·))
    (hp : p.IsOrderly (Monomial.IsCanonicalIn names))
    (hdivisor : divisor.IsOrderly (Monomial.IsCanonicalIn names))
    (h : Leaves divisor p remainder) : rank names remainder < rank names p := by
  have hnonzero : p.isZero = false := isZero_eq_false_of_divStep? h.choose_spec
  exact rank_lt_of_leadsBefore hnames hp (hp.of_leaves hdivisor h) hnonzero
    (leadsBefore_of_leaves (hp.imp fun _ hm ↦ hm.1) (hdivisor.imp fun _ hm ↦ hm.1) h)

/-- The quotient is what the steps arrive at, after at most as many of them as the rank says. -/
theorem exists_divisionEnds (hnames : names.Pairwise (· < ·))
    (hp : p.IsOrderly (Monomial.IsCanonicalIn names))
    (hdivisor : divisor.IsOrderly (Monomial.IsCanonicalIn names)) :
    ∃ n ≤ rank names p, DivisionEnds divisor p n (quotientTerms? names divisor p) := by
  fun_induction quotientTerms? names divisor p with
  | case1 p hzero => exact ⟨0, Nat.zero_le _, .divided hzero⟩
  | case2 p hzero hnone => exact ⟨0, Nat.zero_le _, .stuck (Bool.eq_false_iff.2 hzero) hnone⟩
  | case3 p hzero step remainder hstep hrank ih =>
    obtain ⟨n, hn, hrest⟩ := ih (hp.of_leaves hdivisor ⟨step, hstep⟩)
    exact ⟨n + 1, hn.trans_lt hrank, .step hstep hrest⟩
  | case4 p hzero step remainder hstep hrank =>
    exact absurd (rank_lt_of_leaves hnames hp hdivisor ⟨step, hstep⟩) hrank

theorem IsCanonical.isOrderly_isCanonicalIn (hp : p.IsCanonical)
    (h : ∀ name ∈ p.names, name ∈ names) : p.IsOrderly (Monomial.IsCanonicalIn names) := by
  refine ⟨hp.isOrderly.isAscending, fun {t} ht ↦ ⟨hp.isOrderly.monomial ht, fun name hname ↦ ?_⟩⟩
  exact h name (Text.mem_sortNames.2 (List.mem_flatMap.2 ⟨t, ht, hname⟩))

end names

/--
The division of canonical polynomials ends, whatever their coefficients. Each of its steps leaves
nothing or something that leads strictly later in the order of monomials, in which there is no
endless chain over the variables of both polynomials. After some number of steps, nothing is left or
no further step is possible, and what they arrive at is the quotient.
-/
theorem divisionEnds_iff (hp : p.IsCanonical) (hdivisor : divisor.IsCanonical) :
    (∀ q remainder, Relation.ReflTransGen (Leaves divisor) p q → Leaves divisor q remainder →
        q.LeadsBefore remainder) ∧
      (∀ chain : ℕ → Monomial, (∀ i, (chain i).IsCanonicalIn (p.names ++ divisor.names)) →
        ∃ i, (chain i).compare (chain (i + 1)) ≠ .lt) ∧
      ∃ n, ∀ m quotient, DivisionEnds divisor p m quotient ↔
        m = n ∧
          quotient = quotientTerms? (Text.sortNames (p.names ++ divisor.names)) divisor p := by
  let names := Text.sortNames (p.names ++ divisor.names)
  have hpnames : p.IsOrderly (Monomial.IsCanonicalIn names) :=
    hp.isOrderly_isCanonicalIn fun name hname ↦
      Text.mem_sortNames.2 (List.mem_append_left _ hname)
  have hdnames : divisor.IsOrderly (Monomial.IsCanonicalIn names) :=
    hdivisor.isOrderly_isCanonicalIn fun name hname ↦
      Text.mem_sortNames.2 (List.mem_append_right _ hname)
  refine ⟨fun q remainder hq hleaves ↦ ?_, fun chain hchain ↦
    Monomial.exists_compare_ne_lt hchain, ?_⟩
  · have hqnames : q.IsOrderly (Monomial.IsCanonicalIn names) := by
      clear hleaves
      induction hq with
      | refl => exact hpnames
      | tail _ hstep ih => exact ih.of_leaves hdnames hstep
    exact leadsBefore_of_leaves (hqnames.imp fun _ hm ↦ hm.1) hdivisor.isOrderly hleaves
  · obtain ⟨n, _, hn⟩ := exists_divisionEnds (Text.pairwise_sortNames _) hpnames hdnames
    refine ⟨n, fun m quotient ↦ ⟨fun h ↦ h.unique hn, ?_⟩⟩
    rintro ⟨rfl, rfl⟩
    exact hn

/--
The division of `0.001 * x ^ 2 + inf * x + NaN` by `10000 * x + y ^ 3` is stuck after two steps: the
term of the quotient in the first counts as zero, and that in the second is infinite.
-/
theorem divisionEnds_iff_infinite :
    ∃ p divisor : Polynomial,
      p.terms =
        [⟨.float 1e-3, ⟨[⟨"x", 2⟩]⟩⟩, ⟨.float (1 / 0), .ofName "x"⟩, ⟨.float (0 / 0), .one⟩] ∧
      divisor.terms = [⟨.float 1e4, .ofName "x"⟩, ⟨.integer 1, ⟨[⟨"y", 3⟩]⟩⟩] ∧
      p.IsCanonical ∧ divisor.IsCanonical ∧
      ∀ m quotient, DivisionEnds divisor p m quotient ↔ m = 2 ∧ quotient = none := by
  let p : Polynomial :=
    ⟨[⟨.float 1e-3, ⟨[⟨"x", 2⟩]⟩⟩, ⟨.float (1 / 0), .ofName "x"⟩, ⟨.float (0 / 0), .one⟩]⟩
  let divisor : Polynomial := ⟨[⟨.float 1e4, .ofName "x"⟩, ⟨.integer 1, ⟨[⟨"y", 3⟩]⟩⟩]⟩
  have hp : p.IsCanonical := isCanonical_of_ofTerms? (by decide +kernel : ofTerms? p.terms = some p)
  have hdivisor : divisor.IsCanonical :=
    isCanonical_of_ofTerms? (by decide +kernel : ofTerms? divisor.terms = some divisor)
  have hfirst : divStep? p divisor = some (⟨.float (1e-3 / 1e4), .ofName "x"⟩,
      ⟨[⟨.float (1 / 0), .ofName "x"⟩, ⟨.float (0 / 0), .one⟩]⟩) := by decide +kernel
  have hsecond : divStep? ⟨[⟨.float (1 / 0), .ofName "x"⟩, ⟨.float (0 / 0), .one⟩]⟩ divisor =
      some (⟨.float (1 / 0), .one⟩,
        ⟨[⟨.float (-1 / 0), ⟨[⟨"y", 3⟩]⟩⟩, ⟨.float (0 / 0), .one⟩]⟩) := by decide +kernel
  have hends : DivisionEnds divisor p 2 none :=
    .step hfirst (.step hsecond (.stuck rfl (by decide +kernel)))
  obtain ⟨_, _, n, hn⟩ := divisionEnds_iff hp hdivisor
  obtain ⟨rfl, hnone⟩ := (hn 2 none).1 hends
  rw [← hnone] at hn
  exact ⟨p, divisor, rfl, rfl, hp, hdivisor, hn⟩

end SchoolAlgebra.Polynomial
