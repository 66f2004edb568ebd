import Mathlib
import SchoolAlgebra.Proofs.Polynomial.Coefficients

/-!
# What an operation on polynomials has done

Where an operation on polynomials has a result, it has gone through certain steps and has computed
certain coefficients. These lemmas state both for each operation, so that no other proof has to look
into it.
-/

namespace SchoolAlgebra

/-- A list on which a partial function is defined throughout goes over into that of its values. -/
theorem forall₂_of_mapM_eq_some {α β : Type} {f : α → Option β} {as : List α} {bs : List β}
    (h : as.mapM f = some bs) : List.Forall₂ (fun a b ↦ f a = some b) as bs := by
  induction as generalizing bs with
  | nil =>
    have hbs : [] = bs := Option.some.inj h
    rw [← hbs]
    exact .nil
  | cons a as ih =>
    simp only [List.mapM_cons, Option.bind_eq_bind, Option.bind_eq_some_iff] at h
    obtain ⟨b, hb, rest, hrest, hbs⟩ := h
    have hcons : b :: rest = bs := Option.some.inj hbs
    rw [← hcons]
    exact .cons hb (ih hrest)

theorem exists_of_mem_forall₂ {α β : Type} {R : α → β → Prop} {as : List α} {bs : List β}
    (h : List.Forall₂ R as bs) {b : β} (hb : b ∈ bs) : ∃ a ∈ as, R a b := by
  induction h with
  | nil => exact absurd hb List.not_mem_nil
  | @cons a _ as _ ha _ ih =>
    rcases List.mem_cons.1 hb with hself | hrest
    · exact ⟨a, List.mem_cons_self, hself ▸ ha⟩
    · obtain ⟨a', ha', hrel⟩ := ih hrest
      exact ⟨a', List.mem_cons_of_mem _ ha', hrel⟩

theorem exists_of_mem_mapM {α β : Type} {f : α → Option β} {as : List α} {bs : List β}
    (h : as.mapM f = some bs) {b : β} (hb : b ∈ bs) : ∃ a ∈ as, f a = some b :=
  exists_of_mem_forall₂ (forall₂_of_mapM_eq_some h) hb

/-- A partial function is not defined throughout a list exactly if it is undefined at a member. -/
theorem mapM_eq_none_iff {α β : Type} {f : α → Option β} {as : List α} :
    as.mapM f = none ↔ ∃ a ∈ as, f a = none := by
  induction as with
  | nil => simp
  | cons a as ih =>
    rw [List.mapM_cons, List.exists_mem_cons_iff, ← ih]
    cases f a with
    | none => simp
    | some b => cases as.mapM f <;> simp

theorem Term.eq_of_mul? {a b t : Term} (h : a.mul? b = some t) :
    ∃ m, a.monomial.mul? b.monomial = some m ∧ t = ⟨a.coefficient * b.coefficient, m⟩ := by
  obtain ⟨m, hm, ht⟩ := Option.map_eq_some_iff.1 h
  exact ⟨m, hm, ht.symm⟩

theorem Term.eq_of_div? {a b t : Term} (h : a.div? b = some t) :
    ∃ m c, a.monomial.div? b.monomial = some m ∧ a.coefficient.div? b.coefficient = some c ∧
      t = ⟨c, m⟩ := by
  unfold Term.div? at h
  simp only [Option.bind_eq_bind, Option.bind_eq_some_iff] at h
  obtain ⟨m, hm, c, hc, ht⟩ := h
  exact ⟨m, c, hm, hc, (Option.some.inj ht).symm⟩

namespace Polynomial

variable {p q r : Polynomial}

theorem eq_of_ofTerms? {terms : List Term} (h : ofTerms? terms = some p) :
    ∃ canonical, List.Forall₂ (fun s t ↦ ∃ m, Monomial.ofFactors? s.monomial.factors = some m ∧
        t = ⟨s.coefficient, m⟩) terms canonical ∧
      p = combine canonical ∧ ofTermsCoefficients terms = sums canonical := by
  unfold ofTerms? at h
  simp only [Option.bind_eq_bind, Option.bind_eq_some_iff] at h
  obtain ⟨canonical, hcanonical, hp⟩ := h
  refine ⟨canonical, ?_, (Option.some.inj hp).symm, ?_⟩
  · apply (forall₂_of_mapM_eq_some hcanonical).imp
    intro s t hst
    obtain ⟨m, hm, ht⟩ := Option.map_eq_some_iff.1 hst
    exact ⟨m, hm, ht.symm⟩
  · rw [ofTermsCoefficients, hcanonical]
    rfl

theorem eq_of_mul? (h : p.mul? q = some r) :
    ∃ terms, products? p.terms q.terms = some terms ∧ r = combine terms ∧
      p.mulCoefficients q = sums terms := by
  obtain ⟨terms, hterms, hr⟩ := Option.map_eq_some_iff.1 h
  refine ⟨terms, hterms, hr.symm, ?_⟩
  rw [mulCoefficients, hterms]
  rfl

theorem exists_of_mem_products? {as bs terms : List Term} (h : products? as bs = some terms)
    {t : Term} (ht : t ∈ terms) : ∃ a ∈ as, ∃ b ∈ bs, a.mul? b = some t := by
  unfold products? at h
  simp only [Option.bind_eq_bind, Option.bind_eq_some_iff] at h
  obtain ⟨rows, hrows, hflatten⟩ := h
  rw [← Option.some.inj hflatten] at ht
  obtain ⟨row, hrow, htrow⟩ := List.mem_flatten.1 ht
  obtain ⟨a, ha, hrow⟩ := exists_of_mem_mapM hrows hrow
  exact ⟨a, ha, exists_of_mem_mapM hrow htrow⟩

theorem eq_of_divNumber? {divisor : Number} (h : p.divNumber? divisor = some q) :
    ∃ terms, List.Forall₂ (fun s t ↦ ∃ c, s.coefficient.div? divisor = some c ∧
        t = ⟨c, s.monomial⟩) p.terms terms ∧
      q = combine terms ∧ p.divNumberCoefficients divisor = sums terms := by
  unfold divNumber? at h
  simp only [Option.bind_eq_bind, Option.bind_eq_some_iff] at h
  obtain ⟨terms, hterms, hq⟩ := h
  refine ⟨terms, ?_, (Option.some.inj hq).symm, ?_⟩
  · apply (forall₂_of_mapM_eq_some hterms).imp
    intro s t hst
    obtain ⟨c, hc, ht⟩ := Option.map_eq_some_iff.1 hst
    exact ⟨c, hc, ht.symm⟩
  · rw [divNumberCoefficients, hterms]
    rfl

theorem eq_of_divStep? {divisor remainder : Polynomial} {step : Term}
    (h : divStep? p divisor = some (step, remainder)) :
    ∃ lead divisorLead product, p.leadingTerm? = some lead ∧
      divisor.leadingTerm? = some divisorLead ∧ lead.div? divisorLead = some step ∧
      (combine [step]).mul? divisor.rest = some product ∧ remainder = p.rest - product ∧
      divStepCoefficients p divisor step = step.coefficient ::
        ((combine [step]).mulCoefficients divisor.rest ++ p.rest.subCoefficients product) := by
  unfold divStep? at h
  simp only [Option.bind_eq_bind, Option.bind_eq_some_iff] at h
  obtain ⟨lead, hlead, divisorLead, hdivisorLead, step', hstep, product, hproduct, hpair⟩ := h
  obtain ⟨hsame, hremainder⟩ := Prod.mk.inj (Option.some.inj hpair)
  subst hsame
  refine ⟨lead, divisorLead, product, hlead, hdivisorLead, hstep, hproduct, hremainder.symm, ?_⟩
  rw [divStepCoefficients, hproduct]
  rfl

theorem eq_of_div? {divisor : Polynomial} (h : p.div? divisor = some q) :
    ∃ lead, divisor.leadingTerm? = some lead ∧
      (divisor.isConstant = true ∧ p.divNumber? lead.coefficient = some q ∧
          p.divCoefficients divisor = p.divNumberCoefficients lead.coefficient ∨
        ∃ names terms, quotientTerms? names divisor p = some terms ∧ q = combine terms ∧
          p.divCoefficients divisor =
            quotientCoefficients names divisor p ++ sums terms) := by
  unfold div? at h
  simp only [Option.bind_eq_bind, Option.bind_eq_some_iff] at h
  obtain ⟨lead, hlead, hq⟩ := h
  refine ⟨lead, hlead, ?_⟩
  rw [divCoefficients, hlead]
  dsimp only
  split at hq
  · rename_i hconstant
    exact Or.inl ⟨hconstant, hq, if_pos hconstant⟩
  · rename_i hconstant
    obtain ⟨terms, hterms, hq⟩ := Option.map_eq_some_iff.1 hq
    refine Or.inr ⟨_, terms, hterms, hq.symm, ?_⟩
    rw [if_neg hconstant, hterms]
    rfl

theorem powFrom?_eq_bind {n : ℕ} (hn : n ≠ 0) (result base : Polynomial) :
    powFrom? result base n =
      (if n % 2 = 1 then result.mul? base else some result).bind fun next ↦
        if n / 2 = 0 then some next
        else (base.mul? base).bind fun square ↦ powFrom? next square (n / 2) := by
  rw [powFrom?, if_neg hn]
  by_cases hodd : n % 2 = 1
  · simp only [if_pos hodd]
    rfl
  · simp only [if_neg hodd]
    rfl

/-- A binary digit of the exponent multiplies the result by the base, or leaves it. -/
theorem digit_cases {P : Number → Prop} {result base next : Polynomial} {n : ℕ}
    (h : (if n % 2 = 1 then result.mul? base else some result) = some next)
    (hcoefficients : ∀ c ∈ if n % 2 = 1 then result.mulCoefficients base else [], P c) :
    n % 2 = 1 ∧ result.mul? base = some next ∧ (∀ c ∈ result.mulCoefficients base, P c) ∨
      n % 2 = 0 ∧ next = result := by
  by_cases hodd : n % 2 = 1
  · rw [if_pos hodd] at h hcoefficients
    exact .inl ⟨hodd, h, hcoefficients⟩
  · rw [if_neg hodd] at h
    exact .inr ⟨by omega, (Option.some.inj h).symm⟩

/--
A relation between a start, a base, an exponent and a result holds of every power if it holds of the
power zero, and if a binary digit of the exponent, together with the square for the others, passes
it on.
-/
theorem powFrom?_induction {motive : Polynomial → Polynomial → ℕ → Polynomial → Prop}
    {P : Number → Prop} (zero : ∀ result base, motive result base 0 result)
    (last : ∀ result base next,
      (result.mul? base = some next ∧ ∀ c ∈ result.mulCoefficients base, P c) →
        motive result base 1 next)
    (step : ∀ result base next square n r,
      (n % 2 = 1 ∧ result.mul? base = some next ∧ (∀ c ∈ result.mulCoefficients base, P c) ∨
        n % 2 = 0 ∧ next = result) →
      base.mul? base = some square → (∀ c ∈ base.mulCoefficients base, P c) →
      motive next square (n / 2) r → motive result base n r)
    {result base : Polynomial} {n : ℕ} (h : powFrom? result base n = some r)
    (hcoefficients : ∀ c ∈ powFromCoefficients result base n, P c) : motive result base n r := by
  induction n using Nat.strongRecOn generalizing result base with
  | ind n ih =>
    by_cases hn : n = 0
    · rw [powFrom?, if_pos hn] at h
      rw [hn, ← Option.some.inj h]
      exact zero result base
    · rw [powFrom?_eq_bind hn] at h
      obtain ⟨next, hnext, h⟩ := Option.bind_eq_some_iff.1 h
      rw [powFromCoefficients, if_neg hn, List.forall_mem_append, hnext] at hcoefficients
      obtain ⟨hdigit, hcoefficients⟩ := hcoefficients
      dsimp only at hcoefficients
      by_cases hhalf : n / 2 = 0
      · have hone : n = 1 := by omega
        rw [if_pos hhalf] at h
        rw [hone] at hnext hdigit ⊢
        rw [← Option.some.inj h]
        exact last result base next ⟨hnext, hdigit⟩
      · rw [if_neg hhalf] at h hcoefficients
        obtain ⟨square, hsquare, h⟩ := Option.bind_eq_some_iff.1 h
        rw [List.forall_mem_append, hsquare] at hcoefficients
        exact step result base next square n r (digit_cases hnext hdigit) hsquare
          hcoefficients.1 (ih (n / 2) (by omega) h hcoefficients.2)

/-- What products pass on is passed on to powers. -/
theorem of_powFrom? {Q : Polynomial → Prop} {P : Number → Prop}
    (hmul : ∀ {p q r : Polynomial}, Q p → Q q → p.mul? q = some r →
      (∀ c ∈ p.mulCoefficients q, P c) → Q r)
    {result base : Polynomial} {n : ℕ} (hresult : Q result) (hbase : Q base)
    (h : powFrom? result base n = some r)
    (hcoefficients : ∀ c ∈ powFromCoefficients result base n, P c) : Q r := by
  apply powFrom?_induction (motive := fun result base _ r ↦ Q result → Q base → Q r) _ _ _ h
    hcoefficients hresult hbase
  · intro result _ hresult _
    exact hresult
  · intro result base next hnext hresult hbase
    exact hmul hresult hbase hnext.1 hnext.2
  · intro result base next square n r hnext hsquare hsquares ih hresult hbase
    have hnext' : Q next := by
      rcases hnext with ⟨_, hproduct, hproducts⟩ | ⟨_, hsame⟩
      · exact hmul hresult hbase hproduct hproducts
      · exact hsame ▸ hresult
    exact ih hnext' (hmul hbase hbase hsquare hsquares)

theorem eq_of_powTerm? {t : Term} {n : ℕ} (h : powTerm? t n = some q) :
    ∃ m c, t.monomial.pow? n = some m ∧ t.coefficient.powWhole? n = some c ∧
      q = combine [⟨c, m⟩] ∧ powTermCoefficients t n = [c] := by
  unfold powTerm? at h
  simp only [Option.bind_eq_bind, Option.bind_eq_some_iff] at h
  obtain ⟨m, hm, c, hc, hq⟩ := h
  refine ⟨m, c, hm, hc, (Option.some.inj hq).symm, ?_⟩
  rw [powTermCoefficients, hm, Option.bind_some, hc]
  rfl

theorem eq_of_powWhole? {n : ℕ} (h : p.powWhole? n = some q) :
    (∃ t m c, p.singleTerm? = some t ∧ t.monomial.pow? n = some m ∧
        t.coefficient.powWhole? n = some c ∧ q = combine [⟨c, m⟩] ∧
        p.powWholeCoefficients n = [c]) ∨
      powFrom? one p n = some q ∧ p.powWholeCoefficients n = powFromCoefficients one p n := by
  unfold powWhole? at h
  unfold powWholeCoefficients
  cases ht : p.singleTerm? with
  | some t =>
    simp only [ht] at h ⊢
    obtain ⟨m, c, hm, hc, hq, hcoefficients⟩ := eq_of_powTerm? h
    exact Or.inl ⟨t, m, c, rfl, hm, hc, hq, hcoefficients⟩
  | none =>
    simp only [ht] at h ⊢
    obtain ⟨hlimit, hpow⟩ := Option.ite_none_left_eq_some.1 h
    exact Or.inr ⟨hpow, if_neg hlimit⟩

theorem eq_of_definite? {a c : Number} (h : definite? a = some c) : a = c :=
  Option.some.inj (Option.ite_none_left_eq_some.1 h).2

theorem eq_of_rootTerm? {t : Term} {f : Fraction} (h : rootTerm? t f = some q) :
    ∃ (num den : Int64) (m : Monomial) (c : Number), num.toInt = f.toRat.num ∧
      den.toInt = (f.toRat.den : ℤ) ∧ t.monomial.root? num den = some m ∧
      t.coefficient.powFraction? f = some c ∧ q = combine [⟨c, m⟩] ∧
      rootTermCoefficients t f = [c] := by
  unfold rootTerm? at h
  simp only [Option.bind_eq_bind, Option.bind_eq_some_iff] at h
  obtain ⟨num, hnum, den, hden, m, hm, a, ha, c, hc, hq⟩ := h
  rw [eq_of_definite? hc] at ha
  refine ⟨num, den, m, c, Word.int64?_eq_some_iff.1 hnum, Word.int64?_eq_some_iff.1 hden, hm, ha,
    (Option.some.inj hq).symm, ?_⟩
  simp [rootTermCoefficients, hnum, hden, hm, ha]

theorem eq_of_powNumber? {exponent : Number} (h : p.powNumber? exponent = some q) :
    (∃ base c, p.constant? = some base ∧ base.pow? exponent = some c ∧ q = ofNumber c ∧
        p.powNumberCoefficients exponent = [c]) ∨
      p.constant? = none ∧
        ((∃ (n : Int64) (k : ℕ), exponent.toInt64? = some n ∧ n.toInt = k ∧
            p.powWhole? k = some q ∧
            p.powNumberCoefficients exponent = p.powWholeCoefficients k) ∨
          ∃ f t c, exponent = .fraction f ∧ p.singleTerm? = some t ∧ rootTerm? t f = some q ∧
            t.coefficient.powFraction? f = some c ∧ p.powNumberCoefficients exponent = [c]) := by
  unfold powNumber? at h
  unfold powNumberCoefficients
  cases hbase : p.constant? with
  | some base =>
    simp only [hbase, Option.bind_eq_bind, Option.bind_eq_some_iff] at h ⊢
    obtain ⟨a, ha, c, hc, hq⟩ := h
    rw [eq_of_definite? hc] at ha
    refine Or.inl ⟨base, c, rfl, ha, (Option.some.inj hq).symm, ?_⟩
    rw [ha]
    rfl
  | none =>
    simp only [hbase] at h ⊢
    refine Or.inr ⟨trivial, ?_⟩
    cases hn : exponent.toInt64? with
    | some n =>
      simp only [hn, Option.bind_eq_bind, Option.bind_eq_some_iff] at h ⊢
      obtain ⟨k, hk, word, hword, hq⟩ := h
      rw [Word.uint32?_eq_some_iff.1 hword] at hq
      refine Or.inl ⟨n, k, rfl, Int.mem_toNat?.1 hk, hq, ?_⟩
      rw [hk, Option.bind_some, hword, Option.map_some, Word.uint32?_eq_some_iff.1 hword]
      rfl
    | none =>
      cases exponent with
      | integer n => simp [Number.toInt64?] at hn
      | float x => simp [hn] at h
      | fraction f =>
        simp only [hn, Option.bind_eq_bind, Option.bind_eq_some_iff] at h ⊢
        obtain ⟨t, ht, hq⟩ := h
        obtain ⟨_, _, _, c, _, _, _, hc, _, hcoefficients⟩ := eq_of_rootTerm? hq
        refine Or.inr ⟨f, t, c, rfl, ht, hq, hc, ?_⟩
        rw [ht, Option.map_some, hcoefficients]
        rfl

/-! ## Reductions -/

section ofExpr

variable {a b : Expr} {P : Number → Prop}

/-- Where an operation on two expressions has a polynomial, both operands have one. -/
theorem exists_operands {f : Polynomial → Polynomial → Option Polynomial}
    {operation : Polynomial → Polynomial → List Number}
    (h : ((ofExpr? a).bind fun q ↦ (ofExpr? b).bind (f q)) = some p)
    (hcoefficients : ∀ c ∈ a.coefficients ++ b.coefficients ++ Expr.coefficientsOf operation a b,
      P c) :
    ∃ q r, ofExpr? a = some q ∧ ofExpr? b = some r ∧ f q r = some p ∧
      (∀ c ∈ a.coefficients, P c) ∧ (∀ c ∈ b.coefficients, P c) ∧
      ∀ c ∈ operation q r, P c := by
  obtain ⟨q, hq, h⟩ := Option.bind_eq_some_iff.1 h
  obtain ⟨r, hr, hp⟩ := Option.bind_eq_some_iff.1 h
  rw [List.forall_mem_append, List.forall_mem_append, Expr.coefficientsOf, hq, hr]
    at hcoefficients
  exact ⟨q, r, hq, hr, hp, hcoefficients.1.1, hcoefficients.1.2, hcoefficients.2⟩

theorem exists_operand {f : Polynomial → Option Polynomial} {operation : Polynomial → List Number}
    (h : (ofExpr? a).bind f = some p)
    (hcoefficients : ∀ c ∈ a.coefficients ++ ((ofExpr? a).map operation).getD [], P c) :
    ∃ q, ofExpr? a = some q ∧ f q = some p ∧ (∀ c ∈ a.coefficients, P c) ∧
      ∀ c ∈ operation q, P c := by
  obtain ⟨q, hq, hp⟩ := Option.bind_eq_some_iff.1 h
  rw [List.forall_mem_append, hq] at hcoefficients
  exact ⟨q, hq, hp, hcoefficients.1, hcoefficients.2⟩

end ofExpr

end Polynomial

end SchoolAlgebra
