import Mathlib
import SchoolAlgebra.Proofs.Number.LowestTerms
import SchoolAlgebra.Proofs.Number.ResultKind
import SchoolAlgebra.Proofs.Polynomial.Canonical

/-!
# Simplified coefficients

Combining terms makes an integer of every fraction whose value a signed word holds, and every
operation combines terms at its end, except the negation, which reverses each sign in its place. So
one fraction of such a value can stand in a polynomial: that of `-2 ^ 63`, which is left where the
sign of `2 ^ 63` is reversed, a value that no signed word holds.
-/

namespace SchoolAlgebra

namespace Number

/-- Whether the number is a fraction of the given value. -/
def IsFractionOf (q : ℚ) (a : Number) : Prop := ∃ f, a = fraction f ∧ f.toRat = q

theorem simplified_fraction_eq_iff {f : Fraction} :
    (fraction f).simplified = fraction f ↔ ¬FitsInteger f.toRat := by
  unfold simplified toInt64?
  dsimp only
  by_cases hfits : FitsInteger f.toRat
  · obtain ⟨v, hv⟩ := hfits.2.exists_int64?
    simp [hfits, hfits.1, hv]
  · have hnone : (if f.toRat.den = 1 then Word.int64? f.toRat.num else none) = none := by
      rw [ite_eq_right_iff]
      exact fun hden ↦ Word.int64?_eq_none_iff.2 fun hword ↦ hfits ⟨hden, hword⟩
    simp [hfits, hnone]

/-- Of the values that no signed word holds, one has an opposite that a signed word holds. -/
theorem fitsInteger_neg_iff {q : ℚ} (h : FitsInteger q → q = -2 ^ 63) :
    FitsInteger (-q) ↔ q = 2 ^ 63 := by
  constructor
  · rintro ⟨hden, hmin, hmax⟩
    rw [Rat.neg_den] at hden
    rw [Rat.neg_num] at hmin hmax
    have hlo : Int64.minValue.toInt = -9223372036854775808 := rfl
    have hhi : Int64.maxValue.toInt = 9223372036854775807 := rfl
    by_cases hfits : FitsInteger q
    · have hnum : q.num = -9223372036854775808 := by
        rw [h hfits]
        decide +kernel
      omega
    · have hnum : q.num = 9223372036854775808 := by
        by_contra hne
        exact hfits ⟨hden, by omega, by omega⟩
      rw [← Rat.coe_int_num_of_den_eq_one hden, hnum]
      norm_num
  · rintro rfl
    decide +kernel

@[simp] theorem isFractionOf_fraction {f : Fraction} {q : ℚ} :
    (fraction f).IsFractionOf q ↔ f.toRat = q := by
  simp [IsFractionOf]

/--
The opposite of a number is simplified, unless the number is a fraction of `2 ^ 63`, provided that
the number itself is simplified or the opposite of such a fraction.
-/
theorem simplified_neg_iff {a : Number} (h : a.simplified = a ∨ a.IsFractionOf (-2 ^ 63)) :
    (-a).simplified = -a ↔ ¬a.IsFractionOf (2 ^ 63) := by
  cases a with
  | float x => exact iff_of_true rfl (by simp [IsFractionOf])
  | integer v =>
    refine iff_of_true ?_ (by simp [IsFractionOf])
    have hneg : -integer v = ((Word.int64? (-v.toInt)).map integer).getD
        (float (-Binary64.ofInt v.toInt)) := rfl
    rw [hneg]
    cases Word.int64? (-v.toInt) <;> rfl
  | fraction f =>
    have hneg : -fraction f = fraction f.negated := rfl
    rw [simplified_fraction_eq_iff, isFractionOf_fraction] at h
    rw [hneg, simplified_fraction_eq_iff, f.toRat_negated, isFractionOf_fraction,
      fitsInteger_neg_iff fun hfits ↦ h.resolve_left (not_not_intro hfits)]

end Number

namespace Polynomial

/-- Whether no coefficient is a fraction whose value a signed word holds. -/
def IsSimplified (p : Polynomial) : Prop := ∀ t ∈ p.terms, t.coefficient.simplified = t.coefficient

variable {p q r result base : Polynomial} {terms : List Term} {n : ℕ}

theorem isSimplified_combine (terms : List Term) : (combine terms).IsSimplified := by
  refine List.forall_mem_map.2 fun t _ ↦ ?_
  exact t.coefficient.simplified_simplified

theorem isSimplified_of_mul? (h : p.mul? q = some r) : r.IsSimplified := by
  obtain ⟨_, _, hr, _⟩ := eq_of_mul? h
  exact hr ▸ isSimplified_combine _

theorem isSimplified_of_div? (h : p.div? q = some r) : r.IsSimplified := by
  obtain ⟨_, _, ⟨_, hr, _⟩ | ⟨_, _, _, hr, _⟩⟩ := eq_of_div? h
  · obtain ⟨_, _, hr, _⟩ := eq_of_divNumber? hr
    exact hr ▸ isSimplified_combine _
  · exact hr ▸ isSimplified_combine _

theorem isSimplified_of_powFrom? (hresult : result.IsSimplified)
    (h : powFrom? result base n = some r) : r.IsSimplified := by
  refine powFrom?_induction (P := fun _ ↦ True)
    (motive := fun result _ _ r ↦ result.IsSimplified → r.IsSimplified) ?_ ?_ ?_ h
    (fun _ _ ↦ trivial) hresult
  · intro _ _ hresult
    exact hresult
  · intro _ _ _ hnext _
    exact isSimplified_of_mul? hnext.1
  · intro result _ next _ _ _ hnext _ _ ih hresult
    rcases hnext with ⟨_, hproduct, _⟩ | ⟨_, hsame⟩
    · exact ih (isSimplified_of_mul? hproduct)
    · exact ih (hsame ▸ hresult)

theorem isSimplified_of_powNumber? {exponent : Number} (h : p.powNumber? exponent = some r) :
    r.IsSimplified := by
  rcases eq_of_powNumber? h with ⟨_, c, _, _, hr, _⟩ | ⟨_, ⟨_, _, _, _, hr, _⟩ | hroot⟩
  · exact hr ▸ isSimplified_combine _
  · rcases eq_of_powWhole? hr with ⟨_, _, _, _, _, _, hr, _⟩ | ⟨hr, _⟩
    · exact hr ▸ isSimplified_combine _
    · exact isSimplified_of_powFrom? (isSimplified_combine _) hr
  · obtain ⟨_, _, _, _, _, hr, _, _⟩ := hroot
    obtain ⟨_, _, _, _, _, _, _, _, hr, _⟩ := eq_of_rootTerm? hr
    exact hr ▸ isSimplified_combine _

/--
What holds of every polynomial that can be obtained. That it can be obtained is a part of it, since
the last part names the polynomial that was negated.
-/
structure IsNearlySimplified (p : Polynomial) : Prop where
  isObtainable : p.IsObtainable
  coefficient : ∀ t ∈ p.terms,
    t.coefficient.simplified = t.coefficient ∨ t.coefficient.IsFractionOf (-2 ^ 63)
  isSimplified_or_neg : p.IsSimplified ∨ ∃ q, q.IsObtainable ∧ p = -q

theorem IsSimplified.isNearlySimplified (hp : p.IsSimplified) (h : p.IsObtainable) :
    p.IsNearlySimplified :=
  ⟨h, fun t ht ↦ .inl (hp t ht), .inl hp⟩

theorem IsNearlySimplified.neg (hp : p.IsNearlySimplified) : (-p).IsNearlySimplified := by
  refine ⟨.neg hp.isObtainable, List.forall_mem_map.2 fun t ht ↦ ?_,
    .inr ⟨p, hp.isObtainable, rfl⟩⟩
  by_cases hfraction : t.coefficient.IsFractionOf (2 ^ 63)
  · obtain ⟨f, hf, hvalue⟩ := hfraction
    exact .inr ⟨f.negated, by rw [Term.neg, hf]; rfl, by rw [f.toRat_negated, hvalue]⟩
  · exact .inl ((Number.simplified_neg_iff (hp.coefficient t ht)).2 hfraction)

theorem isClosed_isNearlySimplified : IsClosed IsNearlySimplified where
  ofNumber v := (isSimplified_combine _).isNearlySimplified (.ofNumber v)
  add hp hq := (isSimplified_combine _).isNearlySimplified (.add hp.isObtainable hq.isObtainable)
  sub hp hq := (isSimplified_combine _).isNearlySimplified (.sub hp.isObtainable hq.isObtainable)
  neg hp := hp.neg
  mul? hp hq h :=
    (isSimplified_of_mul? h).isNearlySimplified (.mul? hp.isObtainable hq.isObtainable h)
  div? hp hq h :=
    (isSimplified_of_div? h).isNearlySimplified (.div? hp.isObtainable hq.isObtainable h)
  powNumber? hp h :=
    (isSimplified_of_powNumber? h).isNearlySimplified (.powNumber? hp.isObtainable h)

theorem IsObtainable.isNearlySimplified (h : p.IsObtainable) : p.IsNearlySimplified := by
  refine isClosed_isNearlySimplified.of_isObtainable ?_ ?_ ?_ ?_ h
  · exact IsSimplified.isNearlySimplified nofun .zero
  · exact fun name ↦ (isSimplified_combine _).isNearlySimplified (.ofName name)
  · intro terms q hq
    obtain ⟨_, _, hcombine, _⟩ := eq_of_ofTerms? hq
    exact (hcombine ▸ isSimplified_combine _ : q.IsSimplified).isNearlySimplified (.ofTerms? hq)
  · intro p factor hq
    exact (isSimplified_combine _).isNearlySimplified (.scale hq.isObtainable factor)

theorem IsNearlySimplified.isSimplified_neg_iff (hp : p.IsNearlySimplified) :
    (-p).IsSimplified ↔ ∀ t ∈ p.terms, ¬t.coefficient.IsFractionOf (2 ^ 63) :=
  List.forall_mem_map.trans
    (forall₂_congr fun t ht ↦ Number.simplified_neg_iff (hp.coefficient t ht))

/--
In a polynomial that can be obtained, a coefficient is its own simplification unless it is a
fraction of `-2 ^ 63`. Such a fraction stands only in the negation of a polynomial with a fraction
of `2 ^ 63`.
-/
theorem simplified_eq_iff_of_isObtainable (h : p.IsObtainable) :
    (∀ t ∈ p.terms, t.coefficient.simplified = t.coefficient ↔
      ¬t.coefficient.IsFractionOf (-2 ^ 63)) ∧
    (p.IsSimplified ↔ ¬∃ q, q.IsObtainable ∧ p = -q ∧
      ∃ t ∈ q.terms, t.coefficient.IsFractionOf (2 ^ 63)) := by
  constructor
  · intro t ht
    refine ⟨?_, (h.isNearlySimplified.coefficient t ht).resolve_right⟩
    rintro hsimplified ⟨f, hf, hvalue⟩
    rw [hf, Number.simplified_fraction_eq_iff, hvalue] at hsimplified
    exact hsimplified (by decide +kernel)
  · constructor
    · rintro hp ⟨q, hq, rfl, t, ht, hfraction⟩
      exact hq.isNearlySimplified.isSimplified_neg_iff.1 hp t ht hfraction
    · intro hnone
      rcases h.isNearlySimplified.isSimplified_or_neg with hp | ⟨q, hq, rfl⟩
      · exact hp
      · rw [hq.isNearlySimplified.isSimplified_neg_iff]
        exact fun t ht hfraction ↦ hnone ⟨q, hq, rfl, t, ht, hfraction⟩

/-- The negation of `2 ^ 63 * x + 1/2`, both coefficients of which are fractions. -/
theorem simplified_eq_iff_of_isObtainable_neg :
    ∃ p : Polynomial,
      p.terms = [⟨.fraction ⟨true, 2 ^ 63, 0, 1, by decide⟩, .ofName "x"⟩,
        ⟨.fraction ⟨true, 0, 1, 2, by decide⟩, .one⟩] ∧
      p.IsObtainable ∧
      (∀ t ∈ p.terms, t.coefficient.simplified = t.coefficient ↔
        ¬t.coefficient.IsFractionOf (-2 ^ 63)) ∧
      (p.IsSimplified ↔ ¬∃ q, q.IsObtainable ∧ p = -q ∧
        ∃ t ∈ q.terms, t.coefficient.IsFractionOf (2 ^ 63)) := by
  have hterms : ofTerms? [⟨.fraction ⟨false, 2 ^ 63, 0, 1, by decide⟩, .ofName "x"⟩,
      ⟨.fraction .half, .one⟩] =
      some ⟨[⟨.fraction ⟨false, 2 ^ 63, 0, 1, by decide⟩, .ofName "x"⟩,
        ⟨.fraction .half, .one⟩]⟩ := by decide +kernel
  have h := IsObtainable.neg (.ofTerms? hterms)
  exact ⟨_, by decide +kernel, h, simplified_eq_iff_of_isObtainable h⟩

/-- The negation of `2 ^ 63 * x` has a coefficient that is a fraction and not simplified. -/
theorem exists_isObtainable_not_isSimplified :
    ∃ p : Polynomial, p.terms = [⟨.fraction ⟨true, 2 ^ 63, 0, 1, by decide⟩, .ofName "x"⟩] ∧
      p.IsObtainable ∧ ¬p.IsSimplified := by
  have hterms : ofTerms? [⟨.fraction ⟨false, 2 ^ 63, 0, 1, by decide⟩, .ofName "x"⟩] =
      some ⟨[⟨.fraction ⟨false, 2 ^ 63, 0, 1, by decide⟩, .ofName "x"⟩]⟩ := by
    decide +kernel
  have hneg : (-(⟨[⟨.fraction ⟨false, 2 ^ 63, 0, 1, by decide⟩, .ofName "x"⟩]⟩ :
      Polynomial)).terms = [⟨.fraction ⟨true, 2 ^ 63, 0, 1, by decide⟩, .ofName "x"⟩] := by
    decide +kernel
  refine ⟨_, hneg, .neg (.ofTerms? hterms), fun hsimplified ↦ ?_⟩
  have hinteger : (Number.fraction ⟨true, 2 ^ 63, 0, 1, by decide⟩).simplified =
      .integer Int64.minValue := by decide +kernel
  have hself := hsimplified _ (hneg.symm ▸ List.mem_cons_self)
  have hsame := hinteger.symm.trans hself
  cases hsame

end Polynomial

end SchoolAlgebra
