import Mathlib
import SchoolAlgebra.Polynomial.Basic
import SchoolAlgebra.Proofs.Comparison

/-!
# Ascending terms

The order of monomials is a strict total order on lists of factors. Combining terms sorts them by
their monomials and merges neighbours with the same monomial, so the terms of a combined polynomial
ascend strictly, and no monomial occurs twice.
-/

namespace SchoolAlgebra

namespace Monomial

theorem compareFactors_self (as : List VariablePower) : compareFactors as as = .eq := by
  induction as with
  | nil => rfl
  | cons a as ih => simp [compareFactors, ih]

theorem eq_of_compareFactors_eq {as bs : List VariablePower} (h : compareFactors as bs = .eq) :
    as = bs := by
  induction as generalizing bs with
  | nil =>
    cases bs with
    | nil => rfl
    | cons b bs => simp [compareFactors] at h
  | cons a as ih =>
    cases bs with
    | nil => simp [compareFactors] at h
    | cons b bs =>
      simp only [compareFactors, Ordering.then_eq_eq] at h
      obtain ⟨hname, hpower, hrest⟩ := h
      have hhead : a = b := by
        have hpower' := (Std.compare_eq_iff_eq.1 hpower).symm
        cases a
        cases b
        rw [VariablePower.mk.injEq]
        exact ⟨Std.compare_eq_iff_eq.1 hname, hpower'⟩
      rw [hhead, ih hrest]

theorem compareFactors_swap (as bs : List VariablePower) :
    (compareFactors as bs).swap = compareFactors bs as := by
  induction as generalizing bs with
  | nil => cases bs <;> rfl
  | cons a as ih =>
    cases bs with
    | nil => rfl
    | cons b bs =>
      simp only [compareFactors, Ordering.swap_then, ih]
      rw [← Std.OrientedOrd.eq_swap, ← Std.OrientedOrd.eq_swap]

theorem isTransitive_compareFactors (as bs cs : List VariablePower) :
    IsTransitive (compareFactors as bs) (compareFactors bs cs) (compareFactors as cs) := by
  induction as generalizing bs cs with
  | nil =>
    cases bs with
    | nil => cases cs <;> simp [IsTransitive, compareFactors]
    | cons b bs => simp [IsTransitive, compareFactors]
  | cons a as ih =>
    cases bs with
    | nil => cases cs <;> simp [IsTransitive, compareFactors]
    | cons b bs =>
      cases cs with
      | nil => exact isTransitive_lt _
      | cons c cs =>
        exact (isTransitive_compare a.name b.name c.name).then
          (.then (isTransitive_compare_flip a.power b.power c.power) (ih bs cs))

theorem compare_eq_iff {a b : Monomial} : a.compare b = .eq ↔ a = b := by
  constructor
  · intro h
    cases a
    cases b
    exact congrArg Monomial.mk (eq_of_compareFactors_eq h)
  · intro h
    rw [h]
    exact compareFactors_self b.factors

theorem compare_swap (a b : Monomial) : (a.compare b).swap = b.compare a :=
  compareFactors_swap a.factors b.factors

theorem compare_lt_trans {a b c : Monomial} (hab : a.compare b = .lt) (hbc : b.compare c = .lt) :
    a.compare c = .lt :=
  (isTransitive_compareFactors a.factors b.factors c.factors).lt hab hbc

end Monomial

namespace Polynomial

/-- Whether no term comes before an earlier one in the order of monomials. -/
def IsWeaklyAscending (terms : List Term) : Prop :=
  terms.Pairwise fun s t ↦ t.monomial.compare s.monomial ≠ .lt

/-- Whether each term comes strictly after the earlier ones in the order of monomials. -/
def IsAscending (terms : List Term) : Prop :=
  terms.Pairwise fun s t ↦ s.monomial.compare t.monomial = .lt

theorem compare_ne_lt_trans {a b c : Monomial} (hab : b.compare a ≠ .lt)
    (hbc : c.compare b ≠ .lt) : c.compare a ≠ .lt := by
  rw [← Monomial.compare_swap, ne_eq, Ordering.swap_eq_lt] at hab hbc ⊢
  exact (Monomial.isTransitive_compareFactors a.factors b.factors c.factors).ne_gt hab hbc

theorem isWeaklyAscending_mergeAscending {as bs : List Term} (ha : IsWeaklyAscending as)
    (hb : IsWeaklyAscending bs) : IsWeaklyAscending (mergeAscending as bs) := by
  unfold IsWeaklyAscending at ha hb ⊢
  fun_induction mergeAscending as bs with
  | case1 bs => exact hb
  | case2 a as => exact ha
  | case3 a as b bs hlt ih =>
    obtain ⟨hhead, htail⟩ := List.pairwise_cons.1 hb
    refine List.pairwise_cons.2 ⟨fun t ht ↦ ?_, ih ha htail⟩
    have hab : a.monomial.compare b.monomial ≠ .lt := by
      rw [← Monomial.compare_swap, hlt]
      decide
    rcases List.mem_append.1 ((mergeAscending_perm _ _).mem_iff.1 ht) with hmem | hmem
    · rcases List.mem_cons.1 hmem with hself | hrest
      · exact hself ▸ hab
      · exact compare_ne_lt_trans hab ((List.pairwise_cons.1 ha).1 t hrest)
    · exact hhead t hmem
  | case4 a as b bs hnlt ih =>
    obtain ⟨hhead, htail⟩ := List.pairwise_cons.1 ha
    refine List.pairwise_cons.2 ⟨fun t ht ↦ ?_, ih htail hb⟩
    rcases List.mem_append.1 ((mergeAscending_perm _ _).mem_iff.1 ht) with hmem | hmem
    · exact hhead t hmem
    · rcases List.mem_cons.1 hmem with hself | hrest
      · exact hself ▸ hnlt
      · exact compare_ne_lt_trans hnlt ((List.pairwise_cons.1 hb).1 t hrest)

theorem isWeaklyAscending_sortWithin (depth : ℕ) {terms : List Term}
    (h : terms.length ≤ 2 ^ depth) : IsWeaklyAscending (sortWithin depth terms) := by
  induction depth generalizing terms with
  | zero =>
    match terms, h with
    | [], _ => exact .nil
    | [t], _ => exact List.pairwise_singleton _ t
  | succ depth ih =>
    rw [pow_succ] at h
    have hshift : 1 <<< depth = 2 ^ depth := by rw [Nat.shiftLeft_eq, one_mul]
    apply isWeaklyAscending_mergeAscending
    · exact ih (by rw [List.length_take, hshift]; exact min_le_left _ _)
    · exact ih (by rw [List.length_drop, hshift]; omega)

theorem isWeaklyAscending_sortTerms (terms : List Term) :
    IsWeaklyAscending (sortTerms terms) :=
  isWeaklyAscending_sortWithin _ Nat.lt_log2_self.le

theorem exists_monomial_eq_of_mem_collectFrom {first t : Term} {terms : List Term}
    (ht : t ∈ collectFrom first terms) : ∃ s ∈ first :: terms, s.monomial = t.monomial := by
  fun_induction collectFrom first terms with
  | case1 first => exact ⟨t, ht, rfl⟩
  | case2 first next rest heq ih =>
    obtain ⟨s, hs, hst⟩ := ih ht
    rcases List.mem_cons.1 hs with hself | hrest
    · exact ⟨first, List.mem_cons_self, by rw [← hst, hself]⟩
    · exact ⟨s, List.mem_cons_of_mem _ (List.mem_cons_of_mem _ hrest), hst⟩
  | case3 first next rest hne ih =>
    rcases List.mem_cons.1 ht with hself | hrest
    · exact ⟨first, List.mem_cons_self, by rw [hself]⟩
    · obtain ⟨s, hs, hst⟩ := ih hrest
      exact ⟨s, List.mem_cons_of_mem _ hs, hst⟩

theorem exists_monomial_eq_of_mem_collect {t : Term} {terms : List Term}
    (ht : t ∈ collect terms) : ∃ s ∈ terms, s.monomial = t.monomial := by
  cases terms with
  | nil => exact absurd ht List.not_mem_nil
  | cons first rest => exact exists_monomial_eq_of_mem_collectFrom ht

theorem isAscending_collectFrom {first : Term} {terms : List Term}
    (h : IsWeaklyAscending (first :: terms)) : IsAscending (collectFrom first terms) := by
  unfold IsWeaklyAscending IsAscending at *
  fun_induction collectFrom first terms with
  | case1 first => exact List.pairwise_singleton _ first
  | case2 first next rest heq ih =>
    obtain ⟨hfirst, hrest⟩ := List.pairwise_cons.1 h
    exact ih (List.pairwise_cons.2
      ⟨fun t ht ↦ hfirst t (List.mem_cons_of_mem _ ht), (List.pairwise_cons.1 hrest).2⟩)
  | case3 first next rest hne ih =>
    obtain ⟨hfirst, hrest⟩ := List.pairwise_cons.1 h
    have hnext : first.monomial.compare next.monomial = .lt := by
      have hle := hfirst next List.mem_cons_self
      rw [← Monomial.compare_swap, ne_eq, Ordering.swap_eq_lt] at hle
      cases hcompare : first.monomial.compare next.monomial with
      | lt => rfl
      | eq => exact absurd (Monomial.compare_eq_iff.1 hcompare) hne
      | gt => exact absurd hcompare hle
    refine List.pairwise_cons.2 ⟨fun t ht ↦ ?_, ih hrest⟩
    obtain ⟨s, hs, hst⟩ := exists_monomial_eq_of_mem_collectFrom ht
    rw [← hst]
    rcases List.mem_cons.1 hs with hself | hmem
    · rw [hself, hnext]
    · have hle := (List.pairwise_cons.1 hrest).1 s hmem
      rw [← Monomial.compare_swap, ne_eq, Ordering.swap_eq_lt] at hle
      have htrans := Monomial.isTransitive_compareFactors first.monomial.factors
        next.monomial.factors s.monomial.factors (by rw [← Monomial.compare, hnext]; decide) hle
      rw [Monomial.compare, htrans, ← Monomial.compare, hnext]
      rfl

theorem isAscending_collect {terms : List Term} (h : IsWeaklyAscending terms) :
    IsAscending (collect terms) := by
  cases terms with
  | nil => exact .nil
  | cons first rest => exact isAscending_collectFrom h

/-- The terms of a combined polynomial ascend strictly. -/
theorem isAscending_combine (terms : List Term) : IsAscending (combine terms).terms := by
  have h := isAscending_collect (isWeaklyAscending_sortTerms terms)
  unfold IsAscending combine at *
  exact List.pairwise_map.2 ((h.filter _).imp fun hst ↦ hst)

/-- The monomials of a combined polynomial are among those of the terms. -/
theorem exists_monomial_eq_of_mem_combine {t : Term} {terms : List Term}
    (ht : t ∈ (combine terms).terms) : ∃ s ∈ terms, s.monomial = t.monomial := by
  obtain ⟨u, hu, hut⟩ := List.mem_map.1 ht
  obtain ⟨s, hs, hsu⟩ := exists_monomial_eq_of_mem_collect (List.mem_of_mem_filter hu)
  refine ⟨s, (sortTerms_perm terms).mem_iff.1 hs, ?_⟩
  rw [hsu, ← hut]
  rfl

variable {terms : List Term}

theorem IsAscending.nodup_monomials (h : IsAscending terms) : (terms.map (·.monomial)).Nodup := by
  refine List.pairwise_map.2 (h.imp fun hlt heq ↦ ?_)
  rw [Monomial.compare_eq_iff.2 heq] at hlt
  simp at hlt

theorem sortTerms_eq_self (h : IsAscending terms) : sortTerms terms = terms := by
  have hweakly : IsWeaklyAscending terms := by
    refine h.imp fun hst hts ↦ ?_
    rw [← Monomial.compare_swap, hst] at hts
    simp at hts
  refine (sortTerms_perm terms).eq_of_pairwise ?_ (isWeaklyAscending_sortTerms terms) hweakly
  intro s t hs ht hst hts
  have hmonomial : s.monomial = t.monomial := by
    rw [← Monomial.compare_eq_iff]
    rw [← Monomial.compare_swap, ne_eq, Ordering.swap_eq_lt] at hst
    cases hcompare : s.monomial.compare t.monomial with
    | lt => exact absurd hcompare hts
    | eq => rfl
    | gt => exact absurd hcompare hst
  exact List.inj_on_of_nodup_map h.nodup_monomials ((sortTerms_perm terms).mem_iff.1 hs) ht
    hmonomial

theorem collectFrom_eq_self {first : Term} (h : IsAscending (first :: terms)) :
    collectFrom first terms = first :: terms := by
  induction terms generalizing first with
  | nil => rfl
  | cons next rest ih =>
    obtain ⟨hfirst, hrest⟩ := List.pairwise_cons.1 h
    have hne : first.monomial ≠ next.monomial := by
      intro heq
      have hlt := hfirst next List.mem_cons_self
      rw [Monomial.compare_eq_iff.2 heq] at hlt
      simp at hlt
    rw [collectFrom, if_neg hne, ih hrest]

/-- Where terms ascend and none is negligible, only their coefficients are simplified. -/
theorem terms_combine_of_isAscending (h : IsAscending terms)
    (hkept : ∀ t ∈ terms, t.isNegligible = false) :
    (combine terms).terms = terms.map Term.simplified := by
  have hcollect : collect terms = terms := by
    cases terms with
    | nil => rfl
    | cons first rest => exact collectFrom_eq_self h
  have hfilter : (terms.filter fun t ↦ !t.isNegligible) = terms := by
    rw [List.filter_eq_self]
    intro t ht
    rw [hkept t ht, Bool.not_false]
  rw [combine, sortTerms_eq_self h, hcollect, hfilter]

end Polynomial

end SchoolAlgebra
