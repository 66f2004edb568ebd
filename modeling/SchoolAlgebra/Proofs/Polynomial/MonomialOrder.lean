import Mathlib
import SchoolAlgebra.Polynomial.Division
import SchoolAlgebra.Proofs.Polynomial.Ascending
import SchoolAlgebra.Proofs.Polynomial.Exponents

/-!
# The order of canonical monomials

Canonical monomials are ordered by their exponents, lexicographically along the names: the first
name at which two monomials differ decides, and the greater exponent comes first. So a common factor
does not change the order of two monomials. Read as digits of one number, the exponents fall along
the order, which therefore has no endless chain over finitely many names.
-/

namespace SchoolAlgebra.Monomial

section factors

variable {f g : VariablePower} {fs gs : List VariablePower} {name : String}

theorem exponentIn_cons_of_lt (h : ((f :: fs).map (·.name)).Pairwise (· < ·))
    (hlt : name < f.name) : exponentIn (f :: fs) name = 0 := by
  apply exponentIn_eq_zero
  rw [List.map_cons, List.mem_cons, not_or]
  refine ⟨ne_of_lt hlt, fun hmem ↦ ?_⟩
  exact lt_asymm hlt (List.rel_of_pairwise_cons h hmem)

theorem exponentIn_cons_self (h : ((f :: fs).map (·.name)).Pairwise (· < ·)) :
    exponentIn (f :: fs) f.name = f.power.toNat :=
  exponentIn_eq_power (h.imp fun hlt ↦ ne_of_lt hlt) List.mem_cons_self

/-- What comes first has the greater exponent at the first name at which the exponents differ. -/
theorem exists_of_compareFactors_eq_lt (hf : (fs.map (·.name)).Pairwise (· < ·))
    (hg : (gs.map (·.name)).Pairwise (· < ·)) (hpower : ∀ f ∈ fs, f.power ≠ 0)
    (h : compareFactors fs gs = .lt) :
    ∃ name, (∀ other < name, exponentIn gs other = exponentIn fs other) ∧
      exponentIn gs name < exponentIn fs name := by
  induction fs generalizing gs with
  | nil => cases gs <;> simp [compareFactors] at h
  | cons f fs ih =>
    have hpos : 0 < f.power.toNat := by
      apply Nat.pos_of_ne_zero
      exact fun hzero ↦ hpower f List.mem_cons_self (UInt32.toNat_inj.1 hzero)
    cases gs with
    | nil =>
      refine ⟨f.name, fun other hlt ↦ (exponentIn_cons_of_lt hf hlt).symm, ?_⟩
      rwa [exponentIn_cons_self hf]
    | cons g gs =>
      simp only [compareFactors, Ordering.then_eq_lt] at h
      rcases h with hname | ⟨hname, hpower' | ⟨hpower', hrest⟩⟩
      · rw [compare_lt_iff_lt] at hname
        refine ⟨f.name, fun other hlt ↦ ?_, ?_⟩
        · rw [exponentIn_cons_of_lt hf hlt, exponentIn_cons_of_lt hg (hlt.trans hname)]
        · rwa [exponentIn_cons_of_lt hg hname, exponentIn_cons_self hf]
      · have hsame : f.name = g.name := Std.compare_eq_iff_eq.1 hname
        refine ⟨f.name, fun other hlt ↦ ?_, ?_⟩
        · rw [exponentIn_cons_of_lt hf hlt, exponentIn_cons_of_lt hg (hsame ▸ hlt)]
        · rw [exponentIn_cons_self hf, hsame, exponentIn_cons_self hg]
          exact UInt32.lt_iff_toNat_lt.1 (Std.compare_eq_lt.1 hpower')
      · have hsame : f.name = g.name := Std.compare_eq_iff_eq.1 hname
        have hequal : g.power = f.power := Std.compare_eq_iff_eq.1 hpower'
        obtain ⟨name, hbelow, hat⟩ := ih (List.Pairwise.of_cons hf) (List.Pairwise.of_cons hg)
          (fun f' hf' ↦ hpower f' (List.mem_cons_of_mem _ hf')) hrest
        refine ⟨name, fun other hlt ↦ ?_, ?_⟩
        · rw [exponentIn_cons, exponentIn_cons, hsame, hequal, hbelow other hlt]
        · rw [exponentIn_cons, exponentIn_cons, hsame, hequal]
          exact Nat.add_lt_add_left hat _

end factors

variable {a b x y : Monomial}

theorem IsCanonical.exponents_lt_of_compare (ha : a.IsCanonical) (hb : b.IsCanonical)
    (h : a.compare b = .lt) : toLex b.exponents < toLex a.exponents :=
  Finsupp.Lex.lt_iff.2
    (exists_of_compareFactors_eq_lt ha.names_pairwise hb.names_pairwise ha.power_ne_zero h)

/-- The order of canonical monomials is the reverse of the lexicographic order of exponents. -/
theorem IsCanonical.compare_eq_lt_iff (ha : a.IsCanonical) (hb : b.IsCanonical) :
    a.compare b = .lt ↔ toLex b.exponents < toLex a.exponents := by
  refine ⟨ha.exponents_lt_of_compare hb, fun hlt ↦ ?_⟩
  cases hcompare : a.compare b with
  | lt => rfl
  | eq =>
    rw [compare_eq_iff.1 hcompare] at hlt
    exact absurd hlt (lt_irrefl _)
  | gt =>
    have hswap : b.compare a = .lt := by rw [← compare_swap, hcompare]; rfl
    exact absurd (hb.exponents_lt_of_compare ha hswap) (lt_asymm hlt)

/-- Two monomials with a common factor are ordered as they are without it. -/
theorem compare_eq_lt_iff_of_add {s : String →₀ ℕ} (ha : a.IsCanonical) (hb : b.IsCanonical)
    (hx : x.IsCanonical) (hy : y.IsCanonical) (hxa : x.exponents = s + a.exponents)
    (hyb : y.exponents = s + b.exponents) : x.compare y = .lt ↔ a.compare b = .lt := by
  rw [hx.compare_eq_lt_iff hy, ha.compare_eq_lt_iff hb, hxa, hyb, toLex_add, toLex_add]
  exact add_lt_add_iff_left _

theorem IsCanonical.exponent_lt_size (ha : a.IsCanonical) (name : String) :
    a.exponent name < UInt32.size := by
  by_cases hname : name ∈ a.names
  · obtain ⟨f, hf, hfname⟩ := List.mem_map.1 hname
    rw [← hfname, ha.exponent_eq_power hf]
    exact f.power.toNat_lt_size
  · rw [exponent, exponentIn_eq_zero hname]
    decide

/-- A greater number stays greater, whatever digits follow it. -/
theorem foldl_exponent_lt (hb : b.IsCanonical) (names : List String) {m n : ℕ} (h : m < n) :
    names.foldl (fun m name ↦ m * UInt32.size + b.exponent name) m <
      names.foldl (fun n name ↦ n * UInt32.size + a.exponent name) n := by
  induction names generalizing m n with
  | nil => exact h
  | cons name names ih =>
    apply ih
    calc m * UInt32.size + b.exponent name < m * UInt32.size + UInt32.size :=
          Nat.add_lt_add_left (hb.exponent_lt_size name) _
      _ = (m + 1) * UInt32.size := (Nat.succ_mul _ _).symm
      _ ≤ n * UInt32.size := Nat.mul_le_mul_right _ h
      _ ≤ n * UInt32.size + a.exponent name := Nat.le_add_right _ _

/-- Whether the monomial is canonical and its names are among the given ones. -/
def IsCanonicalIn (names : List String) (m : Monomial) : Prop :=
  m.IsCanonical ∧ ∀ name ∈ m.names, name ∈ names

theorem isClosed_isCanonicalIn (names : List String) : IsClosed (IsCanonicalIn names) :=
  isClosed_isCanonical.and (isClosed_forall_names _)

/-- Along the order, the number whose digits are the exponents falls. -/
theorem leadingRank_lt {names : List String} (hnames : names.Pairwise (· < ·))
    (ha : a.IsCanonicalIn names) (hb : b.IsCanonical) (h : a.compare b = .lt) :
    Polynomial.leadingRank names b < Polynomial.leadingRank names a := by
  obtain ⟨hcanonical, hmem⟩ := ha
  obtain ⟨name, hbelow, hat⟩ := Finsupp.Lex.lt_iff.1 (hcanonical.exponents_lt_of_compare hb h)
  have hname : name ∈ names :=
    hmem name (mem_names_of_exponent_ne_zero (Nat.ne_of_gt (Nat.zero_lt_of_lt hat)))
  obtain ⟨before, after, hsplit⟩ := List.append_of_mem hname
  rw [hsplit] at hnames
  have hbefore : ∀ n, before.foldl (fun n name ↦ n * UInt32.size + b.exponent name) n =
      before.foldl (fun n name ↦ n * UInt32.size + a.exponent name) n := by
    intro n
    apply List.foldl_ext
    intro n other hother
    have hlt := (List.pairwise_append.1 hnames).2.2 other hother name List.mem_cons_self
    exact congrArg (n * UInt32.size + ·) (hbelow other hlt)
  unfold Polynomial.leadingRank
  rw [hsplit, List.foldl_append, List.foldl_append, hbefore, List.foldl_cons, List.foldl_cons]
  exact foldl_exponent_lt hb after (Nat.add_lt_add_left hat _)

/-- Over finitely many names, no chain of canonical monomials descends for ever. -/
theorem exists_compare_ne_lt {names : List String} {chain : ℕ → Monomial}
    (h : ∀ i, (chain i).IsCanonicalIn names) : ∃ i, (chain i).compare (chain (i + 1)) ≠ .lt := by
  by_contra hnone
  simp only [ne_eq, not_exists, not_not] at hnone
  have hranks : StrictAnti fun i ↦ Polynomial.leadingRank (Text.sortNames names) (chain i) := by
    apply strictAnti_nat_of_succ_lt
    intro i
    refine leadingRank_lt (Text.pairwise_sortNames names) ⟨(h i).1, ?_⟩ (h (i + 1)).1 (hnone i)
    exact fun name hname ↦ Text.mem_sortNames.2 ((h i).2 name hname)
  exact not_strictAnti_of_wellFoundedLT _ hranks

end SchoolAlgebra.Monomial
