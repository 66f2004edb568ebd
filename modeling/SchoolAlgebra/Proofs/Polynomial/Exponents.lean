import Mathlib
import SchoolAlgebra.Proofs.Polynomial.Inversion

/-!
# Exponents of monomials

A monomial is known by its exponents. The monomials that the operations build have the sums, the
differences and the multiples of the exponents of their operands, and they are canonical: a
canonical monomial is determined by its exponents.
-/

namespace SchoolAlgebra

namespace Monomial

theorem exponentIn_eq_zero {factors : List VariablePower} {name : String}
    (h : name ∉ factors.map (·.name)) : exponentIn factors name = 0 := by
  induction factors with
  | nil => rfl
  | cons f factors ih =>
    rw [List.map_cons, List.mem_cons, not_or] at h
    rw [exponentIn_cons, if_neg (Ne.symm h.1), ih h.2]

theorem exponentIn_eq_power {factors : List VariablePower} {f : VariablePower}
    (hnames : (factors.map (·.name)).Nodup) (hf : f ∈ factors) :
    exponentIn factors f.name = f.power.toNat := by
  induction factors with
  | nil => exact absurd hf List.not_mem_nil
  | cons g factors ih =>
    rw [List.map_cons, List.nodup_cons] at hnames
    rw [exponentIn_cons]
    rcases List.mem_cons.1 hf with hself | hrest
    · rw [← hself] at hnames ⊢
      rw [if_pos rfl, exponentIn_eq_zero hnames.1, add_zero]
    · have hne : g.name ≠ f.name := by
        intro heq
        exact hnames.1 (heq ▸ List.mem_map_of_mem hrest)
      rw [if_neg hne, zero_add, ih hnames.2 hrest]

theorem exponentIn_filter (factors : List VariablePower) (name : String) :
    exponentIn (factors.filter fun f ↦ f.power ≠ 0) name = exponentIn factors name := by
  induction factors with
  | nil => rfl
  | cons f factors ih =>
    by_cases hpower : f.power = 0
    · rw [List.filter_cons_of_neg (by simpa using hpower), ih, exponentIn_cons, hpower]
      simp
    · rw [List.filter_cons_of_pos (by simpa using hpower), exponentIn_cons, exponentIn_cons, ih]

/-- Whether the names ascend and no power is zero. -/
structure IsCanonical (m : Monomial) : Prop where
  names_pairwise : m.names.Pairwise (· < ·)
  power_ne_zero : ∀ f ∈ m.factors, f.power ≠ 0

theorem IsCanonical.nodup_names {m : Monomial} (h : m.IsCanonical) : m.names.Nodup :=
  h.names_pairwise.imp fun hlt ↦ ne_of_lt hlt

theorem IsCanonical.exponent_eq_power {m : Monomial} (h : m.IsCanonical) {f : VariablePower}
    (hf : f ∈ m.factors) : m.exponent f.name = f.power.toNat :=
  exponentIn_eq_power h.nodup_names hf

theorem mem_names_of_exponent_ne_zero {m : Monomial} {name : String}
    (h : m.exponent name ≠ 0) : name ∈ m.names := by
  by_contra hname
  exact h (exponentIn_eq_zero hname)

/-- In a canonical monomial, the factors are the names with an exponent other than zero. -/
theorem IsCanonical.mem_factors_iff {m : Monomial} (h : m.IsCanonical) {f : VariablePower} :
    f ∈ m.factors ↔ f.power ≠ 0 ∧ m.exponent f.name = f.power.toNat := by
  constructor
  · intro hf
    exact ⟨h.power_ne_zero f hf, h.exponent_eq_power hf⟩
  · intro ⟨hpower, hexponent⟩
    have hne : m.exponent f.name ≠ 0 := by
      rw [hexponent]
      exact fun hzero ↦ hpower (UInt32.toNat_inj.1 hzero)
    obtain ⟨g, hg, hname⟩ := List.mem_map.1 (mem_names_of_exponent_ne_zero hne)
    have hsame : g = f := by
      have hpow := h.exponent_eq_power hg
      rw [hname, hexponent] at hpow
      cases f
      cases g
      rw [VariablePower.mk.injEq]
      exact ⟨hname, (UInt32.toNat_inj.1 hpow).symm⟩
    exact hsame ▸ hg

/-- A canonical monomial is determined by its exponents. -/
theorem IsCanonical.eq_of_exponent_eq {a b : Monomial} (ha : a.IsCanonical) (hb : b.IsCanonical)
    (h : ∀ name, a.exponent name = b.exponent name) : a = b := by
  have hmem : ∀ f, f ∈ a.factors ↔ f ∈ b.factors := by
    intro f
    rw [ha.mem_factors_iff, hb.mem_factors_iff, h]
  have hasorted : a.factors.Pairwise (·.name < ·.name) := List.pairwise_map.1 ha.names_pairwise
  have hbsorted : b.factors.Pairwise (·.name < ·.name) := List.pairwise_map.1 hb.names_pairwise
  have hperm : a.factors.Perm b.factors :=
    (List.perm_ext_iff_of_nodup ha.nodup_names.of_map hb.nodup_names.of_map).2 hmem
  have hfactors : a.factors = b.factors :=
    hperm.eq_of_pairwise (fun f g _ _ hfg hgf ↦ absurd hfg (lt_asymm hgf)) hasorted hbsorted
  cases a
  cases b
  exact congrArg Monomial.mk hfactors

/-! ## Monomials with given exponents -/

section ofExponents

variable {names : List String} {exponent : String → ℕ} {m : Monomial}

theorem factors_of_ofExponents? (h : ofExponents? names exponent = some m) :
    ∃ factors : List VariablePower, factors.map (·.name) = Text.sortNames names ∧
      (∀ f ∈ factors, f.power.toNat = exponent f.name) ∧
        m.factors = factors.filter fun f ↦ f.power ≠ 0 := by
  unfold ofExponents? at h
  simp only [Option.bind_eq_bind, Option.bind_eq_some_iff] at h
  obtain ⟨factors, hfactors, hm⟩ := h
  have hfactor : ∀ name f, (Word.uint32? (exponent name)).map (VariablePower.mk name) = some f →
      name = f.name ∧ f.power.toNat = exponent f.name := by
    intro name f hf
    obtain ⟨power, hpower, hf⟩ := Option.map_eq_some_iff.1 hf
    rw [← hf]
    exact ⟨rfl, Word.uint32?_eq_some_iff.1 hpower⟩
  refine ⟨factors, ?_, ?_, congrArg Monomial.factors (Option.some.inj hm).symm⟩
  · have hnames := (forall₂_of_mapM_eq_some hfactors).imp fun name f hf ↦ (hfactor name f hf).1
    rw [← List.forall₂_map_right_iff, List.forall₂_eq_eq_eq] at hnames
    exact hnames.symm
  · intro f hf
    obtain ⟨name, _, hname⟩ := exists_of_mem_mapM hfactors hf
    exact (hfactor name f hname).2

theorem exponent_of_ofExponents? (h : ofExponents? names exponent = some m) (name : String) :
    m.exponent name = if name ∈ names then exponent name else 0 := by
  obtain ⟨factors, hnames, hpowers, hm⟩ := factors_of_ofExponents? h
  have hnodup : (factors.map (·.name)).Nodup := by
    rw [hnames]
    exact (Text.pairwise_sortNames names).imp fun hlt ↦ ne_of_lt hlt
  have hmem : name ∈ names ↔ name ∈ factors.map (·.name) := by
    rw [hnames, Text.mem_sortNames]
  rw [Monomial.exponent, hm, exponentIn_filter]
  by_cases hname : name ∈ names
  · obtain ⟨f, hf, hfname⟩ := List.mem_map.1 (hmem.1 hname)
    rw [if_pos hname, ← hfname, exponentIn_eq_power hnodup hf, hpowers f hf]
  · rw [if_neg hname, exponentIn_eq_zero (fun hin ↦ hname (hmem.2 hin))]

theorem isCanonical_of_ofExponents? (h : ofExponents? names exponent = some m) :
    m.IsCanonical := by
  obtain ⟨factors, hnames, _, hm⟩ := factors_of_ofExponents? h
  have hsorted : factors.Pairwise (·.name < ·.name) := by
    apply List.pairwise_map.1
    rw [hnames]
    exact Text.pairwise_sortNames names
  constructor
  · rw [Monomial.names, hm]
    exact List.pairwise_map.2 (hsorted.filter _)
  · intro f hf
    rw [hm] at hf
    simpa using List.of_mem_filter hf

theorem mem_of_ofExponents? (h : ofExponents? names exponent = some m) {name : String}
    (hname : name ∈ m.names) : name ∈ names := by
  obtain ⟨factors, hnames, _, hm⟩ := factors_of_ofExponents? h
  rw [Monomial.names, hm] at hname
  obtain ⟨f, hf, hfname⟩ := List.mem_map.1 hname
  rw [← Text.mem_sortNames, ← hnames, ← hfname]
  exact List.mem_map_of_mem (List.mem_of_mem_filter hf)

/-- There is no monomial with the given exponents exactly if one of them exceeds a word. -/
theorem ofExponents?_eq_none_iff :
    ofExponents? names exponent = none ↔ ∃ name ∈ names, UInt32.size ≤ exponent name := by
  have hword : ∀ name, (Word.uint32? (exponent name)).map (VariablePower.mk name) = none ↔
      UInt32.size ≤ exponent name := by
    intro name
    rw [Option.map_eq_none_iff, Word.uint32?]
    simp
  calc ofExponents? names exponent = none ↔
        ((Text.sortNames names).mapM fun name ↦
          (Word.uint32? (exponent name)).map (VariablePower.mk name)) = none := by
        simpa [ofExponents?] using Option.eq_none_iff_forall_ne_some.symm
    _ ↔ ∃ name ∈ names, UInt32.size ≤ exponent name := by
        simp only [mapM_eq_none_iff, hword, Text.mem_sortNames]

end ofExponents

/-- The exponents of all variables. -/
noncomputable def exponents (m : Monomial) : String →₀ ℕ :=
  .onFinset m.names.toFinset m.exponent fun _ h ↦
    List.mem_toFinset.2 (mem_names_of_exponent_ne_zero h)

@[simp] theorem exponents_apply (m : Monomial) (name : String) :
    m.exponents name = m.exponent name := rfl

@[simp] theorem exponents_ofName (name : String) :
    (ofName name).exponents = Finsupp.single name 1 := by
  ext other
  by_cases hname : name = other
  · simp [hname, exponent, ofName]
  · simp [hname, exponent, ofName]

/-- Canonical monomials with the same exponents are the same. -/
theorem IsCanonical.eq_of_exponents_eq {a b : Monomial} (ha : a.IsCanonical)
    (hb : b.IsCanonical) (h : a.exponents = b.exponents) : a = b :=
  ha.eq_of_exponent_eq hb fun name ↦ DFunLike.congr_fun h name

theorem exponents_of_ofFactors? {factors : List VariablePower} {m : Monomial}
    (h : ofFactors? factors = some m) : m.exponents = (mk factors).exponents := by
  ext name
  rw [exponents_apply, exponents_apply, exponent_of_ofExponents? h name, exponent,
    ite_eq_left_iff]
  exact fun hname ↦ (exponentIn_eq_zero hname).symm

theorem exponents_of_mul? {a b m : Monomial} (h : a.mul? b = some m) :
    m.exponents = a.exponents + b.exponents := by
  ext name
  rw [Finsupp.add_apply, exponents_apply, exponents_apply, exponents_apply,
    exponent_of_ofExponents? h name, ite_eq_left_iff]
  intro hname
  rw [List.mem_append, not_or] at hname
  rw [exponent, exponent, exponentIn_eq_zero hname.1, exponentIn_eq_zero hname.2]

theorem exponents_of_div? {a b m : Monomial} (h : a.div? b = some m) :
    m.exponents + b.exponents = a.exponents := by
  obtain ⟨hdvd, hm⟩ := Option.ite_none_right_eq_some.1 h
  ext name
  rw [Finsupp.add_apply, exponents_apply, exponents_apply, exponents_apply,
    exponent_of_ofExponents? hm name]
  have hle : b.exponent name ≤ a.exponent name := by
    by_cases hname : name ∈ b.names
    · simpa using List.all_eq_true.1 hdvd name hname
    · rw [exponent, exponentIn_eq_zero hname]
      exact Nat.zero_le _
  split
  · omega
  · rename_i hname
    have hzero : a.exponent name = 0 := exponentIn_eq_zero hname
    omega

theorem exponents_of_pow? {a m : Monomial} {n : ℕ} (h : a.pow? n = some m) :
    m.exponents = n • a.exponents := by
  ext name
  rw [Finsupp.smul_apply, exponents_apply, exponents_apply, exponent_of_ofExponents? h name,
    smul_eq_mul, mul_comm n, ite_eq_left_iff]
  intro hname
  rw [exponent, exponentIn_eq_zero hname, zero_mul]

theorem mul_of_scaledExponent? {exponent n : ℕ} {p q : Int64}
    (h : scaledExponent? exponent p q = some n) (hq : 0 ≤ q.toInt) :
    (n : ℤ) * q.toInt = exponent * p.toInt := by
  unfold scaledExponent? at h
  simp only [Option.bind_eq_bind, Option.bind_eq_some_iff] at h
  obtain ⟨scaled, hscaled, hn⟩ := h
  obtain ⟨⟨hnonneg, hdvd⟩, hn⟩ := Option.ite_none_right_eq_some.1 hn
  rw [← Option.some.inj hn, Int.toNat_of_nonneg (Int.ediv_nonneg hnonneg hq),
    Int.ediv_mul_cancel hdvd, Word.int64?_eq_some_iff.1 hscaled]

theorem exponent_of_root? {a m : Monomial} {p q : Int64} (h : a.root? p q = some m)
    (hq : 0 ≤ q.toInt) (name : String) :
    (m.exponent name : ℤ) * q.toInt = a.exponent name * p.toInt := by
  obtain ⟨hroots, hm⟩ := Option.ite_none_right_eq_some.1 h
  rw [exponent_of_ofExponents? hm name]
  split
  · rename_i hname
    obtain ⟨n, hn⟩ := Option.isSome_iff_exists.1 (List.all_eq_true.1 hroots name hname)
    rw [hn, Option.getD_some]
    exact mul_of_scaledExponent? hn hq
  · rename_i hname
    rw [exponent, exponentIn_eq_zero hname]
    simp

/-- Whether a property of monomials passes on from operands to results. -/
structure IsClosed (P : Monomial → Prop) : Prop where
  one : P one
  mul? {a b m : Monomial} (h : a.mul? b = some m) (ha : P a) (hb : P b) : P m
  div? {a b m : Monomial} (h : a.div? b = some m) (ha : P a) : P m
  pow? {a m : Monomial} {n : ℕ} (h : a.pow? n = some m) (ha : P a) : P m
  root? {a m : Monomial} {p q : Int64} (h : a.root? p q = some m) (ha : P a) : P m

theorem isCanonical_ofName (name : String) : (ofName name).IsCanonical := by
  constructor
  · exact List.pairwise_singleton _ name
  · intro f hf
    rw [List.mem_singleton.1 hf]
    exact (by decide : (1 : UInt32) ≠ 0)

theorem isClosed_isCanonical : IsClosed IsCanonical where
  one := ⟨.nil, nofun⟩
  mul? h _ _ := isCanonical_of_ofExponents? h
  div? h _ := isCanonical_of_ofExponents? (Option.ite_none_right_eq_some.1 h).2
  pow? h _ := isCanonical_of_ofExponents? h
  root? h _ := isCanonical_of_ofExponents? (Option.ite_none_right_eq_some.1 h).2

theorem IsClosed.and {P Q : Monomial → Prop} (hP : IsClosed P) (hQ : IsClosed Q) :
    IsClosed fun m ↦ P m ∧ Q m where
  one := ⟨hP.one, hQ.one⟩
  mul? h ha hb := ⟨hP.mul? h ha.1 hb.1, hQ.mul? h ha.2 hb.2⟩
  div? h ha := ⟨hP.div? h ha.1, hQ.div? h ha.2⟩
  pow? h ha := ⟨hP.pow? h ha.1, hQ.pow? h ha.2⟩
  root? h ha := ⟨hP.root? h ha.1, hQ.root? h ha.2⟩

theorem isClosed_forall_names (P : String → Prop) : IsClosed fun m ↦ ∀ name ∈ m.names, P name where
  one := nofun
  mul? h ha hb name hname := by
    rcases List.mem_append.1 (mem_of_ofExponents? h hname) with hleft | hright
    · exact ha name hleft
    · exact hb name hright
  div? h ha name hname := ha name (mem_of_ofExponents? (Option.ite_none_right_eq_some.1 h).2 hname)
  pow? h ha name hname := ha name (mem_of_ofExponents? h hname)
  root? h ha name hname := ha name (mem_of_ofExponents? (Option.ite_none_right_eq_some.1 h).2 hname)

end Monomial

end SchoolAlgebra
