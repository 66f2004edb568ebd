import Mathlib
import SchoolAlgebra.Polynomial.Printer
import SchoolAlgebra.Proofs.Polynomial.Identity
import SchoolAlgebra.Proofs.Polynomial.WholePowers

/-!
# Single terms

A term that is not negligible is a polynomial, up to the way in which its coefficient is written.
The expression of a power of a variable reduces to that power, and a product of such expressions
reduces to a single term, factor by factor, as long as the names ascend.
-/

namespace SchoolAlgebra

namespace Number

/-- A fraction times one is its reduced mixed number, if the parts of that are words. -/
theorem fraction_mul_one (f : Fraction) :
    fraction f * integer 1 =
      (f.proper?.map fraction).getD (float (f.toFloat * Binary64.ofInt 1)) := by
  have hproduct : f.mul? (.ofInt64 1) = f.proper? := by
    rw [Fraction.mul?, Fraction.toRat_ofInt64, Fraction.proper?,
      show (1 : Int64).toInt = 1 from rfl, Int.cast_one, mul_one]
  change ((f.mul? (.ofInt64 1)).map fraction).getD _ = _
  rw [hproduct]
  rfl

/-- One is neutral for numbers in lowest terms. -/
theorem mul_one_of_isLowest {c : Number} (hc : c.IsLowest) (hexact : c.isExact = true) :
    c * integer 1 = c := by
  cases c with
  | integer v =>
    have hproduct : Word.int64? (v.toInt * (1 : Int64).toInt) = some v := by
      rw [show (1 : Int64).toInt = 1 from rfl, mul_one, Word.int64?_toInt]
    change ((Word.int64? (v.toInt * (1 : Int64).toInt)).map integer).getD _ = _
    rw [hproduct]
    rfl
  | fraction f =>
    rw [fraction_mul_one, Fraction.proper?, Fraction.IsLowest.ofRat?_toRat hc]
    rfl
  | float x => simp [isExact] at hexact

theorem isReduced_integer (v : Int64) : (integer v).IsReduced := ⟨trivial, rfl⟩

theorem one_powWhole? {n : ℕ} (hn : n ≤ maxOrder) : (integer 1).powWhole? n = some (integer 1) := by
  have hpower : Word.pow? 1 n = some 1 := by
    unfold Word.pow?
    split
    · rfl
    · rw [if_pos (by decide), Option.some.injEq]
      split <;> rfl
  simp [powWhole?, hn, hpower]

end Number

namespace Monomial

variable {as bs : List VariablePower}

theorem exponents_append (as bs : List VariablePower) :
    (mk (as ++ bs)).exponents = (mk as).exponents + (mk bs).exponents := by
  ext name
  exact exponentIn_append as bs name

theorem IsCanonical.left (h : (Monomial.mk (as ++ bs)).IsCanonical) :
    (Monomial.mk as).IsCanonical := by
  obtain ⟨hnames, hpowers⟩ := h
  rw [names, List.map_append] at hnames
  exact ⟨(List.pairwise_append.1 hnames).1,
    fun f hf ↦ hpowers f (List.mem_append_left _ hf)⟩

/-- The product of a monomial with later variables has the factors of both, one after the other. -/
theorem mul?_append (h : (mk (as ++ bs)).IsCanonical) :
    mul? ⟨as⟩ ⟨bs⟩ = some ⟨as ++ bs⟩ := by
  have hsome : mul? ⟨as⟩ ⟨bs⟩ ≠ none := by
    rw [mul?, ne_eq, ofExponents?_eq_none_iff]
    rintro ⟨name, _, hsize⟩
    have hlt := h.exponent_lt_size name
    rw [exponent, exponentIn_append] at hlt
    exact absurd hsize (Nat.not_le.2 hlt)
  obtain ⟨m, hm⟩ := Option.ne_none_iff_exists'.1 hsome
  have hexponents : m.exponents = (mk (as ++ bs)).exponents := by
    rw [exponents_of_mul? hm, exponents_append]
  rw [hm, (isCanonical_of_ofExponents? hm).eq_of_exponents_eq h hexponents]

theorem isCanonical_singleton {f : VariablePower} (hf : f.power ≠ 0) :
    (mk [f]).IsCanonical :=
  ⟨List.pairwise_singleton _ _, fun _ hg ↦ List.mem_singleton.1 hg ▸ hf⟩

/-- The power of a variable. -/
theorem pow?_ofName {f : VariablePower} (hf : f.power ≠ 0) :
    (ofName f.name).pow? f.power.toNat = some ⟨[f]⟩ := by
  have hexponent : ∀ name,
      (ofName f.name).exponent name * f.power.toNat = (mk [f]).exponent name := by
    intro name
    simp only [ofName, exponent, exponentIn_cons, exponentIn_nil]
    split <;> simp
  have hsome : (ofName f.name).pow? f.power.toNat ≠ none := by
    rw [pow?, ne_eq, ofExponents?_eq_none_iff]
    rintro ⟨name, _, hsize⟩
    rw [hexponent] at hsize
    exact absurd hsize (Nat.not_le.2 ((isCanonical_singleton hf).exponent_lt_size name))
  obtain ⟨m, hm⟩ := Option.ne_none_iff_exists'.1 hsome
  have hsame : ∀ name, m.exponent name = (mk [f]).exponent name := by
    intro name
    have hpower := DFunLike.congr_fun (exponents_of_pow? hm) name
    rw [Finsupp.smul_apply, smul_eq_mul, mul_comm] at hpower
    exact hpower.trans (hexponent name)
  rw [hm, (isCanonical_of_ofExponents? hm).eq_of_exponent_eq (isCanonical_singleton hf) hsame]

end Monomial

namespace Polynomial

variable {p q : Polynomial} {s t : Term} {x : ℚ}

/-! ## Polynomials of single terms -/

theorem terms_of_singleTerm? (h : p.singleTerm? = some t) : p.terms = [t] := by
  unfold singleTerm? at h
  split at h
  · rename_i s hterms
    rw [hterms, Option.some.inj h]
  · simp at h

theorem isNegligible_eq_false (h : t.coefficient.toRat? = some x) (hx : x ≠ 0) :
    t.isNegligible = false := by
  have hexact := Number.isExact_of_toRat? h
  rw [Term.isNegligible, if_pos hexact, Bool.eq_false_iff, ne_eq, Number.isZero_iff hexact, h,
    Option.some.injEq]
  exact hx

/-- An exact coefficient of a canonical polynomial has a value other than zero. -/
theorem IsCanonical.exists_toRat? (hp : p.IsCanonical) (ht : t ∈ p.terms)
    (hexact : t.coefficient.isExact = true) : ∃ x, t.coefficient.toRat? = some x ∧ x ≠ 0 := by
  obtain ⟨x, hx⟩ := Number.isExact_iff.1 hexact
  refine ⟨x, hx, ?_⟩
  rintro rfl
  exact hp.not_isExactZero t ht (Number.isExactZero_iff.2 hx)

theorem isNegligible_simplified (t : Term) : t.simplified.isNegligible = t.isNegligible := by
  have hexact : t.coefficient.simplified.isExact = t.coefficient.isExact := by
    rw [Bool.eq_iff_iff, Number.isExact_iff, Number.isExact_iff, Number.toRat?_simplified]
  unfold Term.isNegligible
  change (if t.coefficient.simplified.isExact then _ else _) = _
  rw [hexact]
  split
  · rename_i h
    rw [Bool.eq_iff_iff]
    change t.coefficient.simplified.isZero = true ↔ _
    rw [Number.isZero_iff (hexact.trans h), Number.isZero_iff h, Number.toRat?_simplified]
  · rename_i h
    cases hc : t.coefficient with
    | float y => simp [Term.simplified, hc, Number.simplified]
    | integer v => simp [hc, Number.isExact] at h
    | fraction f => simp [hc, Number.isExact] at h

theorem combine_singleton (h : t.isNegligible = false) : combine [t] = ⟨[t.simplified]⟩ :=
  congrArg mk (terms_combine_of_isAscending (List.pairwise_singleton _ t)
    (List.forall_mem_singleton.2 h))

theorem combine_singleton_of_isNegligible (h : t.isNegligible = true) : combine [t] = ⟨[]⟩ := by
  rw [combine, sortTerms_eq_self (List.pairwise_singleton _ t)]
  simp [collect, collectFrom, h]

theorem ofNumber_eq {v : Number} (h : v.toRat? = some x) (hx : x ≠ 0) :
    ofNumber v = ⟨[⟨v.simplified, .one⟩]⟩ :=
  combine_singleton (isNegligible_eq_false (t := .constant v) h hx)

theorem ofName_eq (name : String) : ofName name = ⟨[⟨.integer 1, .ofName name⟩]⟩ :=
  combine_singleton (isNegligible_eq_false (Number.toRat?_integer 1) (by decide))

/-- The product of two single terms. -/
theorem mul?_singleton {m : Monomial} (h : s.monomial.mul? t.monomial = some m) :
    mul? ⟨[s]⟩ ⟨[t]⟩ = some (combine [⟨s.coefficient * t.coefficient, m⟩]) := by
  simp [Polynomial.mul?, products?, Term.mul?, h]

theorem ofExpr?_constant {v : Int64} (hv : v ≠ 0) :
    ofExpr? (.constant (.integer v)) = some ⟨[⟨.integer v, .one⟩]⟩ := by
  have hne : (v.toInt : ℚ) ≠ 0 := by
    intro hzero
    exact hv (Int64.toInt_inj.1 (by exact_mod_cast hzero))
  rw [ofExpr?, ofNumber_eq (Number.toRat?_integer v) hne]
  rfl

/-- The power of a variable with a whole exponent that is a word. -/
theorem powNumber?_ofName {f : VariablePower} (hf : f.power ≠ 0) {n : Int64}
    (hn : n.toInt = f.power.toNat) :
    (ofName f.name).powNumber? (.integer n) = some ⟨[⟨.integer 1, ⟨[f]⟩⟩]⟩ := by
  have hword := f.power.toNat_lt_size
  have hconstant : (ofName f.name).constant? = none := by rw [ofName_eq]; rfl
  have hsingle : (ofName f.name).singleTerm? = some ⟨.integer 1, .ofName f.name⟩ := by
    rw [ofName_eq]
    rfl
  have hcoefficient : (Number.integer 1).powWhole? f.power.toNat = some (.integer 1) :=
    Number.one_powWhole? (Nat.le_sub_one_of_lt hword)
  have hterm : powTerm? ⟨.integer 1, .ofName f.name⟩ f.power.toNat =
      some (combine [⟨.integer 1, ⟨[f]⟩⟩]) := by
    simp [powTerm?, Monomial.pow?_ofName hf, hcoefficient]
  rw [(powNumber?_eq_powWhole? hconstant rfl hn hword).1, powWhole?, hsingle]
  dsimp only
  rw [hterm, combine_singleton (isNegligible_eq_false (Number.toRat?_integer 1) (by decide))]
  rfl

/-- The expression of a power of a variable reduces to it. -/
theorem ofExpr?_toExpr {f : VariablePower} (hf : f.power ≠ 0) :
    ofExpr? f.toExpr = some ⟨[⟨.integer 1, ⟨[f]⟩⟩]⟩ := by
  unfold VariablePower.toExpr
  split
  · rename_i hone
    have hself : Monomial.ofName f.name = ⟨[f]⟩ := by
      rw [Monomial.ofName, ← hone]
    rw [ofExpr?, ofName_eq, hself]
  · have hlt := f.power.toNat_lt_size
    have hsize : UInt32.size = 4294967296 := rfl
    have hn : (Int64.ofNat f.power.toNat).toInt = f.power.toNat :=
      Int64.toInt_ofNat_of_lt (by omega)
    rw [ofExpr?]
    simp only [ofExpr?, Option.bind_eq_bind, Option.bind_some, Polynomial.pow?,
      constant?_ofNumber_integer]
    exact powNumber?_ofName hf hn

/--
An implicit product of a reduced coefficient with powers of variables, from left to right, reduces
to a single term, if the names ascend.
-/
theorem ofExpr?_foldl_mul {c : Number} (hc : c.IsReduced) (hvalue : c.toRat? = some x) (hx : x ≠ 0)
    {done factors : List VariablePower} {e : Expr}
    (hcanonical : (Monomial.mk (done ++ factors)).IsCanonical)
    (h : ofExpr? e = some ⟨[⟨c, ⟨done⟩⟩]⟩) :
    ofExpr? (factors.foldl (fun e f ↦ .mul e f.toExpr) e) = some ⟨[⟨c, ⟨done ++ factors⟩⟩]⟩ := by
  induction factors generalizing done e with
  | nil => rw [List.append_nil, List.foldl_nil, h]
  | cons f factors ih =>
    rw [List.append_cons] at hcanonical ⊢
    have hf : f.power ≠ 0 := hcanonical.power_ne_zero f (by simp)
    apply ih hcanonical
    rw [ofExpr?, h, ofExpr?_toExpr hf]
    simp only [Option.bind_eq_bind, Option.bind_some]
    rw [mul?_singleton (Monomial.mul?_append hcanonical.left),
      Number.mul_one_of_isLowest hc.isLowest (Number.isExact_of_toRat? hvalue),
      combine_singleton (isNegligible_eq_false hvalue hx), Term.simplified, hc.simplified_eq]

theorem isAscending_iff {terms : List Term} :
    IsAscending terms ↔ (terms.map (·.monomial)).Pairwise fun a b ↦ a.compare b = .lt := by
  rw [List.pairwise_map]
  rfl

/-- The sum with a later term has that term at its end. -/
theorem add_singleton (hsimplified : ∀ s ∈ p.terms, s.simplified = s)
    (hkept : ∀ s ∈ p.terms ++ [t], s.isNegligible = false)
    (hascending : IsAscending (p.terms ++ [t])) : p + ⟨[t]⟩ = ⟨p.terms ++ [t.simplified]⟩ := by
  have hterms := terms_combine_of_isAscending hascending hkept
  rw [List.map_append, List.map_congr_left hsimplified, List.map_id'] at hterms
  exact congrArg mk hterms

/--
Expressions that add one term after the other to an expression reduce to the list of these terms, if
none is negligible and their monomials ascend.
-/
theorem ofExpr?_foldl_write {write : Expr → Term → Expr} {terms added : List Term} {e : Expr}
    (hwrite : List.Forall₂
      (fun t s ↦ ∀ e p, ofExpr? e = some p → ofExpr? (write e t) = some (p + ⟨[s]⟩)) terms added)
    (hsimplified : ∀ s ∈ p.terms, s.simplified = s)
    (hkept : ∀ s ∈ p.terms ++ added, s.isNegligible = false)
    (hascending : IsAscending (p.terms ++ added)) (h : ofExpr? e = some p) :
    ofExpr? (terms.foldl write e) = some ⟨p.terms ++ added.map Term.simplified⟩ := by
  induction hwrite generalizing p e with
  | nil => rw [List.foldl_nil, List.map_nil, List.append_nil, h]
  | @cons t s terms added hstep _ ih =>
    rw [List.append_cons] at hkept hascending
    have hsum : p + ⟨[s]⟩ = ⟨p.terms ++ [s.simplified]⟩ :=
      add_singleton hsimplified (fun s hs ↦ hkept s (List.mem_append_left _ hs))
        (List.pairwise_append.1 hascending).1
    have hnext := hstep e p h
    rw [hsum] at hnext
    have hsimplified' : ∀ r ∈ p.terms ++ [s.simplified], r.simplified = r := by
      intro r hr
      rcases List.mem_append.1 hr with hr | hr
      · exact hsimplified r hr
      · rw [List.mem_singleton.1 hr]
        exact congrArg (Term.mk · s.monomial) s.coefficient.simplified_simplified
    have hkept' : ∀ r ∈ p.terms ++ [s.simplified] ++ added, r.isNegligible = false := by
      simp only [List.forall_mem_append, List.forall_mem_singleton, isNegligible_simplified]
        at hkept ⊢
      exact hkept
    have hascending' : IsAscending (p.terms ++ [s.simplified] ++ added) := by
      rw [isAscending_iff] at hascending ⊢
      rw [List.map_append, List.map_append] at hascending ⊢
      exact hascending
    rw [List.foldl_cons, ih hsimplified' hkept' hascending' hnext, List.map_cons]
    exact congrArg (some ∘ mk) (List.append_cons ..).symm

/--
If an expression grows term by term from that of a first term, and every term is read with its own
monomial, the expression reduces to the list of the terms as they are read.
-/
theorem ofExpr?_foldl_read {write : Expr → Term → Expr} {read : Term → Term} {first : Term}
    {others : List Term} {e : Expr} (hascending : IsAscending (first :: others))
    (hread : ∀ t ∈ others, (read t).monomial = t.monomial ∧ (read t).isNegligible = false ∧
      ∀ e p, ofExpr? e = some p → ofExpr? (write e t) = some (p + ⟨[read t]⟩))
    (hmonomial : s.monomial = first.monomial) (hs : s.simplified = s)
    (hkept : s.isNegligible = false) (h : ofExpr? e = some ⟨[s]⟩) :
    ofExpr? (others.foldl write e) = some ⟨s :: others.map fun t ↦ (read t).simplified⟩ := by
  have hwrite : List.Forall₂ (fun t s ↦ ∀ e p, ofExpr? e = some p →
      ofExpr? (write e t) = some (p + ⟨[s]⟩)) others (others.map read) := by
    rw [List.forall₂_map_right_iff, List.forall₂_same]
    exact fun t ht ↦ (hread t ht).2.2
  have hkept' : ∀ r ∈ [s] ++ others.map read, r.isNegligible = false := by
    rw [List.singleton_append, List.forall_mem_cons, List.forall_mem_map]
    exact ⟨hkept, fun t ht ↦ (hread t ht).2.1⟩
  have hmonomials : (others.map read).map (·.monomial) = others.map (·.monomial) := by
    rw [List.map_map]
    exact List.map_congr_left fun t ht ↦ (hread t ht).1
  have hascending' : IsAscending ([s] ++ others.map read) := by
    rw [isAscending_iff] at hascending ⊢
    rw [List.singleton_append, List.map_cons, hmonomials, hmonomial]
    exact hascending
  have hsum := ofExpr?_foldl_write hwrite (p := ⟨[s]⟩) (List.forall_mem_singleton.2 hs) hkept'
    hascending' h
  rw [hsum, List.map_map]
  rfl

end Polynomial

end SchoolAlgebra
