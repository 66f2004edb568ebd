import Mathlib
import SchoolAlgebra.Proofs.Expr.RoundTrip
import SchoolAlgebra.Proofs.Polynomial.Written

/-!
# Reading the texts of polynomials

The text of a canonical polynomial reads back as a polynomial with the same monomials in the same
order and with the same values of the coefficients. The grammar derives every term as a summand, as
its factors adjoin one another, and a minus sign in front takes the whole product of the first term.
-/

namespace SchoolAlgebra

open Grammar (Derives Nonterminal nextIs)
open Token (Kind)
open Tightness

namespace Number

variable {a : Number} {e : Expr}

/-- Before variables stands a numeral or a number in parentheses. -/
theorem eq_of_writtenFactor (h : a.writtenFactor = [e]) :
    e = .group a.spelled ∨ e = a.spelled ∧ ∀ f, a = .fraction f → f.hasProperPart = false := by
  unfold writtenFactor at h
  split at h
  · cases h
  · cases a with
    | integer v => exact .inr ⟨(List.singleton_inj.1 h).symm, fun f hf ↦ by cases hf⟩
    | float y => exact .inr ⟨(List.singleton_inj.1 h).symm, fun f hf ↦ by cases hf⟩
    | fraction f =>
      dsimp only at h
      split at h
      · exact .inl (List.singleton_inj.1 h).symm
      · rename_i hproper
        exact .inr ⟨(List.singleton_inj.1 h).symm,
          fun g hg ↦ fraction.inj hg ▸ Bool.eq_false_iff.2 hproper⟩

theorem exists_writtenFactor (a : Number) :
    a.toInt64? = some 1 ∧ a.writtenFactor = [] ∨ ∃ e, a.writtenFactor = [e] := by
  unfold writtenFactor
  split
  · rename_i hone
    exact .inl ⟨hone, rfl⟩
  · cases a with
    | integer v => exact .inr ⟨_, rfl⟩
    | float y => exact .inr ⟨_, rfl⟩
    | fraction f =>
      dsimp only
      split
      · exact .inr ⟨_, rfl⟩
      · exact .inr ⟨_, rfl⟩

end Number

/--
The first factor that the text of a term with variables shows is the coefficient or, if that is one,
the power of the first variable.
-/
theorem Term.exists_writtenFactors {t : Term} (hm : t.monomial ≠ .one) :
    ∃ first done factors, t.monomial.factors = done ++ factors ∧
      t.writtenFactors = first :: factors.map VariablePower.toExpr ∧
      (t.coefficient.writtenFactor = [first] ∧ done = [] ∨
        t.coefficient.toInt64? = some 1 ∧ ∃ f, first = f.toExpr ∧ done = [f]) := by
  unfold writtenFactors
  rw [if_neg hm]
  rcases t.coefficient.exists_writtenFactor with ⟨hone, hnil⟩ | ⟨e, he⟩
  · obtain ⟨f, factors, hfactors⟩ : ∃ f factors, t.monomial.factors = f :: factors := by
      refine List.exists_cons_of_ne_nil fun hfactors ↦ hm ?_
      exact congrArg Monomial.mk hfactors
    exact ⟨f.toExpr, [f], factors, hfactors, by rw [hnil, hfactors]; rfl,
      .inr ⟨hone, f, rfl, rfl⟩⟩
  · exact ⟨e, [], t.monomial.factors, rfl, by rw [he]; rfl, .inl ⟨he, rfl⟩⟩

/-! ## Derivations -/

variable {e : Expr} {ks rest : List Kind}

/-- Whether the grammar derives the expression as a factor of a product without operators. -/
def Expr.IsFactor (e : Expr) : Prop :=
  ∀ rest, nextIs (· == .caret) rest = false → Derives true .power e (e.kinds ++ rest) rest

theorem isFactor_of_atom (h : atom.Admits e) : e.IsFactor := fun rest hcaret ↦
  .unit rfl (h .atom List.mem_cons_self rest trivial)
    (by rw [Nonterminal.endsBefore, hcaret]; rfl)

theorem isFactor_variablePower (f : VariablePower) : f.toExpr.IsFactor := by
  unfold VariablePower.toExpr
  split
  · exact isFactor_of_atom (Expr.admits_var f.name)
  · intro rest hcaret
    have hexponent : Derives true .exponent (.ofNat f.power.toNat)
        ((Expr.ofNat f.power.toNat).kinds ++ rest) rest :=
      .unit rfl (isFactor_of_atom (Expr.admits_ofNat _) rest hcaret) rfl
    rw [Expr.kinds, List.append_assoc]
    exact .pow (Expr.admits_var f.name .atom List.mem_cons_self _ trivial) hexponent

theorem startsImplicitFactor_variablePower (f : VariablePower) (ks : List Kind) :
    nextIs Kind.startsImplicitFactor (f.toExpr.kinds ++ ks) = true := by
  unfold VariablePower.toExpr
  split
  · rfl
  · rfl

/-- What starts a factor continues neither a power nor an explicit product. -/
theorem nextIs_eq_false (h : nextIs Kind.startsImplicitFactor ks = true) :
    nextIs (· == .caret) ks = false ∧ nextIs Grammar.isProductSign ks = false := by
  cases ks with
  | nil => cases h
  | cons k ks =>
    rw [Grammar.nextIs_cons] at h
    cases k <;> first | exact ⟨rfl, rfl⟩ | cases h

/-- A factor makes up a chain of factors, and goes on with one. -/
theorem Expr.IsFactor.derives_chain {p q : Nonterminal} (hp : p.implicitOperand? = some q)
    (h : e.IsFactor) (hcaret : nextIs (· == .caret) rest = false)
    (hsign : nextIs Grammar.isProductSign rest = false) :
    Derives true p e (e.kinds ++ rest) rest ∧ Derives true q e (e.kinds ++ rest) rest := by
  have hpower := h rest hcaret
  have hfactor : Derives true .implicitFactor e (e.kinds ++ rest) rest := .implicitPower rfl hpower
  cases p <;> cases hp
  case signedChain => exact ⟨.unit rfl hpower rfl, hfactor⟩
  case summandChain =>
    have hends : Nonterminal.endsBefore rest .product = true := by
      rw [Nonterminal.endsBefore, hsign]
      rfl
    have hproduct : Derives true .product e (e.kinds ++ rest) rest :=
      .unit rfl (.unit (p := .productChain) rfl (.unit (p := .operand) rfl hpower rfl) rfl) hends
    exact ⟨.unit rfl hproduct rfl, .unit rfl (.unit (p := .implicitChain) rfl hfactor rfl) hends⟩

/-- Powers of variables continue neither a power nor an explicit product. -/
theorem nextIs_factors (hcaret : nextIs (· == .caret) rest = false)
    (hsign : nextIs Grammar.isProductSign rest = false) (factors : List VariablePower) :
    nextIs (· == .caret) ((factors.map VariablePower.toExpr).flatMap Expr.kinds ++ rest) = false ∧
      nextIs Grammar.isProductSign
        ((factors.map VariablePower.toExpr).flatMap Expr.kinds ++ rest) = false := by
  cases factors with
  | nil => exact ⟨hcaret, hsign⟩
  | cons f factors =>
    rw [List.map_cons, List.flatMap_cons, List.append_assoc]
    exact nextIs_eq_false (startsImplicitFactor_variablePower f _)

/-- Powers of variables extend a chain of factors. -/
theorem derives_foldl_mul {p q : Nonterminal} (hp : p.implicitOperand? = some q)
    (hcaret : nextIs (· == .caret) rest = false)
    (hsign : nextIs Grammar.isProductSign rest = false) {factors : List VariablePower}
    (h : Derives true p e ks ((factors.map VariablePower.toExpr).flatMap Expr.kinds ++ rest)) :
    Derives true p ((factors.map VariablePower.toExpr).foldl .mul e) ks rest := by
  induction factors generalizing e with
  | nil => exact h
  | cons f factors ih =>
    rw [List.map_cons, List.flatMap_cons, List.append_assoc] at h
    obtain ⟨hcaret', hsign'⟩ := nextIs_factors hcaret hsign factors
    exact ih (.implicitMul hp h (startsImplicitFactor_variablePower f _)
      ((isFactor_variablePower f).derives_chain hp hcaret' hsign').2)

/-- What stands before variables is a factor. -/
theorem isFactor_of_writtenFactor {a : Number} (h : a.IsSpellable)
    (hnegative : a.isNegative = false) (he : a.writtenFactor = [e]) : e.IsFactor := by
  have hspelled := Expr.admits_spelled h
  rcases Number.eq_of_writtenFactor he with rfl | ⟨rfl, hwhole⟩
  · exact isFactor_of_atom (admits_group (hspelled.of_le (Nat.zero_le _)))
  · have hatom : ofNumber a = atom := by
      cases a with
      | integer v => exact if_neg (hnegative ▸ Bool.false_ne_true)
      | fraction f =>
        rw [ofNumber, hwhole f rfl, if_neg Bool.false_ne_true, hnegative, if_neg Bool.false_ne_true]
      | float y => cases h
    exact isFactor_of_atom (hatom ▸ hspelled)

/-- The factors of a term with variables make up a chain of them. -/
theorem Term.derives_written {p q : Nonterminal} (hp : p.implicitOperand? = some q) {t : Term}
    (h : t.coefficient.IsSpellable) (hnegative : t.coefficient.isNegative = false)
    (hm : t.monomial ≠ .one) (hcaret : nextIs (· == .caret) rest = false)
    (hsign : nextIs Grammar.isProductSign rest = false) :
    Derives true p t.written (t.kinds ++ rest) rest := by
  obtain ⟨first, done, factors, -, hfactors, hfirst⟩ := Term.exists_writtenFactors hm
  have hfactor : first.IsFactor := by
    rcases hfirst with ⟨hfirst, -⟩ | ⟨-, f, rfl, -⟩
    · exact isFactor_of_writtenFactor h hnegative hfirst
    · exact isFactor_variablePower f
  rw [written, kinds, hfactors, List.flatMap_cons, List.append_assoc]
  obtain ⟨hcaret', hsign'⟩ := nextIs_factors hcaret hsign factors
  exact derives_foldl_mul hp hcaret hsign (hfactor.derives_chain hp hcaret' hsign').1

theorem rank_product_le (a : Number) : product.rank ≤ (ofNumber a).rank := by
  unfold ofNumber
  split
  · split
    · exact le_rfl
    · split <;> decide
  · split <;> decide

/-- The text of a number is a summand. -/
theorem derives_spelled {a : Number} (h : a.IsSpellable) (hrest : sum.EndsBefore rest) :
    Derives true .summand a.spelled (a.spelled.kinds ++ rest) rest :=
  derives_summand ((Expr.admits_spelled h).of_le (rank_product_le a)) hrest

namespace Term

variable {t : Term}

theorem kinds_of_one (hm : t.monomial = .one) : t.kinds = t.coefficient.spelled.kinds := by
  rw [kinds, writtenFactors, if_pos hm, List.flatMap_singleton]

theorem written_of_one (hm : t.monomial = .one) : t.written = t.coefficient.spelled := by
  rw [written, writtenFactors, if_pos hm]
  rfl

/-- A term whose coefficient is not negative is a summand. -/
theorem derives_written_summand (h : t.coefficient.IsSpellable)
    (hnegative : t.coefficient.isNegative = false) (hrest : sum.EndsBefore rest) :
    Derives true .summand t.written (t.kinds ++ rest) rest := by
  by_cases hm : t.monomial = .one
  · rw [written_of_one hm, kinds_of_one hm]
    exact derives_spelled h hrest
  · obtain ⟨hcaret, hfactor, hnumber, hsign⟩ := hrest
    have hends : Nonterminal.endsBefore rest .summand = true := by
      rw [Nonterminal.endsBefore, hfactor, hnumber]
      rfl
    exact .unit rfl (derives_written (p := .summandChain) rfl h hnegative hm hcaret hsign) hends

/--
A minus sign in front of a product without operators takes all of it: the operand of a sign goes on
as long as factors adjoin one another.
-/
theorem derives_neg_written (h : t.coefficient.IsSpellable)
    (hnegative : t.coefficient.isNegative = false) (hm : t.monomial ≠ .one)
    (hrest : sum.EndsBefore rest) :
    Derives true .summand (.neg t.written) (.minus :: t.kinds ++ rest) rest := by
  obtain ⟨hcaret, hfactor, hnumber, hsign⟩ := hrest
  have hends : Nonterminal.endsBefore rest .signedProduct = true := by
    rw [Nonterminal.endsBefore, hfactor, hnumber]
    rfl
  have hoperand : Derives true .signedOperand t.written (t.kinds ++ rest) rest :=
    .unit rfl (.unit (p := .signedProduct) rfl
      (derives_written (p := .signedChain) rfl h hnegative hm hcaret hsign) hends) rfl
  have hsigned : Derives true .operand (.neg t.written) (.minus :: t.kinds ++ rest) rest :=
    .neg rfl hoperand
  have hproduct : Derives true .product (.neg t.written) (.minus :: t.kinds ++ rest) rest :=
    .unit rfl (.unit (p := .productChain) rfl hsigned rfl)
      (by rw [Nonterminal.endsBefore, hsign]; rfl)
  exact .unit rfl (.unit (p := .summandChain) rfl hproduct rfl) hends

/-- The first term with its sign is a summand. -/
theorem derives_writtenFirst (h : t.coefficient.IsSpellable) (hrest : sum.EndsBefore rest) :
    Derives true .summand t.writtenFirst (t.signedKinds [.minus] [] ++ rest) rest := by
  unfold writtenFirst signedKinds
  by_cases hnegative : t.coefficient.isNegative = true
  · rw [if_pos hnegative, if_pos hnegative]
    by_cases hm : t.monomial = .one
    · have hkinds : [.minus] ++ t.neg.kinds = t.coefficient.spelled.kinds := by
        rw [kinds_of_one (t := t.neg) hm, h.kinds_spelled hnegative]
        rfl
      rw [if_pos hm, hkinds]
      exact derives_spelled h hrest
    · rw [if_neg hm]
      exact derives_neg_written h.neg (h.isNegative_neg hnegative) hm hrest
  · rw [if_neg hnegative, if_neg hnegative]
    exact derives_written_summand h (Bool.eq_false_iff.2 hnegative) hrest

end Term

namespace Polynomial

theorem endsBefore_signedKinds (hrest : sum.EndsBefore rest) (terms : List Term) :
    sum.EndsBefore (terms.flatMap (Term.signedKinds [.minus] [.plus]) ++ rest) := by
  cases terms with
  | nil => exact hrest
  | cons t terms =>
    rw [List.flatMap_cons, List.append_assoc]
    unfold Term.signedKinds
    split
    · exact ⟨rfl, rfl, rfl, rfl⟩
    · exact ⟨rfl, rfl, rfl, rfl⟩

/-- Further terms extend a sum. -/
theorem derives_foldl_appendWritten (hrest : sum.EndsBefore rest) {terms : List Term}
    (hterms : ∀ t ∈ terms, t.coefficient.IsSpellable)
    (h : Derives true .sumChain e ks
      (terms.flatMap (Term.signedKinds [.minus] [.plus]) ++ rest)) :
    Derives true .sumChain (terms.foldl appendWritten e) ks rest := by
  induction terms generalizing e with
  | nil => exact h
  | cons t terms ih =>
    rw [List.forall_mem_cons] at hterms
    rw [List.flatMap_cons, List.append_assoc] at h
    have hends := endsBefore_signedKinds hrest terms
    apply ih hterms.2
    unfold Term.signedKinds at h
    unfold appendWritten
    split at h
    · rename_i hnegative
      rw [if_pos hnegative]
      exact .sub h (Term.derives_written_summand hterms.1.neg
        (hterms.1.isNegative_neg hnegative) hends)
    · rename_i hnegative
      rw [if_neg hnegative]
      exact .add h (Term.derives_written_summand hterms.1 (Bool.eq_false_iff.2 hnegative) hends)

/-- The grammar derives the sum of all terms from the text. -/
theorem derives_written {p : Polynomial} (hp : ∀ t ∈ p.terms, t.coefficient.IsSpellable) :
    Derives true .sum p.written p.kinds [] := by
  have hend : sum.EndsBefore [] := ⟨rfl, rfl, rfl, rfl⟩
  unfold written kinds
  cases hterms : p.terms with
  | nil =>
    have hzero : sum.Admits (.ofNat 0) := (Expr.admits_ofNat 0).of_le (by decide)
    exact .unit rfl (hzero .sumChain List.mem_cons_self [] hend) rfl
  | cons first others =>
    rw [hterms, List.forall_mem_cons] at hp
    have hfirst := Term.derives_writtenFirst hp.1 (endsBefore_signedKinds hend others)
    have hchain := derives_foldl_appendWritten hend hp.2 (.unit rfl hfirst rfl)
    rw [List.append_nil] at hchain
    exact .unit rfl hchain rfl

theorem nesting_ofInt_le (z : ℤ) : (Expr.ofInt z).nesting ≤ 1 := by
  unfold Expr.ofInt
  split
  · exact le_rfl
  · exact Nat.zero_le _

theorem nesting_spelled_le (a : Number) : a.spelled.nesting ≤ 1 := by
  cases a with
  | integer v => exact nesting_ofInt_le _
  | float y => exact Nat.zero_le _
  | fraction f =>
    rw [Number.spelled]
    split
    · exact max_le (nesting_ofInt_le _) (Nat.zero_le _)
    · exact nesting_ofInt_le _

theorem nesting_written_le (t : Term) : t.written.nesting ≤ 2 := by
  have hpower : ∀ f : VariablePower, f.toExpr.nesting ≤ 2 := by
    intro f
    unfold VariablePower.toExpr
    split
    · exact Nat.zero_le _
    · exact one_le_two
  by_cases hm : t.monomial = .one
  · rw [Term.written_of_one hm]
    exact (nesting_spelled_le _).trans one_le_two
  obtain ⟨first, done, factors, -, hfactors, hfirst⟩ := Term.exists_writtenFactors hm
  have hfirst' : first.nesting ≤ 2 := by
    rcases hfirst with ⟨hfirst, -⟩ | ⟨-, f, rfl, -⟩
    · rcases Number.eq_of_writtenFactor hfirst with rfl | ⟨rfl, -⟩
      · exact Nat.succ_le_succ (nesting_spelled_le _)
      · exact (nesting_spelled_le _).trans one_le_two
    · exact hpower f
  rw [Term.written, hfactors, Expr.implicitProduct, List.foldl_map]
  exact List.foldlRecOn (motive := fun e : Expr ↦ e.nesting ≤ 2) factors _ hfirst'
    fun e he f _ ↦ max_le he (hpower f)

theorem nesting_writtenFirst_le (t : Term) : t.writtenFirst.nesting ≤ 3 := by
  unfold Term.writtenFirst
  split
  · split
    · exact (nesting_spelled_le _).trans (by decide)
    · exact Nat.succ_le_succ (nesting_written_le _)
  · exact (nesting_written_le _).trans (by decide)

theorem nesting_le (p : Polynomial) : p.written.nesting ≤ 3 := by
  unfold written
  cases p.terms with
  | nil => exact Nat.zero_le _
  | cons first others =>
    refine List.foldlRecOn (motive := fun e : Expr ↦ e.nesting ≤ 3) others _
      (nesting_writtenFirst_le first) fun e he t _ ↦ ?_
    unfold appendWritten
    split
    · exact max_le he ((nesting_written_le _).trans (by decide))
    · exact max_le he ((nesting_written_le _).trans (by decide))

/-! ## Reductions -/

theorem ofExpr?_ofNat {n : ℕ} (h : Number.HasNumeral n) (hn : n ≠ 0) :
    ofExpr? (.ofNat n) = some ⟨[⟨.integer (.ofNat n), .one⟩]⟩ := by
  refine ofExpr?_constant fun hzero ↦ hn ?_
  have hvalue := Number.toInt_ofNat h
  rw [hzero, Int64.toInt_zero] at hvalue
  exact_mod_cast hvalue.symm

theorem ofExpr?_ofInt {z : ℤ} (h : Number.HasNumeral z.natAbs) (hz : z ≠ 0) :
    ∃ v : Int64, v.toInt = z ∧ ofExpr? (.ofInt z) = some ⟨[⟨.integer v, .one⟩]⟩ := by
  have hnat := ofExpr?_ofNat h (Int.natAbs_ne_zero.2 hz)
  have hvalue := Number.toInt_ofNat h
  unfold Expr.ofInt
  split
  · rename_i hneg
    obtain ⟨w, hw, hopposite⟩ := Number.neg_integer (v := .ofNat z.natAbs) fun hmin ↦ by
      have hlt : Int64.minValue.toInt < 0 := by decide
      rw [← hmin, hvalue] at hlt
      omega
    refine ⟨w, by omega, ?_⟩
    rw [ofExpr?, hnat, ← hw]
    rfl
  · exact ⟨_, by omega, hnat⟩

theorem div?_constant {v w : Int64} (hw : w ≠ 0) :
    Polynomial.div? ⟨[⟨.integer v, .one⟩]⟩ ⟨[⟨.integer w, .one⟩]⟩ =
      some (ofNumber (Number.divIntegers v w hw)) := by
  have hdiv : (Number.integer v).div? (.integer w) = some (Number.divIntegers v w hw) := by
    simp [Number.div?, Number.isExact, Number.isZero, Number.exactQuotient?, hw]
  simp [Polynomial.div?, leadingTerm?, isConstant, Term.isConstant, Monomial.isOne, Monomial.one,
    divNumber?, hdiv, ofNumber, Term.constant]

/-- Whether the expression reduces to a reduced number of the given value. -/
def IsReducedTo (x : ℚ) (e : Expr) : Prop :=
  ∃ c : Number, c.IsReduced ∧ c.toRat? = some x ∧ ofExpr? e = some ⟨[⟨c, .one⟩]⟩

theorem isReducedTo_ofInt {z : ℤ} (h : Number.HasNumeral z.natAbs) (hz : (z : ℚ) ≠ 0) :
    IsReducedTo z (.ofInt z) := by
  obtain ⟨v, hv, hreduced⟩ := ofExpr?_ofInt h (by exact_mod_cast hz)
  exact ⟨.integer v, Number.isReduced_integer v, by rw [Number.toRat?_integer, hv], hreduced⟩

theorem isReducedTo_div {z : ℤ} {n : ℕ} (hz : Number.HasNumeral z.natAbs)
    (hn : Number.HasNumeral n) (hne : (z / n : ℚ) ≠ 0) :
    IsReducedTo (z / n) (.div (.ofInt z) (.ofNat n)) := by
  obtain ⟨hz0, hn0⟩ := div_ne_zero_iff.1 hne
  obtain ⟨v, hv, hdividend⟩ := ofExpr?_ofInt hz (by exact_mod_cast hz0)
  have hdivisor := ofExpr?_ofNat hn (by exact_mod_cast hn0)
  have hvalue := Number.toInt_ofNat hn
  have hw : Int64.ofNat n ≠ 0 := by
    intro hzero
    rw [hzero, Int64.toInt_zero] at hvalue
    exact hn0 (by exact_mod_cast hvalue.symm)
  have hquotient : (Number.divIntegers v (.ofNat n) hw).toRat? = some (z / n : ℚ) := by
    rw [Number.toRat?_divIntegers, hv, hvalue, Int.cast_natCast]
  refine ⟨_, Number.isReduced_simplified (Number.isLowest_divIntegers _ _ hw),
    (Number.toRat?_simplified _).trans hquotient, ?_⟩
  rw [ofExpr?, hdividend, hdivisor]
  exact (div?_constant hw).trans (congrArg some (ofNumber_eq hquotient hne))

/-- What is written for a number reduces to its value. -/
theorem isReducedTo_spelled {a : Number} {x : ℚ} (h : a.IsSpellable) (hx : a.toRat? = some x)
    (hne : x ≠ 0) : IsReducedTo x a.spelled := by
  cases a with
  | integer v =>
    rw [← Option.some.inj hx] at hne ⊢
    exact isReducedTo_ofInt h hne
  | float y => cases h
  | fraction f =>
    obtain rfl : f.toRat = x := Option.some.inj hx
    rw [Number.IsSpellable] at h
    rw [Number.spelled]
    cases hproper : f.hasProperPart with
    | false =>
      rw [hproper, if_neg Bool.false_ne_true] at h
      obtain ⟨z, hz, hwhole⟩ := Fraction.exists_toRat_of_not_hasProperPart hproper
      rw [if_neg Bool.false_ne_true]
      rw [hwhole] at hne ⊢
      rw [Rat.num_intCast]
      exact isReducedTo_ofInt (hz ▸ h) hne
    | true =>
      rw [hproper, if_pos rfl] at h
      have hquotient := isReducedTo_div h.1 h.2 (by rwa [Rat.num_div_den])
      rw [Rat.num_div_den] at hquotient
      exact hquotient

/-- What is written for a term with a coefficient that is not zero reduces to the term. -/
theorem exists_ofExpr?_written {t : Term} {x : ℚ} (hm : t.monomial.IsCanonical)
    (h : t.coefficient.IsSpellable) (hx : t.coefficient.toRat? = some x) (hne : x ≠ 0) :
    ∃ c : Number, c.IsReduced ∧ c.toRat? = some x ∧
      ofExpr? t.written = some ⟨[⟨c, t.monomial⟩]⟩ := by
  have hspelled := isReducedTo_spelled h hx hne
  by_cases hone : t.monomial = .one
  · rw [Term.written_of_one hone, hone]
    exact hspelled
  obtain ⟨first, done, factors, hmonomial, hfactors, hfirst⟩ := Term.exists_writtenFactors hone
  have hcanonical : (Monomial.mk (done ++ factors)).IsCanonical := hmonomial ▸ hm
  have hreduced : ∃ c : Number, c.IsReduced ∧ c.toRat? = some x ∧
      ofExpr? first = some ⟨[⟨c, ⟨done⟩⟩]⟩ := by
    rcases hfirst with ⟨hfirst, rfl⟩ | ⟨hunit, f, rfl, rfl⟩
    · rcases Number.eq_of_writtenFactor hfirst with rfl | ⟨rfl, -⟩
      · exact hspelled
      · exact hspelled
    · have hvalue := Number.toRat?_of_toInt64? hunit
      refine ⟨.integer 1, Number.isReduced_integer 1, hvalue.symm.trans hx, ofExpr?_toExpr ?_⟩
      exact hcanonical.power_ne_zero f List.mem_cons_self
  obtain ⟨c, hc, hvalue, hfirst⟩ := hreduced
  refine ⟨c, hc, hvalue, ?_⟩
  rw [Term.written, hfactors, Expr.implicitProduct, List.foldl_map,
    ofExpr?_foldl_mul hc hvalue hne hcanonical hfirst, ← hmonomial]

end Polynomial

namespace Number

variable {a : Number} {x : ℚ}

theorem IsSpellable.hasNumeral_num (h : a.IsSpellable) (hx : a.toRat? = some x) :
    HasNumeral x.num.natAbs := by
  cases a with
  | integer v =>
    rw [← Option.some.inj hx, Rat.num_intCast]
    exact h
  | float y => cases h
  | fraction f =>
    rw [← Option.some.inj hx]
    rw [IsSpellable] at h
    split at h
    · exact h.1
    · rename_i hproper
      rw [Fraction.num_toRat_of_not_hasProperPart (Bool.eq_false_iff.2 hproper)]
      exact h

/-- The opposite of a reduced number is simplified, unless it is the least integer. -/
theorem IsReduced.simplified_neg (ha : a.IsReduced) (hx : (-a).toRat? = some x)
    (hmin : x ≠ Int64.minValue.toInt) : (-a).simplified = -a := by
  cases a with
  | integer v =>
    have hneg : -integer v = ((Word.int64? (-v.toInt)).map integer).getD
        (float (-Binary64.ofInt v.toInt)) := rfl
    rw [hneg]
    cases Word.int64? (-v.toInt) with
    | none => rfl
    | some w => rfl
  | float y => rfl
  | fraction f =>
    change (fraction f.negated).simplified = fraction f.negated
    cases hword : (fraction f.negated).toInt64? with
    | none => simp [simplified, hword]
    | some v =>
      have hvalue := toRat?_of_toInt64? hword
      have hv : v ≠ Int64.minValue := by
        rintro rfl
        exact hmin (Option.some.inj (hx.symm.trans hvalue))
      obtain ⟨w, -, hw⟩ := neg_integer hv
      rw [toRat?_fraction, f.toRat_negated, Option.some.injEq] at hvalue
      refine absurd ?_ (ha.toRat_ne w)
      rw [hw, Int.cast_neg, ← hvalue, neg_neg]

end Number

namespace Polynomial

/--
What is written for a term behind a minus sign reduces to the opposite of the term. Its coefficient
is not the least integer, whose magnitude has no numeral.
-/
theorem exists_ofExpr?_written_neg {t : Term} {x : ℚ} (hm : t.monomial.IsCanonical)
    (h : t.coefficient.IsSpellable) (hx : t.coefficient.toRat? = some x)
    (hnegative : t.coefficient.isNegative = true) :
    ∃ c : Number, c.simplified = c ∧ c.toRat? = some x ∧ ∃ d : Number, -d = c ∧
      ofExpr? t.neg.written = some ⟨[⟨d, t.monomial⟩]⟩ := by
  have hpos : 0 < -x := neg_pos.2 ((Number.isNegative_iff hx).1 hnegative)
  have hopposite := Number.toRat?_neg_of_ne hx h.ne_minValue
  obtain ⟨d, hd, hvalue, hreduced⟩ :=
    exists_ofExpr?_written (t := t.neg) hm h.neg hopposite hpos.ne'
  have hne : d ≠ .integer Int64.minValue := by
    rintro rfl
    rw [← Option.some.inj hvalue] at hpos
    exact absurd hpos (by decide)
  have hvalue' : (-d).toRat? = some x := by rw [Number.toRat?_neg_of_ne hvalue hne, neg_neg]
  refine ⟨-d, hd.simplified_neg hvalue' ?_, hvalue', d, rfl, hreduced⟩
  rintro rfl
  exact absurd (h.hasNumeral_num hx) (by rw [Rat.num_intCast]; decide)

/-- What is written for a first term reduces to the term. -/
theorem exists_ofExpr?_writtenFirst {t : Term} {x : ℚ} (hm : t.monomial.IsCanonical)
    (h : t.coefficient.IsSpellable) (hx : t.coefficient.toRat? = some x) (hne : x ≠ 0) :
    ∃ c : Number, c.simplified = c ∧ c.toRat? = some x ∧
      ofExpr? t.writtenFirst = some ⟨[⟨c, t.monomial⟩]⟩ := by
  unfold Term.writtenFirst
  by_cases hnegative : t.coefficient.isNegative = true
  · rw [if_pos hnegative]
    by_cases hone : t.monomial = .one
    · obtain ⟨c, hc, hvalue, hreduced⟩ := isReducedTo_spelled h hx hne
      exact ⟨c, hc.simplified_eq, hvalue, by rw [if_pos hone, hone, hreduced]⟩
    · obtain ⟨c, hc, hvalue, d, rfl, hreduced⟩ := exists_ofExpr?_written_neg hm h hx hnegative
      refine ⟨-d, hc, hvalue, ?_⟩
      rw [if_neg hone, ofExpr?, hreduced]
      rfl
  · rw [if_neg hnegative]
    obtain ⟨c, hc, hvalue, hreduced⟩ := exists_ofExpr?_written hm h hx hne
    exact ⟨c, hc.simplified_eq, hvalue, hreduced⟩

/-- A further term adds itself to the polynomial. -/
theorem exists_ofExpr?_appendWritten {t : Term} {x : ℚ} (hm : t.monomial.IsCanonical)
    (h : t.coefficient.IsSpellable) (hx : t.coefficient.toRat? = some x) (hne : x ≠ 0) :
    ∃ s : Term, s.monomial = t.monomial ∧ s.coefficient.toRat? = some x ∧
      ∀ e p, ofExpr? e = some p → ofExpr? (appendWritten e t) = some (p + ⟨[s]⟩) := by
  unfold appendWritten
  by_cases hnegative : t.coefficient.isNegative = true
  · obtain ⟨c, -, hvalue, d, rfl, hreduced⟩ := exists_ofExpr?_written_neg hm h hx hnegative
    refine ⟨⟨-d, t.monomial⟩, rfl, hvalue, fun e p he ↦ ?_⟩
    rw [if_pos hnegative, ofExpr?, he, hreduced]
    rfl
  · obtain ⟨c, -, hvalue, hreduced⟩ := exists_ofExpr?_written hm h hx hne
    refine ⟨⟨c, t.monomial⟩, rfl, hvalue, fun e p he ↦ ?_⟩
    rw [if_neg hnegative, ofExpr?, he, hreduced]
    rfl

/-- What is written for a canonical polynomial reduces to its monomials and values. -/
theorem exists_ofExpr?_written_polynomial {p : Polynomial} (hp : p.IsCanonical)
    (hspellable : ∀ t ∈ p.terms, t.coefficient.IsSpellable) :
    ∃ q, ofExpr? p.written = some q ∧
      q.terms.map (·.monomial) = p.terms.map (·.monomial) ∧
      q.terms.map (·.coefficient.toRat?) = p.terms.map (·.coefficient.toRat?) := by
  have hvalues : ∀ t ∈ p.terms, ∃ x, t.coefficient.toRat? = some x ∧ x ≠ 0 :=
    fun t ht ↦ hp.exists_toRat? ht (Number.isExact_iff.2 (hspellable t ht).exists_toRat?)
  have hmonomials : ∀ t ∈ p.terms, t.monomial.IsCanonical := fun t ht ↦ hp.isOrderly.monomial ht
  have hascending := hp.isOrderly.isAscending
  unfold written
  cases hterms : p.terms with
  | nil => exact ⟨⟨[]⟩, congrArg some (combine_singleton_of_isNegligible rfl), rfl, rfl⟩
  | cons first others =>
    rw [hterms, List.forall_mem_cons] at hvalues hmonomials hspellable
    rw [hterms] at hascending
    obtain ⟨⟨x, hx, hne⟩, hothers⟩ := hvalues
    obtain ⟨c, hc, hvalue, hfirst⟩ :=
      exists_ofExpr?_writtenFirst hmonomials.1 hspellable.1 hx hne
    have hadded : ∀ t ∈ others, ∃ s : Term, s.coefficient.toRat? = t.coefficient.toRat? ∧
        s.monomial = t.monomial ∧ s.isNegligible = false ∧
        ∀ e p, ofExpr? e = some p → ofExpr? (appendWritten e t) = some (p + ⟨[s]⟩) := by
      intro t ht
      obtain ⟨y, hy, hne⟩ := hothers t ht
      obtain ⟨s, hmonomial, hs, hstep⟩ :=
        exists_ofExpr?_appendWritten (hmonomials.2 t ht) (hspellable.2 t ht) hy hne
      exact ⟨s, hs.trans hy.symm, hmonomial, isNegligible_eq_false hs hne, hstep⟩
    have : Nonempty Term := ⟨first⟩
    choose! read hread using hadded
    refine ⟨_, ofExpr?_foldl_read (s := ⟨c, first.monomial⟩) hascending
      (fun t ht ↦ (hread t ht).2) rfl (congrArg (Term.mk · first.monomial) hc)
      (isNegligible_eq_false hvalue hne) hfirst, ?_, ?_⟩
    · rw [List.map_cons, List.map_map, List.map_cons]
      exact congrArg _ (List.map_congr_left fun t ht ↦ (hread t ht).2.1)
    · rw [List.map_cons, List.map_map, List.map_cons]
      refine congrArg₂ _ (hvalue.trans hx.symm) (List.map_congr_left fun t ht ↦ ?_)
      exact (Number.toRat?_simplified _).trans (hread t ht).1

/--
The text of a canonical polynomial reads back as that polynomial. Its variables are among the
allowed names, which are single letters; its coefficients are integers other than the least one, or
fractions whose reduced numerator and denominator have numerals. Then the text, unless it has too
many tokens, is read as an expression that reduces to a polynomial with the same monomials in the
same order and with the same values of the coefficients.
-/
theorem exists_ofExpr?_of_ofText_toText {p : Polynomial} {names : List String}
    (hp : p.IsCanonical) (hletters : Token.AreLetters names)
    (hnames : ∀ name ∈ p.names, name ∈ names)
    (hspellable : ∀ t ∈ p.terms, t.coefficient.IsSpellable)
    (hlength : (Token.scan names p.toText).length ≤ maxTokens) :
    ∃ e q, Expr.ofText (.algebraic names) .lenient defaultNesting p.toText = .ok e ∧
      ofExpr? e = some q ∧ q.terms.map (·.monomial) = p.terms.map (·.monomial) ∧
      q.terms.map (·.coefficient.toRat?) = p.terms.map (·.coefficient.toRat?) := by
  have hwritable : ∀ t ∈ p.terms, t.IsWritable names := by
    intro t ht
    refine ⟨hp.isOrderly.monomial ht, fun f hf ↦ hnames f.name ?_, hspellable t ht⟩
    rw [Polynomial.names, Text.mem_sortNames, List.mem_flatMap]
    exact ⟨t, ht, List.mem_map_of_mem hf⟩
  have hkinds := (writes_toText hletters hwritable).scan
  have hsum := derives_written hspellable
  rw [← hkinds] at hsum
  have hread : Expr.ofText (.algebraic names) .lenient defaultNesting p.toText = .ok p.written :=
    Expr.ofTokens_eq_ok_of_derives hsum hlength ((nesting_le p).trans (by decide))
  obtain ⟨q, hq, hmonomials, hvalues⟩ := exists_ofExpr?_written_polynomial hp hspellable
  exact ⟨p.written, q, hread, hq, hmonomials, hvalues⟩

/-- The text `-(3/2)x^2yz + x - 4` reads back. -/
theorem exists_ofExpr?_of_ofText_toText_threeHalves :
    ∃ (p : Polynomial) (e : Expr) (q : Polynomial),
      p.terms = [⟨.fraction ⟨true, 1, 1, 2, by decide⟩, ⟨[⟨"x", 2⟩, ⟨"y", 1⟩, ⟨"z", 1⟩]⟩⟩,
        ⟨.integer 1, .ofName "x"⟩, ⟨.integer (-4), .one⟩] ∧
      p.IsCanonical ∧ Token.AreLetters ["x", "y", "z"] ∧
      (∀ name ∈ p.names, name ∈ ["x", "y", "z"]) ∧
      (∀ t ∈ p.terms, t.coefficient.IsSpellable) ∧
      (Token.scan ["x", "y", "z"] p.toText).length ≤ maxTokens ∧
      p.toText = "-(3/2)x^2yz + x - 4" ∧
      Expr.ofText (.algebraic ["x", "y", "z"]) .lenient defaultNesting p.toText = .ok e ∧
      ofExpr? e = some q ∧
      q.terms.map (·.monomial) =
        [⟨[⟨"x", 2⟩, ⟨"y", 1⟩, ⟨"z", 1⟩]⟩, .ofName "x", .one] ∧
      q.terms.map (·.coefficient.toRat?) = [some (-3 / 2), some 1, some (-4)] := by
  let p : Polynomial :=
    ⟨[⟨.fraction ⟨true, 1, 1, 2, by decide⟩, ⟨[⟨"x", 2⟩, ⟨"y", 1⟩, ⟨"z", 1⟩]⟩⟩,
      ⟨.integer 1, .ofName "x"⟩, ⟨.integer (-4), .one⟩]⟩
  have hp : p.IsCanonical := isCanonical_of_ofTerms? (by decide +kernel : ofTerms? p.terms = some p)
  have hletters : Token.AreLetters ["x", "y", "z"] := by
    intro name hname
    simp only [List.mem_cons, List.not_mem_nil, or_false] at hname
    rcases hname with rfl | rfl | rfl
    · exact ⟨'x', by decide +kernel, rfl⟩
    · exact ⟨'y', by decide +kernel, rfl⟩
    · exact ⟨'z', by decide +kernel, rfl⟩
  have hnames : ∀ name ∈ p.names, name ∈ ["x", "y", "z"] := by decide +kernel
  have hspellable : ∀ t ∈ p.terms, t.coefficient.IsSpellable := by decide +kernel
  have htext : p.toText = "-(3/2)x^2yz + x - 4" := by decide +kernel
  have hlength : (Token.scan ["x", "y", "z"] p.toText).length ≤ maxTokens := by decide +kernel
  obtain ⟨e, q, hread, hq, hmonomials, hvalues⟩ :=
    exists_ofExpr?_of_ofText_toText hp hletters hnames hspellable hlength
  refine ⟨p, e, q, rfl, hp, hletters, hnames, hspellable, hlength, htext, hread, hq, hmonomials,
    ?_⟩
  rw [hvalues]
  decide +kernel

end Polynomial

end SchoolAlgebra
