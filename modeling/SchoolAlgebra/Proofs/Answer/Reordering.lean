import Mathlib
import SchoolAlgebra.Answer.Comparison
import SchoolAlgebra.Proofs.Grammar.Soundness
import SchoolAlgebra.Proofs.Number.NearValue
import SchoolAlgebra.Proofs.Polynomial.RationalFunction

/-!
# Reordered answers are equivalent

An answer that is the expected one up to order and grouping has the same polynomial, as far as both
reductions are exact, and the comparison by doubles does not tell the two apart: the constants of an
answer are no fractions, so all coefficients that are fractions are in lowest terms.
-/

namespace SchoolAlgebra

theorem Grammar.Derives.constant_fraction_notMem {implicitPowers : Bool} {p : Nonterminal}
    {e : Expr} {ks rest : List Token.Kind} (h : Derives implicitPowers p e ks rest)
    (f : Fraction) : Expr.constant (.fraction f) ∉ e.subterms := by
  induction h with
  | integer | real | name => simp [Expr.subterms]
  | group _ ih | call _ ih | root _ ih | pos _ _ ih | neg _ _ ih =>
    simpa [Expr.subterms] using ih
  | pow _ _ iha ihb | implicitMul _ _ _ _ iha ihb | mul _ _ _ iha ihb | div _ _ _ iha ihb
  | add _ _ iha ihb | sub _ _ iha ihb =>
    simpa [Expr.subterms] using ⟨iha, ihb⟩
  | implicitPower _ _ ih | unit _ _ _ ih => exact ih

/-- The constants that a text writes are in lowest terms, because none is a fraction. -/
theorem Answer.isLowest_of_read {language : Language} {text : String} {e : Expr}
    (h : read language text = .ok e) (v : Number) (hv : Expr.constant v ∈ e.subterms) :
    v.IsLowest := by
  cases v with
  | integer | float => trivial
  | fraction f =>
    exact absurd hv ((Expr.derives_of_ofTokens h).constant_fraction_notMem f)

namespace Polynomial

/-- Terms with the same monomials and the same exact coefficients in lowest terms count as equal. -/
theorem areNear_of_map_eq {as bs : List Term}
    (h : as.map (fun t ↦ (t.monomial, t.coefficient.value)) =
      bs.map fun t ↦ (t.monomial, t.coefficient.value))
    (has : ∀ t ∈ as, t.coefficient.isExact = true ∧ t.coefficient.IsLowest)
    (hbs : ∀ t ∈ bs, t.coefficient.isExact = true ∧ t.coefficient.IsLowest) :
    areNear as bs = true := by
  induction as generalizing bs with
  | nil =>
    rw [List.map_nil, eq_comm, List.map_eq_nil_iff] at h
    rw [h]
    rfl
  | cons a as ih =>
    cases bs with
    | nil => simp at h
    | cons b bs =>
      rw [List.map_cons, List.map_cons, List.cons.injEq, Prod.mk.injEq] at h
      rw [List.forall_mem_cons] at has hbs
      obtain ⟨⟨hmonomial, hvalue⟩, hrest⟩ := h
      have hcoefficient : a.coefficient.toRat? = b.coefficient.toRat? := by
        rw [Number.toRat?_eq_value has.1.1, Number.toRat?_eq_value hbs.1.1, hvalue]
      have hnear := Number.isNear_of_toRat?_eq has.1.2 hbs.1.2 has.1.1 hbs.1.1 hcoefficient
      simp only [areNear, Bool.and_eq_true, beq_iff_eq]
      exact ⟨⟨hmonomial, hnear⟩, ih hrest has.2 hbs.2⟩

theorem isNear_of_valuedMonomials_eq {p q : Polynomial} (hp : p.HasCoefficients Number.IsLowest)
    (hq : q.HasCoefficients Number.IsLowest) (h : p.valuedMonomials = q.valuedMonomials) :
    p.isNear q = true :=
  areNear_of_map_eq h (fun t ht ↦ ⟨(hp t ht).1, (hp t ht).2.2⟩)
    fun t ht ↦ ⟨(hq t ht).1, (hq t ht).2.2⟩

end Polynomial

namespace Answer

/--
Expressions with the same commutative form that reduce exactly to polynomials have the same
monomials in the same order, with coefficients of the same values. So if both are read from answers,
and the comparison up to order and grouping accepts them, then that by polynomials does.
-/
theorem isEquivalent_of_matchesUpToOrder {a b : Expr} {p q : Polynomial}
    (hp : Polynomial.ofExpr? a = some p) (hq : Polynomial.ofExpr? b = some q)
    (ha : a.ReducesExactly) (hb : b.ReducesExactly) :
    (a.HaveSameForm b →
      p.terms.map (·.monomial) = q.terms.map (·.monomial) ∧
        p.terms.map (·.coefficient.toRat?) = q.terms.map (·.coefficient.toRat?)) ∧
      ∀ names answer expected, read (.algebraic names) answer = .ok a →
        read (.algebraic names) expected = .ok b →
        matchesUpToOrder (.algebraic names) answer expected = .ok true →
        isEquivalent (.algebraic names) answer expected = .ok true := by
  constructor
  · intro hform
    have hsame := Polynomial.valuedMonomials_eq_of_haveSameForm hform hp hq ha hb
    have hexact : ∀ {e : Expr} {r : Polynomial}, Polynomial.ofExpr? e = some r →
        e.ReducesExactly → r.HasCoefficients fun _ ↦ True := fun hr he ↦
      Polynomial.hasCoefficients_of_ofExpr? Number.isClosed_true (fun _ _ ↦ trivial) hr he
    rw [Polynomial.map_monomial_eq, Polynomial.map_monomial_eq, (hexact hp ha).map_toRat?_eq,
      (hexact hq hb).map_toRat?_eq, hsame]
    exact ⟨rfl, rfl⟩
  · intro names answer expected hanswer hexpected hmatches
    rw [matchesUpToOrder, hanswer, hexpected] at hmatches
    have hform : a.HaveSameForm b := .inr (Except.ok.inj hmatches)
    have hsame := Polynomial.valuedMonomials_eq_of_haveSameForm hform hp hq ha hb
    have hlowest : ∀ {e : Expr} {r : Polynomial} {text : String},
        read (.algebraic names) text = .ok e → Polynomial.ofExpr? e = some r →
        e.ReducesExactly → r.HasCoefficients Number.IsLowest := fun hread hr he ↦
      Polynomial.hasCoefficients_of_ofExpr? Number.isClosed_isLowest (isLowest_of_read hread) hr he
    have hnear := Polynomial.isNear_of_valuedMonomials_eq (hlowest hanswer hp ha)
      (hlowest hexpected hq hb) hsame
    rw [isEquivalent, hanswer, hexpected]
    change Except.ok (a.hasNearPolynomial b) = _
    rw [Expr.hasNearPolynomial, hp, hq]
    exact congrArg Except.ok hnear

/--
Both `(x + 2) * (x^2 - 1) / (x - 1) / 3` and `(x^2 - 1) / 3 / (x - 1) * (x + 2)` reduce to
`1/3 * x^2 + x + 2/3`, through different quotients.
-/
theorem isEquivalent_of_matchesUpToOrder_thirds :
    ∃ (a b : Expr) (p : Polynomial),
      read (.algebraic ["x"]) "(x + 2) * (x^2 - 1) / (x - 1) / 3" = .ok a ∧
      read (.algebraic ["x"]) "(x^2 - 1) / 3 / (x - 1) * (x + 2)" = .ok b ∧
      p.terms = [⟨.fraction ⟨false, 0, 1, 3, by decide⟩, ⟨[⟨"x", 2⟩]⟩⟩, ⟨.integer 1, .ofName "x"⟩,
        ⟨.fraction ⟨false, 0, 2, 3, by decide⟩, .one⟩] ∧
      Polynomial.ofExpr? a = some p ∧ Polynomial.ofExpr? b = some p ∧
      a.ReducesExactly ∧ b.ReducesExactly ∧
      matchesUpToOrder (.algebraic ["x"]) "(x + 2) * (x^2 - 1) / (x - 1) / 3"
        "(x^2 - 1) / 3 / (x - 1) * (x + 2)" = .ok true ∧
      isEquivalent (.algebraic ["x"]) "(x + 2) * (x^2 - 1) / (x - 1) / 3"
        "(x^2 - 1) / 3 / (x - 1) * (x + 2)" = .ok true := by
  let square : Expr := .group (.sub (.pow (.var "x") (.constant (.integer 2)))
    (.constant (.integer 1)))
  let minusOne : Expr := .group (.sub (.var "x") (.constant (.integer 1)))
  let plusTwo : Expr := .group (.add (.var "x") (.constant (.integer 2)))
  let three : Expr := .constant (.integer 3)
  let a : Expr := .div (.div (.mul plusTwo square) minusOne) three
  let b : Expr := .mul (.div (.div square three) minusOne) plusTwo
  let p : Polynomial := ⟨[⟨.fraction ⟨false, 0, 1, 3, by decide⟩, ⟨[⟨"x", 2⟩]⟩⟩,
    ⟨.integer 1, .ofName "x"⟩, ⟨.fraction ⟨false, 0, 2, 3, by decide⟩, .one⟩]⟩
  have hanswer : read (.algebraic ["x"]) "(x + 2) * (x^2 - 1) / (x - 1) / 3" = .ok a := by
    decide +kernel
  have hexpected : read (.algebraic ["x"]) "(x^2 - 1) / 3 / (x - 1) * (x + 2)" = .ok b := by
    decide +kernel
  have hmatches : matchesUpToOrder (.algebraic ["x"]) "(x + 2) * (x^2 - 1) / (x - 1) / 3"
      "(x^2 - 1) / 3 / (x - 1) * (x + 2)" = .ok true := by decide +kernel
  have hp : Polynomial.ofExpr? a = some p := by decide +kernel
  have hq : Polynomial.ofExpr? b = some p := by decide +kernel
  have ha : a.ReducesExactly := by decide +kernel
  have hb : b.ReducesExactly := by decide +kernel
  exact ⟨a, b, p, hanswer, hexpected, rfl, hp, hq, ha, hb, hmatches,
    (isEquivalent_of_matchesUpToOrder hp hq ha hb).2 _ _ _ hanswer hexpected hmatches⟩

end Answer

end SchoolAlgebra
