import Mathlib
import SchoolAlgebra.Proofs.Expr.ExactValue
import SchoolAlgebra.Proofs.Polynomial.Evaluation
import SchoolAlgebra.Proofs.Polynomial.IntegerCoefficients

/-!
# Identity of polynomials

An expression of integers, variables, sums, differences, products and whole powers has a value in
every commutative ring. Its value at the variables themselves is a polynomial with integers as
coefficients, and two such expressions denote the same polynomial exactly if their reductions have
the same terms.
-/

namespace SchoolAlgebra

open MvPolynomial (map X C)

namespace Expr

/--
Whether the expression is made of integers, variables, sums, differences, products, signs, groups
and powers with an integer from zero on as exponent.
-/
inductive IsIntegral : Expr → Prop where
  | constant (v : Int64) : IsIntegral (constant (.integer v))
  | var (name : String) : IsIntegral (var name)
  | add {a b : Expr} (ha : IsIntegral a) (hb : IsIntegral b) : IsIntegral (add a b)
  | sub {a b : Expr} (ha : IsIntegral a) (hb : IsIntegral b) : IsIntegral (sub a b)
  | mul {a b : Expr} (ha : IsIntegral a) (hb : IsIntegral b) : IsIntegral (mul a b)
  | neg {a : Expr} (ha : IsIntegral a) : IsIntegral (neg a)
  | pos {a : Expr} (ha : IsIntegral a) : IsIntegral (pos a)
  | group {a : Expr} (ha : IsIntegral a) : IsIntegral (group a)
  | pow {a : Expr} {n : Int64} (ha : IsIntegral a) (hn : 0 ≤ n.toInt) :
      IsIntegral (pow a (constant (.integer n)))

/-- The value in a commutative ring of an expression that is integral, and zero for any other. -/
def ringValue {R : Type*} [CommRing R] (σ : String → R) : Expr → R
  | constant (.integer v) => (v.toInt : R)
  | var name => σ name
  | add a b => a.ringValue σ + b.ringValue σ
  | sub a b => a.ringValue σ - b.ringValue σ
  | mul a b => a.ringValue σ * b.ringValue σ
  | neg a => -a.ringValue σ
  | pos a => a.ringValue σ
  | group a => a.ringValue σ
  | pow a (constant (.integer n)) => a.ringValue σ ^ n.toInt.toNat
  | _ => 0

theorem map_ringValue {R S : Type*} [CommRing R] [CommRing S] (f : R →+* S) {e : Expr}
    (h : e.IsIntegral) (σ : String → R) :
    f (e.ringValue σ) = e.ringValue fun name ↦ f (σ name) := by
  induction h with
  | constant v => simp [ringValue]
  | var name => rfl
  | add _ _ iha ihb | sub _ _ iha ihb | mul _ _ iha ihb => simp [ringValue, iha, ihb]
  | neg _ iha => simp [ringValue, iha]
  | pos _ iha | group _ iha => exact iha
  | pow _ _ iha => simp [ringValue, iha]

end Expr

namespace Polynomial

theorem constant?_ofNumber_integer (n : Int64) :
    (ofNumber (.integer n)).constant? = some (.integer n) := by
  have hsorted : sortTerms [Term.constant (.integer n)] = [.constant (.integer n)] :=
    List.perm_singleton.1 (sortTerms_perm _)
  unfold ofNumber combine
  rw [hsorted]
  by_cases hn : n = 0
  · rw [hn]
    rfl
  · have hkept : (Term.constant (.integer n)).isNegligible = false := by
      change (n == 0) = false
      exact beq_eq_false_iff_ne.2 hn
    rw [collect, collectFrom, List.filter_cons_of_pos (by rw [hkept]; rfl)]
    rfl

theorem toMvPolynomial_powNumber? {p q : Polynomial} {n : Int64} (hn : 0 ≤ n.toInt)
    (h : p.powNumber? (.integer n) = some q)
    (hexact : ∀ c ∈ p.powNumberCoefficients (.integer n), c.isExact = true) :
    q.toMvPolynomial = p.toMvPolynomial ^ n.toInt.toNat := by
  apply MvPolynomial.funext
  intro σ
  have hpower := isPower_of_powNumber? h hexact (σ := σ) fun _ y hy heven ↦ by
    have hy' : ((n.toInt : ℤ) : ℚ) = y := Option.some.inj hy
    rw [← hy', Rat.den_intCast] at heven
    exact absurd heven Nat.not_even_one
  rw [Number.value_eq (Number.toRat?_integer n)] at hpower
  rw [(isPower_intCast.1 hpower).2, map_pow, ← zpow_natCast, Int.toNat_of_nonneg hn]

theorem hasCoefficients_of_isIntegral {e : Expr} (h : e.IsIntegral) {p : Polynomial}
    (hp : ofExpr? e = some p) (hexact : e.ReducesExactly) :
    p.HasCoefficients Number.IsInteger ∧ p.toMvPolynomial = e.ringValue X := by
  induction h generalizing p with
  | constant v =>
    rw [← Option.some.inj hp]
    refine ⟨hasCoefficients_combine_singleton Number.isRingClosed_isInteger rfl ⟨v, rfl⟩, ?_⟩
    rw [toMvPolynomial_ofNumber rfl, Number.value_eq (Number.toRat?_integer v)]
    exact map_intCast C v.toInt
  | var name =>
    rw [← Option.some.inj hp]
    exact ⟨hasCoefficients_combine_singleton Number.isRingClosed_isInteger rfl ⟨1, rfl⟩,
      toMvPolynomial_ofName name⟩
  | add _ _ iha ihb =>
    obtain ⟨q, r, hq, hr, hp, ha, hb, hsum⟩ := exists_operands hp hexact
    obtain ⟨haint, hqvalue⟩ := iha hq ha
    obtain ⟨hbint, hrvalue⟩ := ihb hr hb
    rw [← Option.some.inj hp]
    refine ⟨haint.add Number.isRingClosed_isInteger hbint hsum, ?_⟩
    rw [toMvPolynomial_add hsum, hqvalue, hrvalue]
    rfl
  | sub _ _ iha ihb =>
    obtain ⟨q, r, hq, hr, hp, ha, hb, hdiff⟩ := exists_operands hp hexact
    obtain ⟨haint, hqvalue⟩ := iha hq ha
    obtain ⟨hbint, hrvalue⟩ := ihb hr hb
    rw [← Option.some.inj hp]
    refine ⟨haint.sub Number.isRingClosed_isInteger hbint hdiff, ?_⟩
    rw [toMvPolynomial_sub hdiff, hqvalue, hrvalue]
    rfl
  | mul _ _ iha ihb =>
    obtain ⟨q, r, hq, hr, hp, ha, hb, hprod⟩ := exists_operands hp hexact
    obtain ⟨haint, hqvalue⟩ := iha hq ha
    obtain ⟨hbint, hrvalue⟩ := ihb hr hb
    refine ⟨haint.mul? Number.isRingClosed_isInteger hbint hp hprod, ?_⟩
    rw [toMvPolynomial_mul? hp hprod, hqvalue, hrvalue]
    rfl
  | neg _ iha =>
    obtain ⟨q, hq, hp, ha, hneg⟩ := exists_operand hp hexact
    obtain ⟨haint, hqvalue⟩ := iha hq ha
    rw [← Option.some.inj hp]
    refine ⟨haint.neg Number.isRingClosed_isInteger hneg, ?_⟩
    rw [toMvPolynomial_neg hneg, hqvalue]
    rfl
  | pos _ iha | group _ iha => exact iha hp hexact
  | @pow a n _ hn iha =>
    obtain ⟨q, r, hq, hr, hp, ha, _, hpow⟩ := exists_operands hp hexact
    rw [← Option.some.inj hr] at hp hpow
    rw [pow?, constant?_ofNumber_integer] at hp
    rw [powCoefficients, constant?_ofNumber_integer] at hpow
    obtain ⟨haint, hqvalue⟩ := iha hq ha
    refine ⟨haint.powNumber?_of_nonneg hn hp hpow, ?_⟩
    rw [toMvPolynomial_powNumber? hn hp hpow, hqvalue]
    rfl

/-- The polynomial of an integral expression denotes its value at the variables. -/
theorem toMvPolynomial_of_isIntegral {e : Expr} (h : e.IsIntegral) {p : Polynomial}
    (hp : ofExpr? e = some p) (hexact : e.ReducesExactly) :
    p.HasIntegerCoefficients ∧ p.toMvPolynomial = e.ringValue X := by
  obtain ⟨hinteger, hvalue⟩ := hasCoefficients_of_isIntegral h hp hexact
  exact ⟨hasIntegerCoefficients_iff.2 hinteger, hvalue⟩

theorem isOrderly_isCanonical {e : Expr} {p : Polynomial} (hp : ofExpr? e = some p) :
    p.IsOrderly Monomial.IsCanonical :=
  isOrderly_of_ofExpr? Monomial.isClosed_isCanonical
    (fun name _ ↦ Monomial.isCanonical_ofName name) hp

theorem ringValue_X_eq_iff {e₁ e₂ : Expr} (h₁ : e₁.IsIntegral) (h₂ : e₂.IsIntegral) :
    e₁.ringValue (X : String → MvPolynomial String ℤ) = e₂.ringValue X ↔
      e₁.ringValue (X : String → MvPolynomial String ℚ) = e₂.ringValue X := by
  have hmap : ∀ {e : Expr}, e.IsIntegral →
      map (Int.castRingHom ℚ) (e.ringValue X) = e.ringValue X := by
    intro e he
    rw [Expr.map_ringValue _ he]
    simp
  rw [← hmap h₁, ← hmap h₂]
  exact (MvPolynomial.map_injective _ Int.cast_injective).eq_iff.symm

/--
The canonical polynomial decides whether two integral expressions denote the same polynomial with
integers as coefficients, which is the case exactly if they have the same value wherever integers
stand for the variables. Every coefficient of the reductions has to be exact.
-/
theorem terms_eq_iff_ringValue_eq {e₁ e₂ : Expr} {p₁ p₂ : Polynomial} (h₁ : e₁.IsIntegral)
    (h₂ : e₂.IsIntegral) (hp₁ : ofExpr? e₁ = some p₁) (hp₂ : ofExpr? e₂ = some p₂)
    (hexact₁ : e₁.ReducesExactly) (hexact₂ : e₂.ReducesExactly) :
    (p₁.terms = p₂.terms ↔
      e₁.ringValue (X : String → MvPolynomial String ℤ) = e₂.ringValue X) ∧
    (p₁.terms = p₂.terms ↔ ∀ σ : String → ℤ, e₁.ringValue σ = e₂.ringValue σ) := by
  obtain ⟨hint₁, hvalue₁⟩ := toMvPolynomial_of_isIntegral h₁ hp₁ hexact₁
  obtain ⟨hint₂, hvalue₂⟩ := toMvPolynomial_of_isIntegral h₂ hp₂ hexact₂
  have hterms : p₁.terms = p₂.terms ↔
      e₁.ringValue (X : String → MvPolynomial String ℤ) = e₂.ringValue X := by
    rw [ringValue_X_eq_iff h₁ h₂, ← hvalue₁, ← hvalue₂]
    constructor
    · intro h
      rw [toMvPolynomial, h]
      rfl
    · exact terms_eq_of_toMvPolynomial_eq (isOrderly_isCanonical hp₁) (isOrderly_isCanonical hp₂)
        hint₁ hint₂
  have hpoints : e₁.ringValue (X : String → MvPolynomial String ℤ) = e₂.ringValue X ↔
      ∀ σ : String → ℤ, e₁.ringValue σ = e₂.ringValue σ := by
    have heval : ∀ {e : Expr}, e.IsIntegral → ∀ σ : String → ℤ,
        MvPolynomial.eval σ (e.ringValue X) = e.ringValue σ := by
      intro e he σ
      rw [Expr.map_ringValue _ he]
      simp
    rw [MvPolynomial.funext_iff]
    exact forall_congr' fun σ ↦ by rw [heval h₁, heval h₂]
  exact ⟨hterms, hterms.trans hpoints⟩

/-- Both `(x + 1) ^ 2` and `x * (x + 2) + 1` reduce to `x ^ 2 + 2 * x + 1`. -/
theorem terms_eq_iff_ringValue_eq_square :
    ∃ (e₁ e₂ : Expr) (p : Polynomial),
      e₁ = .pow (.add (.var "x") (.constant (.integer 1))) (.constant (.integer 2)) ∧
      e₂ = .add (.mul (.var "x") (.add (.var "x") (.constant (.integer 2))))
        (.constant (.integer 1)) ∧
      p.terms = [⟨.integer 1, ⟨[⟨"x", 2⟩]⟩⟩, ⟨.integer 2, .ofName "x"⟩, ⟨.integer 1, .one⟩] ∧
      ofExpr? e₁ = some p ∧ ofExpr? e₂ = some p ∧ e₁.ReducesExactly ∧ e₂.ReducesExactly ∧
      e₁.ringValue (X : String → MvPolynomial String ℤ) = e₂.ringValue X := by
  let e₁ : Expr := .pow (.add (.var "x") (.constant (.integer 1))) (.constant (.integer 2))
  let e₂ : Expr := .add (.mul (.var "x") (.add (.var "x") (.constant (.integer 2))))
    (.constant (.integer 1))
  let p : Polynomial :=
    ⟨[⟨.integer 1, ⟨[⟨"x", 2⟩]⟩⟩, ⟨.integer 2, .ofName "x"⟩, ⟨.integer 1, .one⟩]⟩
  have hp₁ : ofExpr? e₁ = some p := by decide +kernel
  have hp₂ : ofExpr? e₂ = some p := by decide +kernel
  have hexact₁ : e₁.ReducesExactly := by decide +kernel
  have hexact₂ : e₂.ReducesExactly := by decide +kernel
  have h := terms_eq_iff_ringValue_eq (.pow (.add (.var "x") (.constant 1)) (by decide))
    (.add (.mul (.var "x") (.add (.var "x") (.constant 2))) (.constant 1)) hp₁ hp₂ hexact₁ hexact₂
  exact ⟨e₁, e₂, p, rfl, rfl, rfl, hp₁, hp₂, hexact₁, hexact₂, h.1.1 rfl⟩

end Polynomial

end SchoolAlgebra
