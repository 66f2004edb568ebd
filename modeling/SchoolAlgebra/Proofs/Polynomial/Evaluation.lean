import Mathlib
import SchoolAlgebra.Polynomial.Value
import SchoolAlgebra.Proofs.Expr.ExactValue
import SchoolAlgebra.Proofs.Polynomial.RingPower

/-!
# Values of polynomials and of expressions

An expression and its polynomial have the same values. The value of a polynomial at exact numbers is
that of the polynomial in the polynomial ring, and so is the exact value of the expression, provided
that no root of even order is taken of an expression with variables where one of them is negative.
-/

namespace SchoolAlgebra

open MvPolynomial (eval X C)

variable {env : Environment}

/-- The point whose coordinates are the exact values of the variables. -/
def Environment.point (env : Environment) (name : String) : ℚ :=
  ((env name).map Number.value).getD 0

theorem Environment.point_eq {name : String} {v : Number} (h : env name = some v) :
    env.point name = v.value := by
  rw [Environment.point, h]
  rfl

/-- Whether no variable has a negative exact value. -/
def Environment.IsNonnegative (env : Environment) : Prop :=
  ∀ name v x, env name = some v → v.toRat? = some x → 0 ≤ x

theorem Environment.IsNonnegative.point_nonneg (h : env.IsNonnegative) (name : String) :
    0 ≤ env.point name := by
  cases hname : env name with
  | none =>
    rw [Environment.point, hname]
    exact le_rfl
  | some v =>
    rw [Environment.point_eq hname]
    cases hv : v.toRat? with
    | none =>
      rw [Number.value, hv]
      exact le_rfl
    | some x =>
      rw [Number.value_eq hv]
      exact h name v x hname hv

section values

variable {σ : String → ℚ}

theorem exponents_cons (f : VariablePower) (factors : List VariablePower) :
    (Monomial.mk (f :: factors)).exponents =
      Finsupp.single f.name f.power.toNat + (Monomial.mk factors).exponents := by
  ext name
  rw [Finsupp.add_apply, Finsupp.single_apply]
  exact Monomial.exponentIn_cons f factors name

theorem prod_exponents (factors : List VariablePower) :
    ((Monomial.mk factors).exponents.prod fun name n ↦ σ name ^ n) =
      (factors.map fun f ↦ σ f.name ^ f.power.toNat).prod := by
  induction factors with
  | nil => rfl
  | cons f factors ih =>
    rw [exponents_cons, Finsupp.prod_add_index' (by simp) (by simp [pow_add]),
      Finsupp.prod_single_index (h := fun name n ↦ σ name ^ n) (pow_zero _), ih, List.map_cons,
      List.prod_cons]

theorem VariablePower.eval_eq_ok {f : VariablePower} (h : (env f.name).isSome) :
    ∃ v, f.eval env = .ok v ∧
      (v.isExact = true → v.value = env.point f.name ^ f.power.toNat) := by
  obtain ⟨u, hu⟩ := Option.isSome_iff_exists.1 h
  have hdefined : u.powWhole? f.power.toNat ≠ none := by
    rw [ne_eq, Number.powWhole?_eq_none_iff]
    omega
  obtain ⟨v, hv⟩ := Option.ne_none_iff_exists'.1 hdefined
  refine ⟨v, ?_, fun hexact ↦ ?_⟩
  · rw [VariablePower.eval, hu]
    exact Expr.orError_eq_ok_iff.2 hv
  · rw [Environment.point_eq hu, Number.value_powWhole? hv hexact]

/-- The factors still to come multiply the value so far. -/
theorem foldlM_factors_eq_ok {factors : List VariablePower}
    (h : ∀ f ∈ factors, (env f.name).isSome) (start : Number) :
    ∃ v, factors.foldlM (fun value f ↦ do return value * (← f.eval env)) start = .ok v ∧
      (v.isExact = true → start.isExact = true ∧
        v.value = start.value * (factors.map fun f ↦ env.point f.name ^ f.power.toNat).prod) := by
  induction factors generalizing start with
  | nil => exact ⟨start, rfl, fun hexact ↦ ⟨hexact, by simp⟩⟩
  | cons f factors ih =>
    rw [List.forall_mem_cons] at h
    obtain ⟨u, hu, huvalue⟩ := VariablePower.eval_eq_ok h.1
    obtain ⟨v, hv, hvalue⟩ := ih h.2 (start * u)
    refine ⟨v, ?_, fun hexact ↦ ?_⟩
    · rw [List.foldlM_cons, hu]
      exact hv
    · obtain ⟨hproduct, hv⟩ := hvalue hexact
      obtain ⟨hstart, huexact, hmul⟩ := Number.value_mul hproduct
      refine ⟨hstart, ?_⟩
      calc v.value = (start * u).value *
            (factors.map fun f ↦ env.point f.name ^ f.power.toNat).prod := hv
        _ = start.value * env.point f.name ^ f.power.toNat *
            (factors.map fun f ↦ env.point f.name ^ f.power.toNat).prod := by
            rw [hmul, huvalue huexact]
        _ = start.value *
            ((f :: factors).map fun f ↦ env.point f.name ^ f.power.toNat).prod := by
            rw [List.map_cons, List.prod_cons, mul_assoc]

theorem Term.eval_eq_ok {t : Term} (h : ∀ name ∈ t.monomial.names, (env name).isSome) :
    ∃ v, t.eval env = .ok v ∧
      (v.isExact = true → v.value = MvPolynomial.eval env.point t.toMvPolynomial) := by
  obtain ⟨v, hv, hvalue⟩ := foldlM_factors_eq_ok (List.forall_mem_map.1 h) t.coefficient
  refine ⟨v, hv, fun hexact ↦ ?_⟩
  rw [(hvalue hexact).2, toMvPolynomial, MvPolynomial.eval_monomial]
  exact congrArg (_ * ·) (prod_exponents t.monomial.factors).symm

namespace Polynomial

/-- The terms still to come add to the value so far. -/
theorem foldlM_terms_eq_ok {terms : List Term}
    (h : ∀ t ∈ terms, ∀ name ∈ t.monomial.names, (env name).isSome) (start : Number) :
    ∃ v, terms.foldlM (fun total t ↦ do return total + (← t.eval env)) start = .ok v ∧
      (v.isExact = true → start.isExact = true ∧
        v.value = start.value + MvPolynomial.eval env.point (sumOf terms)) := by
  induction terms generalizing start with
  | nil => exact ⟨start, rfl, fun hexact ↦ ⟨hexact, by simp⟩⟩
  | cons t terms ih =>
    rw [List.forall_mem_cons] at h
    obtain ⟨u, hu, huvalue⟩ := Term.eval_eq_ok h.1
    obtain ⟨v, hv, hvalue⟩ := ih h.2 (start + u)
    refine ⟨v, ?_, fun hexact ↦ ?_⟩
    · rw [List.foldlM_cons, hu]
      exact hv
    · obtain ⟨hsum, hv⟩ := hvalue hexact
      obtain ⟨hstart, huexact, hadd⟩ := Number.value_add hsum
      refine ⟨hstart, ?_⟩
      calc v.value = (start + u).value + MvPolynomial.eval env.point (sumOf terms) := hv
        _ = start.value + MvPolynomial.eval env.point t.toMvPolynomial +
            MvPolynomial.eval env.point (sumOf terms) := by rw [hadd, huvalue huexact]
        _ = start.value + MvPolynomial.eval env.point (sumOf (t :: terms)) := by
            rw [sumOf_cons, map_add, add_assoc]

theorem eval_eq_ok {p : Polynomial}
    (h : ∀ t ∈ p.terms, ∀ name ∈ t.monomial.names, (env name).isSome) :
    ∃ v, p.eval env = .ok v ∧
      (v.isExact = true → v.value = MvPolynomial.eval env.point p.toMvPolynomial) := by
  obtain ⟨v, hv, hvalue⟩ := foldlM_terms_eq_ok h (.integer 0)
  refine ⟨v, hv, fun hexact ↦ ?_⟩
  rw [(hvalue hexact).2, Number.value_eq (Number.toRat?_integer 0)]
  exact zero_add _

end Polynomial

end values

/-! ## Values of expressions -/

namespace Expr

/-- Whether the expression has a polynomial that is constant. -/
def ReducesToConstant (e : Expr) : Prop :=
  ∃ p v, Polynomial.ofExpr? e = some p ∧ p.constant? = some v

/--
Whether the outermost operation takes a root of even order of an expression that does not reduce to
a constant.
-/
inductive IsEvenRoot : Expr → Prop where
  | sqrt {a : Expr} (ha : ¬a.ReducesToConstant) : IsEvenRoot (sqrt a)
  | pow {a b : Expr} {q : Polynomial} {c : Number} {y : ℚ} (ha : ¬a.ReducesToConstant)
      (hb : Polynomial.ofExpr? b = some q) (hq : q.constant? = some c) (hc : c.toRat? = some y)
      (hy : Even y.den) : IsEvenRoot (pow a b)

/-- Whether some part takes a root of even order of an expression that is not constant. -/
def TakesEvenRoot (e : Expr) : Prop := ∃ part ∈ e.subterms, part.IsEvenRoot

theorem TakesEvenRoot.mono {a e : Expr} (h : a.TakesEvenRoot)
    (hparts : ∀ part ∈ a.subterms, part ∈ e.subterms) : e.TakesEvenRoot := by
  obtain ⟨part, hpart, hroot⟩ := h
  exact ⟨part, hparts part hpart, hroot⟩

theorem not_reducesToConstant {a : Expr} {p : Polynomial} (hp : Polynomial.ofExpr? a = some p)
    (hconstant : p.constant? = none) : ¬a.ReducesToConstant := by
  intro ⟨q, v, hq, hv⟩
  rw [hp] at hq
  rw [Option.some.inj hq, hv] at hconstant
  simp at hconstant

theorem isSome_of_hasValue {e : Expr} {x : ℚ} (h : e.HasValue env x) {name : String}
    (hname : var name ∈ e.subterms) : (env name).isSome := by
  induction h with
  | constant hv => simp [subterms] at hname
  | var hbound _ =>
    rw [subterms, List.mem_singleton, var.injEq] at hname
    rw [hname, hbound]
    rfl
  | add _ _ iha ihb | sub _ _ iha ihb | mul _ _ iha ihb | div _ _ _ iha ihb | pow _ _ _ iha ihb =>
    simp only [subterms, List.mem_cons, List.mem_append, reduceCtorEq, false_or] at hname
    exact hname.elim iha ihb
  | neg _ iha | pos _ iha | group _ iha | sqrt _ _ iha =>
    simp only [subterms, List.mem_cons, reduceCtorEq, false_or] at hname
    exact iha hname

/-- The exact value of an expression is the value of its polynomial. -/
theorem eval_toMvPolynomial_of_hasValue {e : Expr} {x : ℚ} (hx : e.HasValue env x)
    {p : Polynomial} (hp : Polynomial.ofExpr? e = some p) (hexact : e.ReducesExactly)
    (hroot : e.TakesEvenRoot → env.IsNonnegative) :
    MvPolynomial.eval env.point p.toMvPolynomial = x := by
  induction hx generalizing p with
  | constant hv =>
    rw [← Option.some.inj hp, Polynomial.toMvPolynomial_ofNumber (Number.isExact_of_toRat? hv),
      MvPolynomial.eval_C, Number.value_eq hv]
  | var hbound hv =>
    rw [← Option.some.inj hp, Polynomial.toMvPolynomial_ofName, MvPolynomial.eval_X,
      Environment.point_eq hbound, Number.value_eq hv]
  | add _ _ iha ihb =>
    obtain ⟨q, r, hq, hr, hp, ha, hb, hsum⟩ := Polynomial.exists_operands hp hexact
    rw [← Option.some.inj hp, Polynomial.toMvPolynomial_add hsum, map_add,
      iha hq ha fun h ↦ hroot (h.mono (by simp +contextual [subterms])),
      ihb hr hb fun h ↦ hroot (h.mono (by simp +contextual [subterms]))]
  | sub _ _ iha ihb =>
    obtain ⟨q, r, hq, hr, hp, ha, hb, hdiff⟩ := Polynomial.exists_operands hp hexact
    rw [← Option.some.inj hp, Polynomial.toMvPolynomial_sub hdiff, map_sub,
      iha hq ha fun h ↦ hroot (h.mono (by simp +contextual [subterms])),
      ihb hr hb fun h ↦ hroot (h.mono (by simp +contextual [subterms]))]
  | mul _ _ iha ihb =>
    obtain ⟨q, r, hq, hr, hp, ha, hb, hprod⟩ := Polynomial.exists_operands hp hexact
    rw [Polynomial.toMvPolynomial_mul? hp hprod, map_mul,
      iha hq ha fun h ↦ hroot (h.mono (by simp +contextual [subterms])),
      ihb hr hb fun h ↦ hroot (h.mono (by simp +contextual [subterms]))]
  | div _ _ hy iha ihb =>
    obtain ⟨q, r, hq, hr, hp, ha, hb, hquot⟩ := Polynomial.exists_operands hp hexact
    have hascending : Polynomial.IsAscending r.terms :=
      (Polynomial.isOrderly_of_ofExpr? (Monomial.isClosed_forall_names fun _ ↦ True)
        (fun _ _ _ _ ↦ trivial) hr).isAscending
    have hproduct := congrArg (MvPolynomial.eval env.point)
      (Polynomial.toMvPolynomial_div? hp hascending hquot)
    rw [map_mul, iha hq ha fun h ↦ hroot (h.mono (by simp +contextual [subterms])),
      ihb hr hb fun h ↦ hroot (h.mono (by simp +contextual [subterms]))] at hproduct
    exact eq_div_of_mul_eq hy hproduct
  | pow _ _ hz iha ihb =>
    obtain ⟨q, r, hq, hr, hp, ha, hb, hpow⟩ := Polynomial.exists_operands hp hexact
    obtain ⟨c, hc, hp⟩ := Option.bind_eq_some_iff.1 hp
    rw [Polynomial.powCoefficients, hc] at hpow
    have hbase := iha hq ha fun h ↦ hroot (h.mono (by simp +contextual [subterms]))
    have hexponent := ihb hr hb fun h ↦ hroot (h.mono (by simp +contextual [subterms]))
    rw [Polynomial.toMvPolynomial_of_constant? hc, MvPolynomial.eval_C] at hexponent
    have hpower := Polynomial.isPower_of_powNumber? hp hpow (σ := env.point) fun hnone y hy heven ↦
      (hroot ⟨_, mem_subterms_self _, .pow (not_reducesToConstant hq hnone) hr hc hy
        heven⟩).point_nonneg
    rw [hbase, hexponent] at hpower
    exact hpower.unique hz
  | neg _ iha =>
    obtain ⟨q, hq, hp, ha, hneg⟩ := Polynomial.exists_operand hp hexact
    rw [← Option.some.inj hp, Polynomial.toMvPolynomial_neg hneg, map_neg,
      iha hq ha fun h ↦ hroot (h.mono (by simp +contextual [subterms]))]
  | pos _ iha | group _ iha =>
    exact iha hp hexact fun h ↦ hroot (h.mono (by simp +contextual [subterms]))
  | sqrt _ hz iha =>
    obtain ⟨q, hq, hp, ha, hpow⟩ := Polynomial.exists_operand hp hexact
    have hbase := iha hq ha fun h ↦ hroot (h.mono (by simp +contextual [subterms]))
    have hpower := Polynomial.isPower_of_powNumber? hp hpow (σ := env.point) fun hnone _ _ _ ↦
      (hroot ⟨_, mem_subterms_self _, .sqrt (not_reducesToConstant hq hnone)⟩).point_nonneg
    rw [hbase, Number.value_eq (Number.toRat?_fraction .half), Fraction.toRat_half] at hpower
    exact hpower.unique hz

end Expr

/--
The polynomial of an expression has the value of the expression. If the expression evaluates to an
exact number, its polynomial evaluates as well, and where the result is exact it is the same number.
Every coefficient of the reduction has to be exact. The variables may have any sign, except that
none may be negative if a root of even order is taken of an expression that is not constant.
-/
theorem Polynomial.eval_eq_of_ofExpr? {e : Expr} {p : Polynomial} {v : Number}
    (hp : Polynomial.ofExpr? e = some p) (hexact : e.ReducesExactly) (hv : e.eval env = .ok v)
    (hvexact : v.isExact = true) (hroot : e.TakesEvenRoot → env.IsNonnegative) :
    ∃ w, p.eval env = .ok w ∧ (w.isExact = true → w.toRat? = v.toRat?) := by
  have hvalue := (Expr.hasValue_of_eval hv (Number.toRat?_eq_value hvexact)).2
  have hbound : ∀ t ∈ p.terms, ∀ name ∈ t.monomial.names, (env name).isSome := by
    have horderly := isOrderly_of_ofExpr?
      (Monomial.isClosed_forall_names fun name ↦ (env name).isSome = true) (fun name hname other
        hother ↦ by
          rw [Monomial.names, Monomial.ofName, List.map_singleton, List.mem_singleton] at hother
          exact hother ▸ Expr.isSome_of_hasValue hvalue hname) hp
    exact fun t ht ↦ horderly.monomial ht
  obtain ⟨w, hw, hwvalue⟩ := Polynomial.eval_eq_ok hbound
  refine ⟨w, hw, fun hwexact ↦ ?_⟩
  calc w.toRat? = some w.value := Number.toRat?_eq_value hwexact
    _ = some (MvPolynomial.eval env.point p.toMvPolynomial) := by rw [hwvalue hwexact]
    _ = some v.value := by
        rw [Expr.eval_toMvPolynomial_of_hasValue hvalue hp hexact hroot]
    _ = v.toRat? := (Number.toRat?_eq_value hvexact).symm

/--
At `x = 3 1/2`, both `sqrt (4 * x ^ 2) + (x ^ 2 - 1) / (x + 1)` and its polynomial `3 * x - 1` have
the value `9 1/2`.
-/
theorem Polynomial.eval_eq_of_ofExpr?_sevenHalves :
    Polynomial.ofExpr? (.add
        (.sqrt (.mul (.constant (.integer 4)) (.pow (.var "x") (.constant (.integer 2)))))
        (.div (.sub (.pow (.var "x") (.constant (.integer 2))) (.constant (.integer 1)))
          (.add (.var "x") (.constant (.integer 1))))) =
      some ⟨[⟨.integer 3, .ofName "x"⟩, ⟨.integer (-1), .one⟩]⟩ ∧
    ∃ w, Polynomial.eval (fun _ ↦ some (.fraction ⟨false, 3, 1, 2, by decide⟩))
        ⟨[⟨.integer 3, .ofName "x"⟩, ⟨.integer (-1), .one⟩]⟩ = .ok w ∧
      w.toRat? = (Number.fraction ⟨false, 9, 1, 2, by decide⟩).toRat? := by
  have hp : Polynomial.ofExpr? (.add
        (.sqrt (.mul (.constant (.integer 4)) (.pow (.var "x") (.constant (.integer 2)))))
        (.div (.sub (.pow (.var "x") (.constant (.integer 2))) (.constant (.integer 1)))
          (.add (.var "x") (.constant (.integer 1))))) =
      some ⟨[⟨.integer 3, .ofName "x"⟩, ⟨.integer (-1), .one⟩]⟩ := by decide +kernel
  have hnonneg : Environment.IsNonnegative
      fun _ ↦ some (.fraction ⟨false, 3, 1, 2, by decide⟩) := by
    intro _ v x hv hx
    rw [← Option.some.inj hv] at hx
    rw [← Option.some.inj hx]
    decide +kernel
  obtain ⟨w, hw, hsame⟩ := eval_eq_of_ofExpr? (v := .fraction ⟨false, 9, 1, 2, by decide⟩) hp
    (by decide +kernel) (by decide +kernel) rfl fun _ ↦ hnonneg
  have hexact : w = .fraction ⟨false, 9, 1, 2, by decide⟩ :=
    Except.ok.inj (hw.symm.trans (by decide +kernel))
  exact ⟨hp, w, hw, hsame (hexact ▸ rfl)⟩

end SchoolAlgebra
