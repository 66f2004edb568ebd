import Mathlib
import SchoolAlgebra.Answer.Comparison
import SchoolAlgebra.Proofs.CommutativeForm.Rearrangement
import SchoolAlgebra.Proofs.Polynomial.Evaluation

/-!
# Values of commutative forms

A field with an element for every variable and a power for every pair of elements gives a value to
each expression and to each commutative form, where the reciprocal of zero is zero. An expression
and its commutative form have the same value, whatever the field: signs and reciprocals may be moved
through sums and products. Over the rationals this says that two expressions with the same form have
the same exact value.
-/

namespace SchoolAlgebra

/-- Elements of a field for the variables, and a power for each base and exponent. -/
structure Interpretation (K : Type*) where
  var : String → K
  power : K → K → K

/-- Numbers that agree in kind and parts have the same value. -/
theorem Number.value_eq_of_same {v w : Number} (h : v.same w = true) : v.value = w.value := by
  cases v <;> cases w <;> simp only [same, beq_iff_eq, decide_eq_true_eq, Bool.false_eq_true] at h
  case integer.integer => rw [h]
  case fraction.fraction => rw [h]
  case float.float => rfl

section values

variable {K : Type*} [Field K] (I : Interpretation K)

/-- The value of the expression in the field. The value of a double is zero. -/
def Expr.valueIn : Expr → K
  | constant v => (v.value : K)
  | var name => I.var name
  | add a b => a.valueIn + b.valueIn
  | sub a b => a.valueIn - b.valueIn
  | mul a b => a.valueIn * b.valueIn
  | div a b => a.valueIn / b.valueIn
  | pow a b => I.power a.valueIn b.valueIn
  | neg a => -a.valueIn
  | pos a => a.valueIn
  | group a => a.valueIn
  | sqrt a => I.power a.valueIn (1 / 2)

/-- One with the sign. -/
def signOf (negated : Bool) : K := if negated then -1 else 1

theorem signOf_xor (m n : Bool) : (signOf (m ^^ n) : K) = signOf m * signOf n := by
  cases m <;> cases n <;> simp [signOf]

theorem signOf_not (m : Bool) : (signOf (!m) : K) = -signOf m := by
  cases m <;> simp [signOf]

theorem inv_signOf (m : Bool) : (signOf m : K)⁻¹ = signOf m := by
  cases m <;> simp [signOf, inv_neg]

/-- The element with the sign and the reciprocal of the mark. -/
def Mark.apply (m : Mark) (x : K) : K := signOf m.negated * if m.inverted then x⁻¹ else x

@[simp] theorem Mark.apply_plain (x : K) : Mark.plain.apply x = x := one_mul x

theorem Mark.apply_negated (m : Mark) (x : K) :
    Mark.apply { m with negated := !m.negated } x = -m.apply x := by
  rw [apply, apply, signOf_not, neg_mul]

theorem Mark.apply_inverted (m : Mark) (x : K) :
    Mark.apply { m with inverted := !m.inverted } x = (m.apply x)⁻¹ := by
  rw [apply, apply, mul_inv, inv_signOf]
  cases m.inverted <;> simp

theorem Mark.apply_eq_signOf_mul (m : Mark) (x : K) :
    m.apply x = signOf m.negated * Mark.apply { m with negated := false } x := by
  rw [apply, apply]
  simp [signOf]

namespace CommutativeForm

mutual

/-- The value of the form in the field. -/
def valueIn : CommutativeForm → K
  | constant m v => m.apply (v.value : K)
  | var m name => m.apply (I.var name)
  | sum m fs => m.apply (sumIn fs)
  | product m fs => m.apply (productIn fs)
  | power m a b => m.apply (I.power a.valueIn b.valueIn)
  | root m a => m.apply (I.power a.valueIn (1 / 2))

/-- The sum of the values. -/
def sumIn : List CommutativeForm → K
  | [] => 0
  | f :: fs => f.valueIn + sumIn fs

/-- The product of the values. -/
def productIn : List CommutativeForm → K
  | [] => 1
  | f :: fs => f.valueIn * productIn fs

end

variable {I}

theorem sumIn_eq (fs : List CommutativeForm) : sumIn I fs = (fs.map (valueIn I)).sum := by
  induction fs with
  | nil => simp [sumIn]
  | cons f fs ih => simp [sumIn, ih]

theorem productIn_eq (fs : List CommutativeForm) :
    productIn I fs = (fs.map (valueIn I)).prod := by
  induction fs with
  | nil => simp [productIn]
  | cons f fs ih => simp [productIn, ih]

@[simp] theorem valueIn_negate (f : CommutativeForm) : f.negate.valueIn I = -f.valueIn I := by
  cases f <;> simp only [negate, withMark, mark, valueIn, Mark.apply_negated]

@[simp] theorem valueIn_invert (f : CommutativeForm) : f.invert.valueIn I = (f.valueIn I)⁻¹ := by
  cases f <;> simp only [invert, withMark, mark, valueIn, Mark.apply_inverted]

theorem valueIn_unsigned (f : CommutativeForm) :
    signOf f.mark.negated * f.unsigned.valueIn I = f.valueIn I := by
  cases f <;> exact (Mark.apply_eq_signOf_mul _ _).symm

theorem sum_map_negate (fs : List CommutativeForm) :
    ((fs.map negate).map (valueIn I)).sum = -(fs.map (valueIn I)).sum := by
  rw [List.sum_neg, List.map_map, List.map_map]
  exact congrArg List.sum (List.map_congr_left fun f _ ↦ valueIn_negate f)

theorem prod_map_invert (fs : List CommutativeForm) :
    ((fs.map invert).map (valueIn I)).prod = ((fs.map (valueIn I)).prod)⁻¹ := by
  rw [List.prod_inv, List.map_map, List.map_map]
  exact congrArg List.prod (List.map_congr_left fun f _ ↦ valueIn_invert f)

mutual

/-- Forms that agree in all parts have the same value. -/
theorem valueIn_eq_of_same : (f g : CommutativeForm) → f.same g = true →
    f.valueIn I = g.valueIn I
  | constant m v, constant n w, h => by
    simp only [same, Bool.and_eq_true, beq_iff_eq] at h
    rw [valueIn, valueIn, h.1, Number.value_eq_of_same h.2]
  | var m x, var n y, h => by
    simp only [same, Bool.and_eq_true, beq_iff_eq] at h
    rw [valueIn, valueIn, h.1, h.2]
  | sum m fs, sum n gs, h => by
    simp only [same, Bool.and_eq_true, beq_iff_eq] at h
    rw [valueIn, valueIn, h.1, sumIn_eq, sumIn_eq, map_valueIn_eq_of_sameAll fs gs h.2]
  | product m fs, product n gs, h => by
    simp only [same, Bool.and_eq_true, beq_iff_eq] at h
    rw [valueIn, valueIn, h.1, productIn_eq, productIn_eq, map_valueIn_eq_of_sameAll fs gs h.2]
  | power m a b, power n c d, h => by
    simp only [same, Bool.and_eq_true, beq_iff_eq] at h
    rw [valueIn, valueIn, h.1, valueIn_eq_of_same a c h.2.1, valueIn_eq_of_same b d h.2.2]
  | root m a, root n b, h => by
    simp only [same, Bool.and_eq_true, beq_iff_eq] at h
    rw [valueIn, valueIn, h.1, valueIn_eq_of_same a b h.2]

theorem map_valueIn_eq_of_sameAll : (fs gs : List CommutativeForm) → sameAll fs gs = true →
    fs.map (valueIn I) = gs.map (valueIn I)
  | [], [], _ => rfl
  | f :: fs, g :: gs, h => by
    simp only [sameAll, Bool.and_eq_true] at h
    rw [List.map_cons, List.map_cons, valueIn_eq_of_same f g h.1,
      map_valueIn_eq_of_sameAll fs gs h.2]

end

end CommutativeForm

/-! ## Values of shapes -/

namespace CommutativeShape

open CommutativeForm

variable {I}

/-- The operands that a form contributes to a sum add up to its value. -/
theorem sum_summandsOf (f : CommutativeForm) :
    ((summandsOf f).map (valueIn I)).sum = f.valueIn I := by
  unfold summandsOf
  split
  · rename_i negated fs
    rw [valueIn, sumIn_eq, Mark.apply]
    cases negated with
    | true =>
      change ((fs.map negate).map (valueIn I)).sum = _
      rw [sum_map_negate]
      simp [signOf]
    | false =>
      change ((fs.map id).map (valueIn I)).sum = _
      simp [signOf]
  · simp

/-- The operands that a form contributes to a product have its value as their product, but for its
sign. -/
theorem prod_factorsOf (f : CommutativeForm) :
    signOf f.mark.negated * ((factorsOf f).map (valueIn I)).prod = f.valueIn I := by
  unfold factorsOf
  split
  · rename_i m fs
    rw [valueIn, productIn_eq, Mark.apply, mark]
    obtain ⟨negated, inverted⟩ := m
    cases inverted with
    | true =>
      change _ * ((fs.map invert).map (valueIn I)).prod = _
      rw [prod_map_invert]
      rfl
    | false =>
      change _ * ((fs.map id).map (valueIn I)).prod = _
      rw [List.map_id]
      rfl
  · rw [List.map_singleton, List.prod_singleton, valueIn_unsigned]

theorem sum_summands (shape : CommutativeShape) :
    (shape.summands.map (valueIn I)).sum = shape.form.valueIn I := by
  rw [(shape.summands_perm.map _).sum_eq, sum_summandsOf]

theorem prod_factors (shape : CommutativeShape) :
    signOf shape.isNegated * (shape.factors.map (valueIn I)).prod = shape.form.valueIn I := by
  rw [(shape.factors_perm.map _).prod_eq, isNegated_eq, prod_factorsOf]

theorem valueIn_form_sum (fs : List CommutativeForm) :
    (sum fs).form.valueIn I = (fs.map (valueIn I)).sum := by
  rw [form, valueIn, sumIn_eq, Mark.apply_plain, ((sort_perm fs).map _).sum_eq]

theorem valueIn_form_product (negated : Bool) (fs : List CommutativeForm) :
    (product negated fs).form.valueIn I = signOf negated * (fs.map (valueIn I)).prod := by
  rw [form, valueIn, productIn_eq, Mark.apply, ((sort_perm fs).map _).prod_eq]
  rfl

/-- An expression and its shape have the same value. -/
theorem valueIn_form_ofExpr (e : Expr) : (ofExpr e).form.valueIn I = e.valueIn I := by
  induction e with
  | constant v => exact Mark.apply_plain _
  | var name => exact Mark.apply_plain _
  | add a b iha ihb =>
    rw [ofExpr, add, valueIn_form_sum, List.map_append, List.sum_append, sum_summands,
      sum_summands, iha, ihb, Expr.valueIn]
  | sub a b iha ihb =>
    rw [ofExpr, sub, valueIn_form_sum, List.map_append, List.sum_append, sum_map_negate,
      sum_summands, sum_summands, iha, ihb, Expr.valueIn, sub_eq_add_neg]
  | mul a b iha ihb =>
    rw [ofExpr, mul, valueIn_form_product, List.map_append, List.prod_append, signOf_xor,
      mul_mul_mul_comm, prod_factors, prod_factors, iha, ihb, Expr.valueIn]
  | div a b iha ihb =>
    rw [ofExpr, div, valueIn_form_product, List.map_append, List.prod_append, prod_map_invert,
      signOf_xor, ← inv_signOf (ofExpr b).isNegated, mul_mul_mul_comm, ← mul_inv, prod_factors,
      prod_factors, iha, ihb, Expr.valueIn, div_eq_mul_inv]
  | pow a b iha ihb =>
    change Mark.plain.apply (I.power _ _) = _
    rw [Mark.apply_plain, iha, ihb, Expr.valueIn]
  | neg a iha =>
    rw [ofExpr, form, valueIn_negate, iha, Expr.valueIn]
  | pos a iha => exact iha
  | group a iha => exact iha
  | sqrt a iha =>
    change Mark.plain.apply (I.power _ _) = _
    rw [Mark.apply_plain, iha, Expr.valueIn]

end CommutativeShape

/--
Whether two expressions have the same commutative form: one and the same, or forms that agree in all
parts. The second says less of the two zeros of the doubles, and the first of NaN.
-/
def Expr.HaveSameForm (a b : Expr) : Prop :=
  CommutativeForm.ofExpr a = CommutativeForm.ofExpr b ∨ a.isReordered b = true

/-- Expressions with the same commutative form have the same value, in every field. -/
theorem Expr.HaveSameForm.valueIn_eq {a b : Expr} (h : a.HaveSameForm b) :
    a.valueIn I = b.valueIn I := by
  have hforms : (CommutativeForm.ofExpr a).valueIn I = (CommutativeForm.ofExpr b).valueIn I := by
    rcases h with heq | hsame
    · rw [heq]
    · exact CommutativeForm.valueIn_eq_of_same _ _ hsame
  calc a.valueIn I = (CommutativeForm.ofExpr a).valueIn I :=
        (CommutativeShape.valueIn_form_ofExpr a).symm
    _ = (CommutativeForm.ofExpr b).valueIn I := hforms
    _ = b.valueIn I := CommutativeShape.valueIn_form_ofExpr b

end values

variable {env : Environment}

/-- The exact values of the variables and of powers, and zero where there is none. -/
noncomputable def Environment.interpretation (env : Environment) : Interpretation ℚ where
  var := env.point
  power x y :=
    haveI := Classical.propDecidable (∃ z, IsPower x y z)
    if h : ∃ z, IsPower x y z then h.choose else 0

theorem Environment.interpretation_power {x y z : ℚ} (h : IsPower x y z) :
    env.interpretation.power x y = z := by
  have hexists : ∃ z, IsPower x y z := ⟨z, h⟩
  have hpower : env.interpretation.power x y = hexists.choose := dif_pos hexists
  rw [hpower]
  exact hexists.choose_spec.unique h

/-- The exact value of an expression is its value over the rationals. -/
theorem Expr.HasValue.valueIn_eq {e : Expr} {x : ℚ} (h : e.HasValue env x) :
    e.valueIn env.interpretation = x := by
  induction h with
  | constant hv => rw [valueIn, Number.value_eq hv, Rat.cast_id]
  | var hbound hv => rw [← Number.value_eq hv, ← Environment.point_eq hbound]; rfl
  | add _ _ iha ihb => rw [valueIn, iha, ihb]
  | sub _ _ iha ihb => rw [valueIn, iha, ihb]
  | mul _ _ iha ihb => rw [valueIn, iha, ihb]
  | div _ _ _ iha ihb => rw [valueIn, iha, ihb]
  | pow _ _ hz iha ihb => rw [valueIn, iha, ihb, Environment.interpretation_power hz]
  | neg _ iha => rw [valueIn, iha]
  | pos _ iha | group _ iha => exact iha
  | sqrt _ hz iha => rw [valueIn, iha, Environment.interpretation_power hz]

/--
Expressions with the same commutative form have the same value: where both evaluate to exact
numbers, these are one rational.
-/
theorem Expr.toRat?_eval_eq_of_haveSameForm {a b : Expr} {v w : Number} (h : a.HaveSameForm b)
    (hv : a.eval env = .ok v) (hw : b.eval env = .ok w) (hvexact : v.isExact = true)
    (hwexact : w.isExact = true) : v.toRat? = w.toRat? := by
  obtain ⟨x, hx⟩ := Number.isExact_iff.1 hvexact
  obtain ⟨y, hy⟩ := Number.isExact_iff.1 hwexact
  have hvalue : x = y :=
    calc x = a.valueIn env.interpretation := (hasValue_of_eval hv hx).2.valueIn_eq.symm
      _ = b.valueIn env.interpretation := h.valueIn_eq _
      _ = y := (hasValue_of_eval hw hy).2.valueIn_eq
  rw [hx, hy, hvalue]

/--
At `x = 4`, both `x - (1 / 2 * x - 5)` and `x - x * 1 / 2 + 5` have the value `7`, the first as a
fraction and the second as an integer.
-/
theorem Expr.toRat?_eval_eq_of_haveSameForm_seven :
    eval (fun _ ↦ some (.integer 4))
        (.sub (.var "x") (.group (.sub
          (.mul (.div (.constant (.integer 1)) (.constant (.integer 2))) (.var "x"))
          (.constant (.integer 5))))) = .ok (.fraction ⟨false, 7, 0, 1, by decide⟩) ∧
      eval (fun _ ↦ some (.integer 4))
        (.add
          (.sub (.var "x")
            (.div (.mul (.var "x") (.constant (.integer 1))) (.constant (.integer 2))))
          (.constant (.integer 5))) = .ok (.integer 7) ∧
      (Number.fraction ⟨false, 7, 0, 1, by decide⟩).toRat? = (Number.integer 7).toRat? := by
  have hfraction : eval (fun _ ↦ some (.integer 4))
      (.sub (.var "x") (.group (.sub
        (.mul (.div (.constant (.integer 1)) (.constant (.integer 2))) (.var "x"))
        (.constant (.integer 5))))) = .ok (.fraction ⟨false, 7, 0, 1, by decide⟩) := by
    decide +kernel
  have hinteger : eval (fun _ ↦ some (.integer 4))
      (.add
        (.sub (.var "x")
          (.div (.mul (.var "x") (.constant (.integer 1))) (.constant (.integer 2))))
        (.constant (.integer 5))) = .ok (.integer 7) := by
    decide +kernel
  exact ⟨hfraction, hinteger,
    toRat?_eval_eq_of_haveSameForm (.inr (by decide +kernel)) hfraction hinteger rfl rfl⟩

end SchoolAlgebra
