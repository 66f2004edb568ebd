import Mathlib
import SchoolAlgebra.Expr.Eval
import SchoolAlgebra.Proofs.Number.ExactPower

/-!
# Exact values of expressions

The exact value of an expression is what it denotes over the rationals, computed without words and
without doubles. The evaluator answers with an exact number only if that number is the exact value,
and it answers that there is no value only if the exact value of some part is undefined.
-/

namespace SchoolAlgebra.Expr

variable {env : Environment}

/-- Whether a rational is the exact value of the expression in the environment. -/
inductive HasValue (env : Environment) : Expr → ℚ → Prop where
  | constant {v : Number} {x : ℚ} (hv : v.toRat? = some x) : HasValue env (constant v) x
  | var {name : String} {v : Number} {x : ℚ} (hbound : env name = some v)
      (hv : v.toRat? = some x) : HasValue env (var name) x
  | add {a b : Expr} {x y : ℚ} (ha : HasValue env a x) (hb : HasValue env b y) :
      HasValue env (add a b) (x + y)
  | sub {a b : Expr} {x y : ℚ} (ha : HasValue env a x) (hb : HasValue env b y) :
      HasValue env (sub a b) (x - y)
  | mul {a b : Expr} {x y : ℚ} (ha : HasValue env a x) (hb : HasValue env b y) :
      HasValue env (mul a b) (x * y)
  | div {a b : Expr} {x y : ℚ} (ha : HasValue env a x) (hb : HasValue env b y) (hy : y ≠ 0) :
      HasValue env (div a b) (x / y)
  | pow {a b : Expr} {x y z : ℚ} (ha : HasValue env a x) (hb : HasValue env b y)
      (hz : IsPower x y z) : HasValue env (pow a b) z
  | neg {a : Expr} {x : ℚ} (ha : HasValue env a x) : HasValue env (neg a) (-x)
  | pos {a : Expr} {x : ℚ} (ha : HasValue env a x) : HasValue env (pos a) x
  | group {a : Expr} {x : ℚ} (ha : HasValue env a x) : HasValue env (group a) x
  | sqrt {a : Expr} {x z : ℚ} (ha : HasValue env a x) (hz : IsPower x (1 / 2) z) :
      HasValue env (sqrt a) z

/-- The exact value is unique. -/
theorem HasValue.unique {e : Expr} {x y : ℚ} (hx : HasValue env e x) (hy : HasValue env e y) :
    x = y := by
  induction hx generalizing y with
  | constant hv =>
    cases hy with
    | constant hw => exact Option.some.inj (hv.symm.trans hw)
  | var hbound hv =>
    cases hy with
    | var hbound' hw =>
      have hsame := Option.some.inj (hbound.symm.trans hbound')
      subst hsame
      exact Option.some.inj (hv.symm.trans hw)
  | add _ _ iha ihb =>
    cases hy with
    | add ha hb => rw [iha ha, ihb hb]
  | sub _ _ iha ihb =>
    cases hy with
    | sub ha hb => rw [iha ha, ihb hb]
  | mul _ _ iha ihb =>
    cases hy with
    | mul ha hb => rw [iha ha, ihb hb]
  | div _ _ _ iha ihb =>
    cases hy with
    | div ha hb _ => rw [iha ha, ihb hb]
  | pow _ _ hz iha ihb =>
    cases hy with
    | pow ha hb hz' =>
      rw [iha ha, ihb hb] at hz
      exact hz.unique hz'
  | neg _ iha =>
    cases hy with
    | neg ha => rw [iha ha]
  | pos _ iha =>
    cases hy with
    | pos ha => exact iha ha
  | group _ iha =>
    cases hy with
    | group ha => exact iha ha
  | sqrt _ hz iha =>
    cases hy with
    | sqrt ha hz' =>
      rw [iha ha] at hz
      exact hz.unique hz'

/--
Whether the outermost operation of the expression is undefined for the exact values of its operands:
a division by zero, a negative power of zero, or an even root of a negative number.
-/
inductive IsUndefined (env : Environment) : Expr → Prop where
  | div {a b : Expr} (hb : HasValue env b 0) : IsUndefined env (div a b)
  | zeroPow {a b : Expr} {y : ℚ} (ha : HasValue env a 0) (hb : HasValue env b y) (hy : y < 0) :
      IsUndefined env (pow a b)
  | evenRoot {a b : Expr} {x y : ℚ} (ha : HasValue env a x) (hb : HasValue env b y) (hx : x < 0)
      (hy : Even y.den) : IsUndefined env (pow a b)
  | sqrt {a : Expr} {x : ℚ} (ha : HasValue env a x) (hx : x < 0) : IsUndefined env (sqrt a)

/-- An undefined operation has no exact value. -/
theorem IsUndefined.not_hasValue {e : Expr} {z : ℚ} (h : IsUndefined env e) :
    ¬HasValue env e z := by
  intro hz
  cases h with
  | div hb =>
    cases hz with
    | div _ hb' hy => exact hy (hb'.unique hb)
  | zeroPow ha hb hy =>
    cases hz with
    | pow ha' hb' hpow =>
      rw [ha'.unique ha, hb'.unique hb] at hpow
      exact hy.not_ge (hpow.1 rfl)
  | evenRoot ha hb hx hy =>
    cases hz with
    | pow ha' hb' hpow =>
      rw [ha'.unique ha, hb'.unique hb] at hpow
      exact not_isPower_of_neg hx hy hpow
  | sqrt ha hx =>
    cases hz with
    | sqrt ha' hpow =>
      rw [ha'.unique ha] at hpow
      exact not_isPower_of_neg hx (by norm_num) hpow

section bind

variable {ε α β : Type} {x : Except ε α} {f : α → Except ε β}

theorem bind_eq_ok_iff {c : β} : x >>= f = .ok c ↔ ∃ a, x = .ok a ∧ f a = .ok c := by
  cases x <;> simp [bind, Except.bind]

theorem bind_eq_error_iff {error : ε} :
    x >>= f = .error error ↔ x = .error error ∨ ∃ a, x = .ok a ∧ f a = .error error := by
  cases x <;> simp [bind, Except.bind]

theorem pure_eq_ok_iff {a c : α} : (pure a : Except ε α) = .ok c ↔ a = c :=
  Except.ok.injEq a c ▸ Iff.rfl

theorem pure_ne_error {a : α} {error : ε} : (pure a : Except ε α) ≠ .error error := nofun

end bind

theorem orError_eq_ok_iff {error : EvalError} {result : Option Number} {v : Number} :
    orError error result = .ok v ↔ result = some v := by
  cases result <;> simp [orError]

theorem orError_eq_error_iff {error error' : EvalError} {result : Option Number} :
    orError error result = .error error' ↔ result = none ∧ error = error' := by
  cases result <;> simp [orError]

/-! ## Soundness of evaluation -/

/-- Whether the expression and all its parts evaluate to exact numbers. -/
def EvaluatesExactly (env : Environment) (e : Expr) : Prop :=
  ∀ part ∈ e.subterms, ∃ v x, part.eval env = .ok v ∧ v.toRat? = some x

theorem evaluatesExactly_of_eq_binary {e a b : Expr} {v : Number} {x : ℚ}
    (hparts : e.subterms = e :: (a.subterms ++ b.subterms)) (h : e.eval env = .ok v)
    (hx : v.toRat? = some x) (ha : a.EvaluatesExactly env) (hb : b.EvaluatesExactly env) :
    e.EvaluatesExactly env := by
  intro part hpart
  rw [hparts, List.mem_cons, List.mem_append] at hpart
  rcases hpart with hself | hleft | hright
  · subst hself
    exact ⟨v, x, h, hx⟩
  · exact ha part hleft
  · exact hb part hright

theorem evaluatesExactly_of_eq_unary {e a : Expr} {v : Number} {x : ℚ}
    (hparts : e.subterms = e :: a.subterms) (h : e.eval env = .ok v) (hx : v.toRat? = some x)
    (ha : a.EvaluatesExactly env) : e.EvaluatesExactly env := by
  intro part hpart
  rw [hparts, List.mem_cons] at hpart
  rcases hpart with hself | hinner
  · subst hself
    exact ⟨v, x, h, hx⟩
  · exact ha part hinner

/-- An exact result is the exact value, and no part has a double as its result. -/
theorem hasValue_of_eval {e : Expr} {v : Number} {x : ℚ} (h : e.eval env = .ok v)
    (hx : v.toRat? = some x) : e.EvaluatesExactly env ∧ e.HasValue env x := by
  induction e generalizing v x with
  | constant w =>
    have hw : w = v := Except.ok.inj h
    subst hw
    refine ⟨?_, .constant hx⟩
    intro part hpart
    rw [subterms, List.mem_singleton] at hpart
    exact ⟨w, x, hpart ▸ h, hx⟩
  | var name =>
    refine ⟨?_, .var (orError_eq_ok_iff.1 h) hx⟩
    intro part hpart
    rw [subterms, List.mem_singleton] at hpart
    exact ⟨v, x, hpart ▸ h, hx⟩
  | add a b iha ihb =>
    have h' := h
    simp only [eval, bind_eq_ok_iff, pure_eq_ok_iff] at h'
    obtain ⟨p, hp, q, hq, hv⟩ := h'
    obtain ⟨y, z, hy, hz, hsum⟩ := Number.toRat?_add (hv ▸ hx)
    obtain ⟨haparts, ha⟩ := iha hp hy
    obtain ⟨hbparts, hb⟩ := ihb hq hz
    exact ⟨evaluatesExactly_of_eq_binary rfl h hx haparts hbparts, hsum ▸ .add ha hb⟩
  | sub a b iha ihb =>
    have h' := h
    simp only [eval, bind_eq_ok_iff, pure_eq_ok_iff] at h'
    obtain ⟨p, hp, q, hq, hv⟩ := h'
    obtain ⟨y, z, hy, hz, hdiff⟩ := Number.toRat?_sub (hv ▸ hx)
    obtain ⟨haparts, ha⟩ := iha hp hy
    obtain ⟨hbparts, hb⟩ := ihb hq hz
    exact ⟨evaluatesExactly_of_eq_binary rfl h hx haparts hbparts, hdiff ▸ .sub ha hb⟩
  | mul a b iha ihb =>
    have h' := h
    simp only [eval, bind_eq_ok_iff, pure_eq_ok_iff] at h'
    obtain ⟨p, hp, q, hq, hv⟩ := h'
    obtain ⟨y, z, hy, hz, hprod⟩ := Number.toRat?_mul (hv ▸ hx)
    obtain ⟨haparts, ha⟩ := iha hp hy
    obtain ⟨hbparts, hb⟩ := ihb hq hz
    exact ⟨evaluatesExactly_of_eq_binary rfl h hx haparts hbparts, hprod ▸ .mul ha hb⟩
  | div a b iha ihb =>
    have h' := h
    simp only [eval, bind_eq_ok_iff, orError_eq_ok_iff] at h'
    obtain ⟨p, hp, q, hq, hv⟩ := h'
    obtain ⟨y, z, hy, hz, hne, hquot⟩ := Number.toRat?_div? hv hx
    obtain ⟨haparts, ha⟩ := iha hp hy
    obtain ⟨hbparts, hb⟩ := ihb hq hz
    exact ⟨evaluatesExactly_of_eq_binary rfl h hx haparts hbparts, hquot ▸ .div ha hb hne⟩
  | pow a b iha ihb =>
    have h' := h
    simp only [eval, bind_eq_ok_iff, orError_eq_ok_iff] at h'
    obtain ⟨p, hp, q, hq, hv⟩ := h'
    obtain ⟨y, z, hy, hz, hpow⟩ := Number.isPower_of_pow? hv hx
    obtain ⟨haparts, ha⟩ := iha hp hy
    obtain ⟨hbparts, hb⟩ := ihb hq hz
    exact ⟨evaluatesExactly_of_eq_binary rfl h hx haparts hbparts, .pow ha hb hpow⟩
  | neg a iha =>
    have h' := h
    simp only [eval, bind_eq_ok_iff, pure_eq_ok_iff] at h'
    obtain ⟨p, hp, hv⟩ := h'
    obtain ⟨y, hy, hneg⟩ := Number.toRat?_neg (hv ▸ hx)
    obtain ⟨hparts, ha⟩ := iha hp hy
    exact ⟨evaluatesExactly_of_eq_unary rfl h hx hparts, hneg ▸ .neg ha⟩
  | pos a iha =>
    obtain ⟨hparts, ha⟩ := iha h hx
    exact ⟨evaluatesExactly_of_eq_unary rfl h hx hparts, .pos ha⟩
  | group a iha =>
    obtain ⟨hparts, ha⟩ := iha h hx
    exact ⟨evaluatesExactly_of_eq_unary rfl h hx hparts, .group ha⟩
  | sqrt a iha =>
    have h' := h
    simp only [eval, bind_eq_ok_iff, orError_eq_ok_iff] at h'
    obtain ⟨p, hp, hv⟩ := h'
    obtain ⟨y, hy, hpow⟩ := Number.isPower_of_sqrt? hv hx
    obtain ⟨hparts, ha⟩ := iha hp hy
    exact ⟨evaluatesExactly_of_eq_unary rfl h hx hparts, .sqrt ha hpow⟩

/-- Whether some part of the expression is an undefined operation. -/
def HasUndefinedPart (env : Environment) (e : Expr) : Prop :=
  ∃ part ∈ e.subterms, part.IsUndefined env

theorem IsUndefined.hasUndefinedPart {e : Expr} (h : e.IsUndefined env) :
    e.HasUndefinedPart env := ⟨e, e.mem_subterms_self, h⟩

theorem HasUndefinedPart.mono {a e : Expr} (h : a.HasUndefinedPart env)
    (hparts : ∀ part ∈ a.subterms, part ∈ e.subterms) : e.HasUndefinedPart env := by
  obtain ⟨part, hpart, hundefined⟩ := h
  exact ⟨part, hparts part hpart, hundefined⟩

/-- An undefined power of exact numbers comes from operands with exact values. -/
theorem isUndefined_pow_of_eval {a b : Expr} {v w : Number} (hv : a.eval env = .ok v)
    (hw : b.eval env = .ok w) (h : v.pow? w = none) : (pow a b).IsUndefined env := by
  obtain ⟨x, y, hx, hy, hcases⟩ := Number.undefined_of_pow?_eq_none h
  have ha := (hasValue_of_eval hv hx).2
  have hb := (hasValue_of_eval hw hy).2
  rcases hcases with ⟨hneg, heven⟩ | ⟨hzero, hneg⟩
  · exact .evenRoot ha hb hneg heven
  · exact .zeroPow (hzero ▸ ha) hb hneg

/-- An error other than an unbound variable comes from an undefined operation. -/
theorem hasUndefinedPart_of_eval {e : Expr} {error : EvalError} (h : e.eval env = .error error)
    (herror : ∀ name, error ≠ .unbound name) : e.HasUndefinedPart env := by
  induction e with
  | constant v => exact absurd h pure_ne_error
  | var name => exact absurd (orError_eq_error_iff.1 h).2.symm (herror name)
  | add a b iha ihb | sub a b iha ihb | mul a b iha ihb =>
    simp only [eval, bind_eq_error_iff, pure_ne_error, and_false, exists_false, or_false] at h
    rcases h with hleft | ⟨_, _, hright⟩
    · exact (iha hleft).mono (by simp +contextual [subterms])
    · exact (ihb hright).mono (by simp +contextual [subterms])
  | div a b iha ihb =>
    simp only [eval, bind_eq_error_iff, orError_eq_error_iff] at h
    rcases h with hleft | ⟨_, _, hright | ⟨w, hw, hnone, _⟩⟩
    · exact (iha hleft).mono (by simp +contextual [subterms])
    · exact (ihb hright).mono (by simp +contextual [subterms])
    · have hzero := (hasValue_of_eval hw (Number.div?_eq_none_iff.1 hnone)).2
      exact (IsUndefined.div hzero).hasUndefinedPart
  | pow a b iha ihb =>
    simp only [eval, bind_eq_error_iff, orError_eq_error_iff] at h
    rcases h with hleft | ⟨v, hv, hright | ⟨w, hw, hnone, _⟩⟩
    · exact (iha hleft).mono (by simp +contextual [subterms])
    · exact (ihb hright).mono (by simp +contextual [subterms])
    · exact (isUndefined_pow_of_eval hv hw hnone).hasUndefinedPart
  | neg a iha =>
    simp only [eval, bind_eq_error_iff, pure_ne_error, and_false, exists_false, or_false] at h
    exact (iha h).mono (by simp +contextual [subterms])
  | pos a iha | group a iha => exact (iha h).mono (by simp +contextual [subterms])
  | sqrt a iha =>
    simp only [eval, bind_eq_error_iff, orError_eq_error_iff] at h
    rcases h with hinner | ⟨v, hv, hnone, _⟩
    · exact (iha hinner).mono (by simp +contextual [subterms])
    · obtain ⟨x, hx, hneg⟩ := Number.neg_of_sqrt?_eq_none hnone
      exact (IsUndefined.sqrt (hasValue_of_eval hv hx).2 hneg).hasUndefinedPart

/--
Evaluation is exact where it claims to be. An exact result is the exact value of the expression, and
every constant, every binding and every intermediate result behind it is exact. A division by zero
or an undefined result is reported only if some part of the expression is an operation that is
undefined for the exact values of its operands, and then that part has no exact value.
-/
theorem eval_sound (env : Environment) (e : Expr) :
    (∀ v x, e.eval env = .ok v → v.toRat? = some x →
      e.EvaluatesExactly env ∧ e.HasValue env x) ∧
    (e.eval env = .error .divisionByZero ∨ e.eval env = .error .undefined →
      ∃ part ∈ e.subterms, part.IsUndefined env ∧ ∀ x, ¬part.HasValue env x) := by
  refine ⟨fun v x h hx ↦ hasValue_of_eval h hx, ?_⟩
  intro h
  have hundefined : e.HasUndefinedPart env := by
    rcases h with h | h
    · exact hasUndefinedPart_of_eval h nofun
    · exact hasUndefinedPart_of_eval h nofun
  obtain ⟨part, hpart, hundefined⟩ := hundefined
  exact ⟨part, hpart, hundefined, fun _ ↦ hundefined.not_hasValue⟩

/-- For `x = 2 1/4`, the power `x ^ (-1/2)` is `2/3`, and `1 / (x - x)` is undefined. -/
theorem eval_sound_nineQuarters :
    ((pow (var "x") (constant (.fraction ⟨true, 0, 1, 2, by decide⟩))).eval
        (fun _ ↦ some (.fraction ⟨false, 2, 1, 4, by decide⟩)) =
          .ok (.fraction ⟨false, 0, 2, 3, by decide⟩) ∧
      (pow (var "x") (constant (.fraction ⟨true, 0, 1, 2, by decide⟩))).HasValue
        (fun _ ↦ some (.fraction ⟨false, 2, 1, 4, by decide⟩)) (2 / 3)) ∧
    ((div (constant (.integer 1)) (sub (var "x") (var "x"))).eval
        (fun _ ↦ some (.fraction ⟨false, 2, 1, 4, by decide⟩)) = .error .divisionByZero ∧
      ∃ part ∈ (div (constant (.integer 1)) (sub (var "x") (var "x"))).subterms,
        part.IsUndefined (fun _ ↦ some (.fraction ⟨false, 2, 1, 4, by decide⟩)) ∧
          ∀ x, ¬part.HasValue (fun _ ↦ some (.fraction ⟨false, 2, 1, 4, by decide⟩)) x) := by
  have hvalue : (pow (var "x") (constant (.fraction ⟨true, 0, 1, 2, by decide⟩))).eval
      (fun _ ↦ some (.fraction ⟨false, 2, 1, 4, by decide⟩)) =
        .ok (.fraction ⟨false, 0, 2, 3, by decide⟩) := by decide +kernel
  have herror : (div (constant (.integer 1)) (sub (var "x") (var "x"))).eval
      (fun _ ↦ some (.fraction ⟨false, 2, 1, 4, by decide⟩)) = .error .divisionByZero := by
    decide +kernel
  exact ⟨⟨hvalue, ((eval_sound _ _).1 _ _ hvalue (by decide +kernel)).2⟩,
    herror, (eval_sound _ _).2 (Or.inl herror)⟩

end SchoolAlgebra.Expr
