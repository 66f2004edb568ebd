import Mathlib
import SchoolAlgebra.CommutativeForm.OfExpr
import SchoolAlgebra.Proofs.CommutativeForm.Order

/-!
# Rearranged expressions

An expression may be rearranged by the laws of commutativity and associativity and by moving signs
and reciprocals, anywhere within it. The commutative form forgets all of this: an expression and its
rearrangements have the same form.
-/

namespace SchoolAlgebra

namespace Expr

/-- The least congruence that contains the laws of sums and products, signs and reciprocals. -/
inductive IsRearrangement : Expr → Expr → Prop where
  | refl (a : Expr) : IsRearrangement a a
  | symm {a b : Expr} (h : IsRearrangement a b) : IsRearrangement b a
  | trans {a b c : Expr} (h : IsRearrangement a b) (h' : IsRearrangement b c) :
      IsRearrangement a c
  | add {a b c d : Expr} (h : IsRearrangement a c) (h' : IsRearrangement b d) :
      IsRearrangement (add a b) (add c d)
  | sub {a b c d : Expr} (h : IsRearrangement a c) (h' : IsRearrangement b d) :
      IsRearrangement (sub a b) (sub c d)
  | mul {a b c d : Expr} (h : IsRearrangement a c) (h' : IsRearrangement b d) :
      IsRearrangement (mul a b) (mul c d)
  | div {a b c d : Expr} (h : IsRearrangement a c) (h' : IsRearrangement b d) :
      IsRearrangement (div a b) (div c d)
  | pow {a b c d : Expr} (h : IsRearrangement a c) (h' : IsRearrangement b d) :
      IsRearrangement (pow a b) (pow c d)
  | neg {a b : Expr} (h : IsRearrangement a b) : IsRearrangement (neg a) (neg b)
  | pos {a b : Expr} (h : IsRearrangement a b) : IsRearrangement (pos a) (pos b)
  | group {a b : Expr} (h : IsRearrangement a b) : IsRearrangement (group a) (group b)
  | sqrt {a b : Expr} (h : IsRearrangement a b) : IsRearrangement (sqrt a) (sqrt b)
  | add_comm (a b : Expr) : IsRearrangement (add a b) (add b a)
  | add_assoc (a b c : Expr) : IsRearrangement (add (add a b) c) (add a (add b c))
  | mul_comm (a b : Expr) : IsRearrangement (mul a b) (mul b a)
  | mul_assoc (a b c : Expr) : IsRearrangement (mul (mul a b) c) (mul a (mul b c))
  | group_self (a : Expr) : IsRearrangement (group a) a
  | pos_self (a : Expr) : IsRearrangement (pos a) a
  | neg_neg (a : Expr) : IsRearrangement (neg (neg a)) a
  | sub_eq_add_neg (a b : Expr) : IsRearrangement (sub a b) (add a (neg b))
  | sub_add (a b c : Expr) : IsRearrangement (sub a (add b c)) (sub (sub a b) c)
  | sub_sub (a b c : Expr) : IsRearrangement (sub a (sub b c)) (add (sub a b) c)
  | mul_div (a b c : Expr) : IsRearrangement (mul a (div b c)) (div (mul a b) c)
  | div_mul (a b c : Expr) : IsRearrangement (div (div a b) c) (div a (mul b c))
  | div_div (a b c : Expr) : IsRearrangement (div a (div b c)) (div (mul a c) b)
  | neg_mul (a b : Expr) : IsRearrangement (mul (neg a) b) (neg (mul a b))
  | neg_div (a b : Expr) : IsRearrangement (div (neg a) b) (neg (div a b))
  | div_neg (a b : Expr) : IsRearrangement (div a (neg b)) (neg (div a b))

/-- Whether all constants of the expression are integers or doubles other than NaN. -/
def HasLiterals (e : Expr) : Prop := ∀ v, constant v ∈ e.subterms → v.IsLiteral

theorem HasLiterals.mono {a e : Expr} (h : e.HasLiterals)
    (hparts : ∀ part ∈ a.subterms, part ∈ e.subterms) : a.HasLiterals :=
  fun v hv ↦ h v (hparts _ hv)

/-- A rearrangement has the same constants. -/
theorem IsRearrangement.constant_mem_subterms_iff {e e' : Expr} (h : e.IsRearrangement e')
    (v : Number) : constant v ∈ e.subterms ↔ constant v ∈ e'.subterms := by
  induction h with
  | refl _ => rfl
  | symm _ ih => exact ih.symm
  | trans _ _ ih ih' => exact ih.trans ih'
  | add _ _ ih ih' | sub _ _ ih ih' | mul _ _ ih ih' | div _ _ ih ih' | pow _ _ ih ih' =>
    simp only [subterms, List.mem_cons, List.mem_append, reduceCtorEq, false_or, ih, ih']
  | neg _ ih | pos _ ih | group _ ih | sqrt _ ih =>
    simp only [subterms, List.mem_cons, reduceCtorEq, false_or, ih]
  | add_comm _ _ | mul_comm _ _ =>
    simp only [subterms, List.mem_cons, List.mem_append, reduceCtorEq, false_or]
    exact or_comm
  | div_div _ _ _ =>
    simp only [subterms, List.mem_cons, List.mem_append, reduceCtorEq, false_or]
    tauto
  | _ => simp only [subterms, List.mem_cons, List.mem_append, reduceCtorEq, false_or, or_assoc]

theorem IsRearrangement.hasLiterals_iff {e e' : Expr} (h : e.IsRearrangement e') :
    e.HasLiterals ↔ e'.HasLiterals :=
  forall_congr' fun v ↦ by rw [h.constant_mem_subterms_iff v]

end Expr

namespace CommutativeShape

open CommutativeForm (negate invert)

/-! ## Operands and shapes -/

theorem map_negate_negate (fs : List CommutativeForm) : (fs.map negate).map negate = fs := by
  rw [List.map_map]
  exact List.map_id'' CommutativeForm.negate_negate fs

theorem map_invert_invert (fs : List CommutativeForm) : (fs.map invert).map invert = fs := by
  rw [List.map_map]
  exact List.map_id'' CommutativeForm.invert_invert fs

theorem summands_perm (shape : CommutativeShape) :
    shape.summands.Perm (summandsOf shape.form) := by
  cases shape with
  | closed f => exact .refl _
  | sum fs =>
    have hmap : summandsOf (form (sum fs)) = CommutativeForm.sort fs := List.map_id _
    rw [hmap]
    exact (CommutativeForm.sort_perm fs).symm
  | product negated fs => exact .refl _

theorem factors_perm (shape : CommutativeShape) : shape.factors.Perm (factorsOf shape.form) := by
  cases shape with
  | closed f => exact .refl _
  | sum fs => exact .refl _
  | product negated fs =>
    have hmap : factorsOf (form (product negated fs)) = CommutativeForm.sort fs := List.map_id _
    rw [hmap]
    exact (CommutativeForm.sort_perm fs).symm

theorem summandsOf_negate (f : CommutativeForm) :
    summandsOf f.negate = (summandsOf f).map negate := by
  cases f with
  | sum m fs =>
    obtain ⟨negated, inverted⟩ := m
    cases inverted with
    | true => rfl
    | false =>
      have hnegate : ∀ g : CommutativeForm,
          g.negateIf (!negated) = (g.negateIf negated).negate := by
        intro g
        cases negated with
        | true => exact g.negate_negate.symm
        | false => rfl
      change fs.map (CommutativeForm.negateIf !negated) =
        (fs.map (CommutativeForm.negateIf negated)).map negate
      rw [List.map_map]
      exact List.map_congr_left fun g _ ↦ hnegate g
  | _ => rfl

theorem factorsOf_negate (f : CommutativeForm) : factorsOf f.negate = factorsOf f := by
  cases f <;> rfl

/-- A sign in front of a shape goes to every operand that it contributes to a sum. -/
theorem summands_negate (shape : CommutativeShape) :
    (closed shape.form.negate).summands.Perm (shape.summands.map negate) := by
  change (summandsOf shape.form.negate).Perm _
  rw [summandsOf_negate]
  exact (shape.summands_perm.map _).symm

/-- A sign in front of a shape does not change the operands that it contributes to a product. -/
theorem factors_negate (shape : CommutativeShape) :
    (closed shape.form.negate).factors.Perm shape.factors := by
  change (factorsOf shape.form.negate).Perm _
  rw [factorsOf_negate]
  exact shape.factors_perm.symm

theorem isNegated_negate (shape : CommutativeShape) :
    (closed shape.form.negate).isNegated = !shape.isNegated := by
  rw [isNegated_eq, isNegated_eq]
  exact congrArg Mark.negated (CommutativeForm.mark_withMark _ _)

theorem isLiteral_of_mem_summandsOf {f g : CommutativeForm} (h : f.IsLiteral)
    (hg : g ∈ summandsOf f) : g.IsLiteral := by
  have hself : ∀ {f : CommutativeForm}, f.IsLiteral → g ∈ [f] → g.IsLiteral := by
    intro f hf hmem
    exact List.mem_singleton.1 hmem ▸ hf
  cases h with
  | @sum m fs hfs =>
    obtain ⟨negated, inverted⟩ := m
    cases inverted with
    | true => exact hself (.sum hfs) hg
    | false =>
      obtain ⟨x, hx, hxg⟩ := List.mem_map.1 hg
      rw [← hxg]
      cases negated with
      | true => exact (hfs x hx).withMark _
      | false => exact hfs x hx
  | constant hv => exact hself (.constant hv) hg
  | var => exact hself .var hg
  | product hfs => exact hself (.product hfs) hg
  | power ha hb => exact hself (.power ha hb) hg
  | root ha => exact hself (.root ha) hg

theorem isLiteral_of_mem_factorsOf {f g : CommutativeForm} (h : f.IsLiteral)
    (hg : g ∈ factorsOf f) : g.IsLiteral := by
  have hself : ∀ {f : CommutativeForm}, f.IsLiteral → g ∈ [f.unsigned] → g.IsLiteral := by
    intro f hf hmem
    exact List.mem_singleton.1 hmem ▸ hf.withMark _
  cases h with
  | @product m fs hfs =>
    obtain ⟨x, hx, hxg⟩ := List.mem_map.1 hg
    rw [← hxg]
    obtain ⟨negated, inverted⟩ := m
    cases inverted with
    | true => exact (hfs x hx).withMark _
    | false => exact hfs x hx
  | constant hv => exact hself (.constant hv) hg
  | var => exact hself .var hg
  | sum hfs => exact hself (.sum hfs) hg
  | power ha hb => exact hself (.power ha hb) hg
  | root ha => exact hself (.root ha) hg

theorem isLiteral_sum_iff {fs : List CommutativeForm} :
    (sum fs).form.IsLiteral ↔ ∀ f ∈ fs, f.IsLiteral := by
  constructor
  · intro h f hf
    cases h with
    | sum hfs => exact hfs f ((CommutativeForm.sort_perm fs).mem_iff.2 hf)
  · intro h
    exact .sum fun f hf ↦ h f ((CommutativeForm.sort_perm fs).mem_iff.1 hf)

theorem isLiteral_product_iff {negated : Bool} {fs : List CommutativeForm} :
    (product negated fs).form.IsLiteral ↔ ∀ f ∈ fs, f.IsLiteral := by
  constructor
  · intro h f hf
    cases h with
    | product hfs => exact hfs f ((CommutativeForm.sort_perm fs).mem_iff.2 hf)
  · intro h
    exact .product fun f hf ↦ h f ((CommutativeForm.sort_perm fs).mem_iff.1 hf)

theorem isLiteral_of_mem_summands {shape : CommutativeShape} (h : shape.form.IsLiteral)
    {f : CommutativeForm} (hf : f ∈ shape.summands) : f.IsLiteral :=
  isLiteral_of_mem_summandsOf h (shape.summands_perm.mem_iff.1 hf)

theorem isLiteral_of_mem_factors {shape : CommutativeShape} (h : shape.form.IsLiteral)
    {f : CommutativeForm} (hf : f ∈ shape.factors) : f.IsLiteral :=
  isLiteral_of_mem_factorsOf h (shape.factors_perm.mem_iff.1 hf)

/-- The form of an expression with literals is literal. -/
theorem isLiteral_ofExpr {e : Expr} (h : e.HasLiterals) : (ofExpr e).form.IsLiteral := by
  induction e with
  | constant v => exact .constant (h v List.mem_cons_self)
  | var name => exact .var
  | add a b iha ihb =>
    have ha := iha (h.mono (by simp +contextual [Expr.subterms]))
    have hb := ihb (h.mono (by simp +contextual [Expr.subterms]))
    exact isLiteral_sum_iff.2 (List.forall_mem_append.2
      ⟨fun _ ↦ isLiteral_of_mem_summands ha, fun _ ↦ isLiteral_of_mem_summands hb⟩)
  | sub a b iha ihb =>
    have ha := iha (h.mono (by simp +contextual [Expr.subterms]))
    have hb := ihb (h.mono (by simp +contextual [Expr.subterms]))
    exact isLiteral_sum_iff.2 (List.forall_mem_append.2
      ⟨fun _ ↦ isLiteral_of_mem_summands ha,
        List.forall_mem_map.2 fun _ hg ↦ (isLiteral_of_mem_summands hb hg).withMark _⟩)
  | mul a b iha ihb =>
    have ha := iha (h.mono (by simp +contextual [Expr.subterms]))
    have hb := ihb (h.mono (by simp +contextual [Expr.subterms]))
    exact isLiteral_product_iff.2 (List.forall_mem_append.2
      ⟨fun _ ↦ isLiteral_of_mem_factors ha, fun _ ↦ isLiteral_of_mem_factors hb⟩)
  | div a b iha ihb =>
    have ha := iha (h.mono (by simp +contextual [Expr.subterms]))
    have hb := ihb (h.mono (by simp +contextual [Expr.subterms]))
    exact isLiteral_product_iff.2 (List.forall_mem_append.2
      ⟨fun _ ↦ isLiteral_of_mem_factors ha,
        List.forall_mem_map.2 fun _ hg ↦ (isLiteral_of_mem_factors hb hg).withMark _⟩)
  | pow a b iha ihb =>
    exact .power (iha (h.mono (by simp +contextual [Expr.subterms])))
      (ihb (h.mono (by simp +contextual [Expr.subterms])))
  | neg a iha => exact (iha (h.mono (by simp +contextual [Expr.subterms]))).withMark _
  | pos a iha => exact iha (h.mono (by simp +contextual [Expr.subterms]))
  | group a iha => exact iha (h.mono (by simp +contextual [Expr.subterms]))
  | sqrt a iha => exact .root (iha (h.mono (by simp +contextual [Expr.subterms])))

/-! ## Forms of rearranged expressions -/

theorem form_sum_eq {fs gs : List CommutativeForm} (h : (sum fs).form.IsLiteral)
    (hperm : fs.Perm gs) : (sum fs).form = (sum gs).form :=
  congrArg (CommutativeForm.sum .plain)
    (CommutativeForm.sort_eq_of_perm (isLiteral_sum_iff.1 h) hperm)

theorem form_product_eq {m n : Bool} {fs gs : List CommutativeForm}
    (h : (product m fs).form.IsLiteral) (hsign : m = n) (hperm : fs.Perm gs) :
    (product m fs).form = (product n gs).form := by
  rw [form, form, hsign, CommutativeForm.sort_eq_of_perm (isLiteral_product_iff.1 h) hperm]

theorem form_product_eq_negate {m n : Bool} {fs gs : List CommutativeForm}
    (h : (product m fs).form.IsLiteral) (hsign : m = !n) (hperm : fs.Perm gs) :
    (product m fs).form = (product n gs).form.negate :=
  form_product_eq h hsign hperm

section congruence

variable {a b : CommutativeShape}

theorem summands_perm_of_form_eq (h : a.form = b.form) : a.summands.Perm b.summands :=
  a.summands_perm.trans (h ▸ b.summands_perm.symm)

theorem factors_perm_of_form_eq (h : a.form = b.form) : a.factors.Perm b.factors :=
  a.factors_perm.trans (h ▸ b.factors_perm.symm)

theorem isNegated_eq_of_form_eq (h : a.form = b.form) : a.isNegated = b.isNegated := by
  rw [isNegated_eq, isNegated_eq, h]

end congruence

theorem form_eq_of_isRearrangement {e e' : Expr} (h : e.IsRearrangement e')
    (hliterals : e.HasLiterals) : (ofExpr e).form = (ofExpr e').form := by
  induction h with
  | refl a => rfl
  | symm h ih => exact (ih (h.hasLiterals_iff.2 hliterals)).symm
  | trans h _ ih ih' => exact (ih hliterals).trans (ih' (h.hasLiterals_iff.1 hliterals))
  | add _ _ iha ihb =>
    have ha := iha (hliterals.mono (by simp +contextual [Expr.subterms]))
    have hb := ihb (hliterals.mono (by simp +contextual [Expr.subterms]))
    exact form_sum_eq (isLiteral_ofExpr hliterals)
      ((summands_perm_of_form_eq ha).append (summands_perm_of_form_eq hb))
  | sub _ _ iha ihb =>
    have ha := iha (hliterals.mono (by simp +contextual [Expr.subterms]))
    have hb := ihb (hliterals.mono (by simp +contextual [Expr.subterms]))
    exact form_sum_eq (isLiteral_ofExpr hliterals)
      ((summands_perm_of_form_eq ha).append ((summands_perm_of_form_eq hb).map _))
  | mul _ _ iha ihb =>
    have ha := iha (hliterals.mono (by simp +contextual [Expr.subterms]))
    have hb := ihb (hliterals.mono (by simp +contextual [Expr.subterms]))
    exact form_product_eq (isLiteral_ofExpr hliterals)
      (congrArg₂ xor (isNegated_eq_of_form_eq ha) (isNegated_eq_of_form_eq hb))
      ((factors_perm_of_form_eq ha).append (factors_perm_of_form_eq hb))
  | div _ _ iha ihb =>
    have ha := iha (hliterals.mono (by simp +contextual [Expr.subterms]))
    have hb := ihb (hliterals.mono (by simp +contextual [Expr.subterms]))
    exact form_product_eq (isLiteral_ofExpr hliterals)
      (congrArg₂ xor (isNegated_eq_of_form_eq ha) (isNegated_eq_of_form_eq hb))
      ((factors_perm_of_form_eq ha).append ((factors_perm_of_form_eq hb).map _))
  | pow _ _ iha ihb =>
    exact congrArg₂ (CommutativeForm.power .plain)
      (iha (hliterals.mono (by simp +contextual [Expr.subterms])))
      (ihb (hliterals.mono (by simp +contextual [Expr.subterms])))
  | neg _ iha =>
    exact congrArg negate (iha (hliterals.mono (by simp +contextual [Expr.subterms])))
  | pos _ iha => exact iha (hliterals.mono (by simp +contextual [Expr.subterms]))
  | group _ iha => exact iha (hliterals.mono (by simp +contextual [Expr.subterms]))
  | sqrt _ iha =>
    exact congrArg (CommutativeForm.root .plain)
      (iha (hliterals.mono (by simp +contextual [Expr.subterms])))
  | add_comm a b => exact form_sum_eq (isLiteral_ofExpr hliterals) List.perm_append_comm
  | add_assoc a b c =>
    exact form_sum_eq (isLiteral_ofExpr hliterals) (.of_eq (List.append_assoc _ _ _))
  | mul_comm a b =>
    exact form_product_eq (isLiteral_ofExpr hliterals) (Bool.xor_comm _ _) List.perm_append_comm
  | mul_assoc a b c =>
    exact form_product_eq (isLiteral_ofExpr hliterals) (Bool.xor_assoc _ _ _)
      (.of_eq (List.append_assoc _ _ _))
  | group_self a => rfl
  | pos_self a => rfl
  | neg_neg a => exact (ofExpr a).form.negate_negate
  | sub_eq_add_neg a b =>
    exact form_sum_eq (isLiteral_ofExpr hliterals) ((ofExpr b).summands_negate.symm.append_left _)
  | sub_add a b c =>
    apply form_sum_eq (isLiteral_ofExpr hliterals)
    change (_ ++ List.map negate (_ ++ _)).Perm ((_ ++ List.map negate _) ++ List.map negate _)
    rw [List.map_append, List.append_assoc]
  | sub_sub a b c =>
    apply form_sum_eq (isLiteral_ofExpr hliterals)
    change (_ ++ List.map negate (_ ++ List.map negate _)).Perm ((_ ++ List.map negate _) ++ _)
    rw [List.map_append, map_negate_negate, List.append_assoc]
  | mul_div a b c =>
    exact form_product_eq (isLiteral_ofExpr hliterals) (Bool.xor_assoc _ _ _).symm
      (.of_eq (List.append_assoc _ _ _).symm)
  | div_mul a b c =>
    apply form_product_eq (isLiteral_ofExpr hliterals) (Bool.xor_assoc _ _ _)
    change ((_ ++ List.map invert _) ++ List.map invert _).Perm (_ ++ List.map invert (_ ++ _))
    rw [List.map_append, List.append_assoc]
  | div_div a b c =>
    apply form_product_eq (isLiteral_ofExpr hliterals)
    · change xor _ (xor _ _) = xor (xor _ _) _
      rw [Bool.xor_comm (ofExpr b).isNegated, Bool.xor_assoc]
    · change (_ ++ List.map invert (_ ++ List.map invert _)).Perm ((_ ++ _) ++ List.map invert _)
      rw [List.map_append, map_invert_invert, List.append_assoc]
      exact List.perm_append_comm.append_left _
  | neg_mul a b =>
    apply form_product_eq_negate (isLiteral_ofExpr hliterals)
    · rw [ofExpr, isNegated_negate, Bool.not_xor]
    · exact (ofExpr a).factors_negate.append_right _
  | neg_div a b =>
    apply form_product_eq_negate (isLiteral_ofExpr hliterals)
    · rw [ofExpr, isNegated_negate, Bool.not_xor]
    · exact (ofExpr a).factors_negate.append_right _
  | div_neg a b =>
    apply form_product_eq_negate (isLiteral_ofExpr hliterals)
    · rw [ofExpr, isNegated_negate, Bool.xor_not]
    · exact ((ofExpr b).factors_negate.map _).append_left _

end CommutativeShape

/--
Rearranging an expression does not change its commutative form, provided that its constants are
integers or doubles other than NaN.
-/
theorem CommutativeForm.ofExpr_eq_of_isRearrangement {e₁ e₂ : Expr}
    (h : e₁.IsRearrangement e₂) (hliterals : e₁.HasLiterals) :
    CommutativeForm.ofExpr e₁ = CommutativeForm.ofExpr e₂ :=
  CommutativeShape.form_eq_of_isRearrangement h hliterals

/-- The forms of `sqrt (x - (y - 2))` and of `sqrt (2 + (x - y))` are the same. -/
theorem CommutativeForm.ofExpr_eq_of_isRearrangement_sqrt :
    CommutativeForm.ofExpr
        (.sqrt (.sub (.var "x") (.sub (.var "y") (.constant (.integer 2))))) =
      CommutativeForm.ofExpr
        (.sqrt (.add (.constant (.integer 2)) (.sub (.var "x") (.var "y")))) := by
  apply ofExpr_eq_of_isRearrangement
  · exact .sqrt (.trans (.sub_sub (.var "x") (.var "y") (.constant (.integer 2)))
      (.add_comm (.sub (.var "x") (.var "y")) (.constant (.integer 2))))
  · intro v hv
    simp only [Expr.subterms, List.mem_cons, List.cons_append, List.nil_append, reduceCtorEq,
      Expr.constant.injEq, List.not_mem_nil, false_or, or_false] at hv
    rw [hv]
    trivial

end SchoolAlgebra
