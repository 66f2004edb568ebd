import Mathlib
import SchoolAlgebra.Proofs.Grammar.Leaves

/-!
# Values of strictly read expressions

A strict reading evaluates every divisor without variables and refuses one that is zero. A part
without variables then never divides by zero: the first division whose divisor is an exact zero
would have a divisor that evaluates, and be refused. Evaluation may still meet a power or a root
that is undefined over the reals.
-/

namespace SchoolAlgebra.Expr

variable {a b e : Expr}

theorem subterms_subset (h : a ∈ e.subterms) : a.subterms ⊆ e.subterms := by
  induction e with
  | constant | var =>
    rw [subterms, List.mem_singleton] at h
    rw [h]
    exact List.Subset.refl _
  | add _ _ ihl ihr | sub _ _ ihl ihr | mul _ _ ihl ihr | div _ _ ihl ihr | pow _ _ ihl ihr =>
    rw [subterms, List.mem_cons, List.mem_append] at h
    rcases h with rfl | hleft | hright
    · exact List.Subset.refl _
    · exact List.subset_cons_of_subset _ (List.subset_append_of_subset_left _ (ihl hleft))
    · exact List.subset_cons_of_subset _ (List.subset_append_of_subset_right _ (ihr hright))
  | neg _ ih | pos _ ih | group _ ih | sqrt _ ih =>
    rw [subterms, List.mem_cons] at h
    rcases h with rfl | hinner
    · exact List.Subset.refl _
    · exact List.subset_cons_of_subset _ (ih hinner)

/-- Whether the expression has no variables and none of its divisors evaluates to zero. -/
structure DividesSafely (e : Expr) : Prop where
  isNumeric : e.isNumeric = true
  divisors : ∀ part ∈ e.subterms, OptionalRule.termDividedByZero.isBrokenAt part = false

theorem DividesSafely.of_part (h : e.DividesSafely) (ha : a ∈ e.subterms) : a.DividesSafely where
  isNumeric := List.all_eq_true.2 fun part hpart ↦
    List.all_eq_true.1 h.isNumeric part (subterms_subset ha hpart)
  divisors part hpart := h.divisors part (subterms_subset ha hpart)

/-- A divisor that evaluates is no exact zero. -/
theorem DividesSafely.div?_ne_none (h : (div a b).DividesSafely) {v w : Number}
    (hw : b.evalNumeric = .ok w) : v.div? w ≠ none := by
  intro hnone
  have hzero := Number.div?_eq_none_iff.1 hnone
  have hnumeric : b.isNumeric = true :=
    (h.of_part (by simp [subterms, mem_subterms_self])).isNumeric
  have hbroken : OptionalRule.termDividedByZero.isBrokenAt (div a b) = true := by
    change b.hasValue Number.isZero = true
    rw [hasValue, hnumeric, hw]
    exact (Number.isZero_iff (Number.isExact_iff.2 ⟨0, hzero⟩)).2 hzero
  rw [h.divisors _ (mem_subterms_self _)] at hbroken
  exact absurd hbroken Bool.false_ne_true

/-- Without variables and zero divisors, evaluation fails only where it is undefined. -/
theorem DividesSafely.eq_undefined {error : EvalError} (h : e.DividesSafely)
    (herror : e.evalNumeric = .error error) : error = .undefined := by
  induction e with
  | constant v => exact absurd herror pure_ne_error
  | var name => exact absurd (mem_subterms_self _) (isNumeric_iff.1 h.isNumeric name)
  | add a b iha ihb | sub a b iha ihb | mul a b iha ihb =>
    have ha : a.DividesSafely := h.of_part (by simp [subterms, mem_subterms_self])
    have hb : b.DividesSafely := h.of_part (by simp [subterms, mem_subterms_self])
    simp only [evalNumeric, eval, bind_eq_error_iff, pure_ne_error, and_false, exists_false,
      or_false] at herror
    rcases herror with hleft | ⟨_, _, hright⟩
    · exact iha ha hleft
    · exact ihb hb hright
  | div a b iha ihb =>
    have ha : a.DividesSafely := h.of_part (by simp [subterms, mem_subterms_self])
    have hb : b.DividesSafely := h.of_part (by simp [subterms, mem_subterms_self])
    simp only [evalNumeric, eval, bind_eq_error_iff, orError_eq_error_iff] at herror
    rcases herror with hleft | ⟨v, _, hright | ⟨w, hw, hnone, _⟩⟩
    · exact iha ha hleft
    · exact ihb hb hright
    · exact absurd hnone (h.div?_ne_none hw)
  | pow a b iha ihb =>
    have ha : a.DividesSafely := h.of_part (by simp [subterms, mem_subterms_self])
    have hb : b.DividesSafely := h.of_part (by simp [subterms, mem_subterms_self])
    simp only [evalNumeric, eval, bind_eq_error_iff, orError_eq_error_iff] at herror
    rcases herror with hleft | ⟨_, _, hright | ⟨_, _, _, hundefined⟩⟩
    · exact iha ha hleft
    · exact ihb hb hright
    · exact hundefined.symm
  | neg a ih =>
    have ha : a.DividesSafely := h.of_part (by simp [subterms, mem_subterms_self])
    simp only [evalNumeric, eval, bind_eq_error_iff, pure_ne_error, and_false, exists_false,
      or_false] at herror
    exact ih ha herror
  | pos a ih | group a ih =>
    have ha : a.DividesSafely := h.of_part (by simp [subterms, mem_subterms_self])
    exact ih ha herror
  | sqrt a ih =>
    have ha : a.DividesSafely := h.of_part (by simp [subterms, mem_subterms_self])
    simp only [evalNumeric, eval, bind_eq_error_iff, orError_eq_error_iff] at herror
    rcases herror with hinner | ⟨_, _, _, hundefined⟩
    · exact ih ha hinner
    · exact hundefined.symm

/-- What passes the rules of style breaks none of them. -/
theorem isBroken_of_checkStyle (h : checkStyle .strict a = .ok e) (rule : OptionalRule) :
    rule.isBroken e = false := by
  obtain rfl := eq_of_checkStyle h
  rw [checkStyle] at h
  cases hrule : a.brokenRule? with
  | none => simpa using List.find?_eq_none.1 hrule rule (OptionalRule.mem_all rule)
  | some rule =>
    rw [hrule] at h
    cases h

/-- Whether the expression evaluates without variables, or is undefined over the reals. -/
def EvaluatesOrIsUndefined (e : Expr) : Prop :=
  (∃ v, e.evalNumeric = .ok v) ∨ e.evalNumeric = .error .undefined

theorem DividesSafely.evaluatesOrIsUndefined (h : e.DividesSafely) : e.EvaluatesOrIsUndefined := by
  cases heval : e.evalNumeric with
  | ok v => exact .inl ⟨v, heval⟩
  | error error => exact .inr (by rw [heval, h.eq_undefined heval])

/--
What is read strictly never divides by zero. Every part without variables of an expression that is
read strictly evaluates to a number or is undefined over the reals, so it meets neither a division
by zero nor a variable without value. A text without variables is such a part as a whole.
-/
theorem evaluatesOrIsUndefined_of_ofText {language : Language} {limit : Nat} {text : String}
    (h : ofText language .strict limit text = .ok e) :
    (∀ part ∈ e.subterms, part.isNumeric = true → part.EvaluatesOrIsUndefined) ∧
      (language = .numeric → e.EvaluatesOrIsUndefined) := by
  obtain ⟨_, _, hstyle⟩ := bind_eq_ok_iff.1 h
  have hrule := isBroken_of_checkStyle hstyle .termDividedByZero
  have hdivisors : ∀ part ∈ e.subterms, OptionalRule.termDividedByZero.isBrokenAt part = false :=
    fun part hpart ↦ by simpa using List.any_eq_false.1 hrule part hpart
  have hparts : ∀ part ∈ e.subterms, part.isNumeric = true → part.EvaluatesOrIsUndefined :=
    fun part hpart hnumeric ↦ DividesSafely.evaluatesOrIsUndefined
      ⟨hnumeric, fun inner hinner ↦ hdivisors inner (subterms_subset hpart hinner)⟩
  refine ⟨hparts, ?_⟩
  rintro rfl
  exact hparts e (mem_subterms_self e) (isNumeric_of_ofText h)

/-- The divisor of `1/(√(1 - 2) + 1)` is undefined, so a strict reading accepts it. -/
theorem evaluatesOrIsUndefined_of_ofText_root :
    ofText .numeric .strict 100 "1/(√(1 - 2) + 1)" = .ok
        (.div (.constant (.integer 1)) (.group (.add
          (.sqrt (.group (.sub (.constant (.integer 1)) (.constant (.integer 2)))))
          (.constant (.integer 1))))) ∧
      EvaluatesOrIsUndefined
        (.div (.constant (.integer 1)) (.group (.add
          (.sqrt (.group (.sub (.constant (.integer 1)) (.constant (.integer 2)))))
          (.constant (.integer 1))))) := by
  have hread : ofText .numeric .strict 100 "1/(√(1 - 2) + 1)" = .ok
      (.div (.constant (.integer 1)) (.group (.add
        (.sqrt (.group (.sub (.constant (.integer 1)) (.constant (.integer 2)))))
        (.constant (.integer 1))))) := by
    decide +kernel
  exact ⟨hread, (evaluatesOrIsUndefined_of_ofText hread).2 rfl⟩

end SchoolAlgebra.Expr
