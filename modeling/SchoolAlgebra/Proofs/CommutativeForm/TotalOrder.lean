import Mathlib
import SchoolAlgebra.Proofs.CommutativeForm.Order

/-!
# How far the order of forms is total

The order of the forms made of given constants is transitive exactly if no double among the
constants stands between two exact ones against their order, and it separates the forms exactly if
no two zero fractions among the constants differ in their sign alone. Integers and doubles, which
are the constants of texts, meet both conditions.
-/

namespace SchoolAlgebra.CommutativeForm

open Number (HasOrderedDoubles HasUniqueZeros)

/-- Whether the order is transitive on the forms made of the constants. -/
def IsTransitiveOn (S : Set Number) : Prop :=
  ∀ f g h : CommutativeForm, f.HasConstantsIn S → g.HasConstantsIn S → h.HasConstantsIn S →
    f.compare g ≠ .gt → g.compare h ≠ .gt → f.compare h ≠ .gt

/-- Whether only a form itself is equal to it in the order, among forms made of the constants. -/
def IsSeparatingOn (S : Set Number) : Prop :=
  ∀ f g : CommutativeForm, f.HasConstantsIn S → g.HasConstantsIn S → f.compare g = .eq → f = g

variable {S : Set Number}

/-- Constants without a mark are compared as numbers. -/
theorem compare_constant (v w : Number) :
    (constant .plain v).compare (constant .plain w) = v.compareConstant w := by
  rw [compare]
  exact Ordering.then_eq

theorem isTransitiveOn_iff : IsTransitiveOn S ↔ HasOrderedDoubles S := by
  constructor
  · intro h a ha b hb x hx haexact hbexact hab hbx
    have hforms := h (constant .plain a) (constant .plain b) (constant .plain (.float x))
      (.constant ha) (.constant hb) (.constant hx)
    rw [compare_constant, compare_constant, compare_constant,
      Number.compareConstant_ne_gt_iff_of_float haexact,
      Number.compareConstant_ne_gt_iff_of_float hbexact] at hforms
    exact hforms hab hbx
  · intro h f g k hf hg hk hfg hgk
    exact (isTransitive_compare h hf hg hk).ne_gt hfg hgk

theorem isSeparatingOn_iff : IsSeparatingOn S ↔ HasUniqueZeros S := by
  constructor
  · intro h f g hf hg hfzero hgzero hdenominator
    have hforms := h (constant .plain (.fraction f)) (constant .plain (.fraction g))
      (.constant hf) (.constant hg)
    rw [compare_constant, Number.compareConstant_of_isZero hfzero hgzero hdenominator] at hforms
    simpa using hforms rfl
  · intro h f g hf hg heq
    exact eq_of_compare_eq h hf hg heq

/--
Forms that change places are compared the other way around. The order of the forms made of the
constants of a set is transitive exactly if the doubles of the set stand in order among its exact
numbers, and it separates these forms exactly if no two zeros of the set differ in their sign alone.
So both hold if the constants are integers and doubles other than NaN.
-/
theorem compare_isTotalOrder_iff (S : Set Number) :
    (∀ f g : CommutativeForm, g.compare f = (f.compare g).swap) ∧
      (IsTransitiveOn S ↔ HasOrderedDoubles S) ∧ (IsSeparatingOn S ↔ HasUniqueZeros S) ∧
      ((∀ v ∈ S, v.IsLiteral) → IsTransitiveOn S ∧ IsSeparatingOn S) := by
  refine ⟨fun f g ↦ (compare_swap f g).symm, isTransitiveOn_iff, isSeparatingOn_iff, ?_⟩
  intro hliteral
  constructor
  · exact isTransitiveOn_iff.2 (Number.hasOrderedDoubles_of_isLiteral hliteral)
  · exact isSeparatingOn_iff.2 (Number.hasUniqueZeros_of_isLiteral hliteral)

/--
The fractions `0` and `-0` are equal in the order, but not the same. And `2 ^ 53 + 3` comes before
the fraction `(3 * 2 ^ 53 + 10) / 3`, which comes before the double of `2 ^ 53 + 2`, which comes
before `2 ^ 53 + 3`.
-/
theorem exists_compare_not_total :
    (∃ f g : CommutativeForm, f.compare g = .eq ∧ f.same g = false) ∧
      ∃ f g h : CommutativeForm, f.compare g = .lt ∧ g.compare h = .lt ∧ h.compare f = .lt := by
  constructor
  · exact ⟨constant .plain (.fraction ⟨false, 0, 0, 1, by decide⟩),
      constant .plain (.fraction ⟨true, 0, 0, 1, by decide⟩), by decide +kernel⟩
  · exact ⟨constant .plain (.integer 9007199254740995),
      constant .plain (.fraction ⟨false, 0, 27021597764222986, 3, by decide⟩),
      constant .plain (.float 9007199254740994), by decide +kernel⟩

end SchoolAlgebra.CommutativeForm
