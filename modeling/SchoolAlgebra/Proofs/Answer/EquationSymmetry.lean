import Mathlib
import SchoolAlgebra.Proofs.Answer.Reordering
import SchoolAlgebra.Proofs.Grammar.Precedence
import SchoolAlgebra.Proofs.Polynomial.Identity
import SchoolAlgebra.Proofs.Polynomial.Multiples

/-!
# Symmetry of the comparison of equations

Equations are compared by the polynomials of the differences of their sides, of which one is scaled
to the first coefficient of the other, or by their sides up to order. The second comparison is
symmetric. The first one is if the values of the coefficients decide alike at both scales, but a
difference that is small at one scale need not be small at the other.
-/

namespace SchoolAlgebra

open Float.Model (UnpackedFloat)

theorem Binary64.compare_swap (u v : UnpackedFloat) :
    (UnpackedFloat.compare u v).map Ordering.swap = UnpackedFloat.compare v u := by
  match u, v with
  | .notANumber, .notANumber | .notANumber, .zero _ | .notANumber, .infinity _ => rfl
  | .notANumber, .finite .. => rfl
  | .zero _, .notANumber | .infinity _, .notANumber | .finite .., .notANumber => rfl
  | .infinity s, .infinity t => cases s <;> cases t <;> rfl
  | .infinity s, .zero t => cases s <;> cases t <;> rfl
  | .zero s, .infinity t => cases s <;> cases t <;> rfl
  | .infinity s, .finite t n f hn => cases s <;> cases t <;> rfl
  | .finite s n f hn, .infinity t => cases s <;> cases t <;> rfl
  | .zero s, .zero t => rfl
  | .zero s, .finite t n f hn => cases t <;> rfl
  | .finite s n f hn, .zero t => cases s <;> rfl
  | .finite s m e hm, .finite t n f hn =>
    cases s <;> cases t <;>
      simp [UnpackedFloat.compare, Ordering.swap_then, Int.compare_swap, Nat.compare_swap]

theorem Binary64.beq_comm (x y : Float) : (x == y) = (y == x) := by
  have hswap := compare_swap (unpacked x) (unpacked y)
  change (UnpackedFloat.compare (unpacked x) (unpacked y) == some .eq) =
    (UnpackedFloat.compare (unpacked y) (unpacked x) == some .eq)
  rw [← hswap]
  rcases UnpackedFloat.compare (unpacked x) (unpacked y) with _ | _ | _ | _ <;> rfl

theorem Number.same_comm (v w : Number) : v.same w = w.same v := by
  cases v <;> cases w <;> simp only [Number.same]
  · exact BEq.comm
  · exact decide_eq_decide.2 eq_comm
  · exact Binary64.beq_comm _ _

namespace CommutativeForm

theorem sameAll_comm {xs : List CommutativeForm} (h : ∀ x ∈ xs, ∀ y, x.same y = y.same x)
    (ys : List CommutativeForm) : sameAll xs ys = sameAll ys xs := by
  induction xs generalizing ys with
  | nil => cases ys <;> rfl
  | cons x xs ih =>
    rw [List.forall_mem_cons] at h
    cases ys with
    | nil => rfl
    | cons y ys => rw [sameAll, sameAll, h.1 y, ih h.2 ys]

theorem same_comm (f g : CommutativeForm) : f.same g = g.same f := by
  induction hasConstantsIn_univ f generalizing g with
  | constant =>
    cases g with
    | constant n w => rw [same, same, BEq.comm, Number.same_comm]
    | _ => rfl
  | var =>
    cases g with
    | var n name => rw [same, same, BEq.comm, BEq.comm (b := name)]
    | _ => rfl
  | sum _ ih =>
    cases g with
    | sum n ys => rw [same, same, BEq.comm, sameAll_comm ih]
    | _ => rfl
  | product _ ih =>
    cases g with
    | product n ys => rw [same, same, BEq.comm, sameAll_comm ih]
    | _ => rfl
  | power _ _ iha ihb =>
    cases g with
    | power n c d => rw [same, same, BEq.comm, iha, ihb]
    | _ => rfl
  | root _ iha =>
    cases g with
    | root n b => rw [same, same, BEq.comm, iha]
    | _ => rfl

end CommutativeForm

theorem Expr.isReordered_comm (e e' : Expr) : e.isReordered e' = e'.isReordered e :=
  CommutativeForm.same_comm _ _

namespace Equation

variable {names : List String} {text : String} {e e' : Equation} {p q : Polynomial}

theorem isReordered_comm (e e' : Equation) : e.isReordered e' = e'.isReordered e := by
  unfold isReordered
  rw [e.lhs.isReordered_comm e'.lhs, e.rhs.isReordered_comm e'.rhs, e.lhs.isReordered_comm e'.rhs,
    e.rhs.isReordered_comm e'.lhs, Bool.and_comm (x := e'.rhs.isReordered e.lhs)]

/-- Only the comparison of the polynomials tells which equation is the answer. -/
theorem isEquivalent_comm_iff : e.isEquivalent e' = e'.isEquivalent e ↔
    ∀ p q, e.toPolynomial? = some p → e'.toPolynomial? = some q →
      p.isMultiple q = q.isMultiple p := by
  unfold isEquivalent
  cases hp : e.toPolynomial? with
  | none => cases hq : e'.toPolynomial? <;> simp [isReordered_comm e e']
  | some p => cases hq : e'.toPolynomial? <;> simp [isReordered_comm e e']

/-- The constants that a text writes are in lowest terms, because none is a fraction. -/
theorem isLowest_of_ofText {strictness : Strictness} (h : ofText names strictness text = .ok e)
    (v : Number) (hv : Expr.constant v ∈ (Expr.sub e.lhs e.rhs).subterms) : v.IsLowest := by
  obtain ⟨before, after, hlhs, hrhs⟩ := exists_of_ofText h
  cases v with
  | integer | float => trivial
  | fraction f =>
    have hleft := (Expr.derives_of_ofTokens hlhs).constant_fraction_notMem f
    have hright := (Expr.derives_of_ofTokens hrhs).constant_fraction_notMem f
    simp [Expr.subterms, hleft, hright] at hv

/-- Whether all numbers are exact that the difference of the sides is reduced through. -/
abbrev ReducesExactly (e : Equation) : Prop := (Expr.sub e.lhs e.rhs).ReducesExactly

/--
Whether the comparison of the polynomials of two equations, if they have some, computes exact
numbers only, and the values of the coefficients decide it.
-/
def IsDecided (e e' : Equation) : Prop :=
  ∀ p q, e.toPolynomial? = some p → e'.toPolynomial? = some q →
    e.ReducesExactly ∧ e'.ReducesExactly ∧ (∀ c ∈ p.multipleCoefficients q, c.isExact = true) ∧
      (p.Meets q ∨ p.Misses q)

/-- The comparison of polynomials is exact if the reductions and the scaling are. -/
theorem isComparedExactly
    (hlowest : ∀ v, Expr.constant v ∈ (Expr.sub e.lhs e.rhs).subterms → v.IsLowest)
    (hlowest' : ∀ v, Expr.constant v ∈ (Expr.sub e'.lhs e'.rhs).subterms → v.IsLowest)
    (hp : e.toPolynomial? = some p) (hq : e'.toPolynomial? = some q) (hexact : e.ReducesExactly)
    (hexact' : e'.ReducesExactly) (hscaled : ∀ c ∈ p.multipleCoefficients q, c.isExact = true) :
    p.IsComparedExactly q where
  isAscending := (Polynomial.isOrderly_isCanonical (e := .sub e'.lhs e'.rhs) hq).isAscending
  left := Polynomial.hasCoefficients_of_ofExpr? Number.isClosed_isLowest hlowest hp hexact
  right := Polynomial.hasCoefficients_of_ofExpr? Number.isClosed_isLowest hlowest' hq hexact'
  isExact := hscaled

theorem IsDecided.isMultiple_iff (h : e.IsDecided e')
    (hlowest : ∀ v, Expr.constant v ∈ (Expr.sub e.lhs e.rhs).subterms → v.IsLowest)
    (hlowest' : ∀ v, Expr.constant v ∈ (Expr.sub e'.lhs e'.rhs).subterms → v.IsLowest)
    (hp : e.toPolynomial? = some p) (hq : e'.toPolynomial? = some q) :
    p.isMultiple q = true ↔ p.Meets q := by
  obtain ⟨hexact, hexact', hscaled, hdecided⟩ := h p q hp hq
  exact (isComparedExactly hlowest hlowest' hp hq hexact hexact' hscaled).isMultiple_iff hdecided

end Equation

namespace Answer

variable {names : List String} {answer expected : String} {e e' : Equation}

theorem equationIsEquivalent_eq_ok (h : Equation.ofText names .lenient answer = .ok e)
    (h' : Equation.ofText names .lenient expected = .ok e') :
    equationIsEquivalent names answer expected = .ok (e.isEquivalent e') := by
  rw [equationIsEquivalent, h, h']
  rfl

/--
Two equations are compared alike in both directions exactly if, where both have polynomials, both
or neither count as a multiple of the other. Where exact numbers are compared and their values
decide it, this says that the values make both or neither a multiple of the other.
-/
theorem equationIsEquivalent_comm_iff (h : Equation.ofText names .lenient answer = .ok e)
    (h' : Equation.ofText names .lenient expected = .ok e') :
    (equationIsEquivalent names answer expected = equationIsEquivalent names expected answer ↔
      ∀ p q, e.toPolynomial? = some p → e'.toPolynomial? = some q →
        p.isMultiple q = q.isMultiple p) ∧
      (e.IsDecided e' → e'.IsDecided e →
        (equationIsEquivalent names answer expected = equationIsEquivalent names expected answer ↔
          ∀ p q, e.toPolynomial? = some p → e'.toPolynomial? = some q →
            (p.Meets q ↔ q.Meets p))) := by
  have hcomm : equationIsEquivalent names answer expected =
      equationIsEquivalent names expected answer ↔
        ∀ p q, e.toPolynomial? = some p → e'.toPolynomial? = some q →
          p.isMultiple q = q.isMultiple p := by
    rw [equationIsEquivalent_eq_ok h h', equationIsEquivalent_eq_ok h' h, Except.ok.injEq]
    exact Equation.isEquivalent_comm_iff
  refine ⟨hcomm, fun hdecided hdecided' ↦ hcomm.trans ?_⟩
  refine forall₄_congr fun p q hp hq ↦ ?_
  rw [Bool.eq_iff_iff, hdecided.isMultiple_iff (Equation.isLowest_of_ofText h)
    (Equation.isLowest_of_ofText h') hp hq, hdecided'.isMultiple_iff
    (Equation.isLowest_of_ofText h') (Equation.isLowest_of_ofText h) hq hp]

/-- The equations `x/2 = y/3` and `3x = 2y` are multiples of one another. -/
theorem equationIsEquivalent_comm_iff_sixth : ∃ e e',
    Equation.ofText ["x", "y"] .lenient "x/2 = y/3" = .ok e ∧
      Equation.ofText ["x", "y"] .lenient "3x = 2y" = .ok e' ∧
      e.IsDecided e' ∧ e'.IsDecided e ∧
      equationIsEquivalent ["x", "y"] "x/2 = y/3" "3x = 2y" =
        equationIsEquivalent ["x", "y"] "3x = 2y" "x/2 = y/3" := by
  let e : Equation := ⟨.div (.var "x") (.constant (.integer 2)),
    .div (.var "y") (.constant (.integer 3))⟩
  let e' : Equation := ⟨.mul (.constant (.integer 3)) (.var "x"),
    .mul (.constant (.integer 2)) (.var "y")⟩
  let p : Polynomial := ⟨[⟨.fraction ⟨false, 0, 1, 2, by decide⟩, .ofName "x"⟩,
    ⟨.fraction ⟨true, 0, 1, 3, by decide⟩, .ofName "y"⟩]⟩
  let q : Polynomial := ⟨[⟨.integer 3, .ofName "x"⟩, ⟨.integer (-2), .ofName "y"⟩]⟩
  have hp : e.toPolynomial? = some p := by decide +kernel
  have hq : e'.toPolynomial? = some q := by decide +kernel
  have hdecided : e.IsDecided e' := by
    intro p' q' hp' hq'
    cases hp.symm.trans hp'
    cases hq.symm.trans hq'
    exact ⟨by decide +kernel, by decide +kernel, by decide +kernel, by decide +kernel⟩
  have hdecided' : e'.IsDecided e := by
    intro q' p' hq' hp'
    cases hp.symm.trans hp'
    cases hq.symm.trans hq'
    exact ⟨by decide +kernel, by decide +kernel, by decide +kernel, by decide +kernel⟩
  have h : Equation.ofText ["x", "y"] .lenient "x/2 = y/3" = .ok e := by decide +kernel
  have h' : Equation.ofText ["x", "y"] .lenient "3x = 2y" = .ok e' := by decide +kernel
  refine ⟨e, e', h, h', hdecided, hdecided',
    ((equationIsEquivalent_comm_iff h h').2 hdecided hdecided').2 fun p' q' hp' hq' ↦ ?_⟩
  cases hp.symm.trans hp'
  cases hq.symm.trans hq'
  decide +kernel

/--
The equation `x = 1/1001` is taken for `1000x = 1`, since at the scale of the answer the constant
terms differ by a millionth, but `1000x = 1` is not taken for `x = 1/1001`.
-/
theorem equationIsEquivalent_ne_swap :
    equationIsEquivalent ["x"] "x = 1/1001" "1000x = 1" = .ok true ∧
      equationIsEquivalent ["x"] "1000x = 1" "x = 1/1001" = .ok false := by
  decide +kernel

end Answer

end SchoolAlgebra
