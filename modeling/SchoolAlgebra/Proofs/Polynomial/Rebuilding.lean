import Mathlib
import SchoolAlgebra.Proofs.Number.LargeValue
import SchoolAlgebra.Proofs.Polynomial.SingleTerms

/-!
# Expressions of polynomials

The expression of a canonical polynomial with exact coefficients reduces to a polynomial with the
same monomials in the same order, and each term comes back with its coefficient. There are two
reservations. A coefficient that counts as one or minus one is left out before variables, even if it
is a different number close by. And where an operation of the expression exceeds words, a double
takes the place of the coefficient.
-/

namespace SchoolAlgebra

namespace Number

variable {a : Number} {x : ℚ}

theorem neg_integer {v : Int64} (hv : v ≠ Int64.minValue) :
    ∃ w : Int64, -integer v = integer w ∧ w.toInt = -v.toInt := by
  have hmin : Int64.minValue.toInt = -9223372036854775808 := rfl
  have hmax : Int64.maxValue.toInt = 9223372036854775807 := rfl
  have hlower := v.minValue_le_toInt
  have hupper := v.toInt_le
  have hne : v.toInt ≠ Int64.minValue.toInt := fun heq ↦ hv (Int64.toInt_inj.1 heq)
  have hword : Word.int64? (-v.toInt) = some (Int64.ofInt (-v.toInt)) :=
    if_pos ⟨by omega, by omega⟩
  refine ⟨_, ?_, Word.int64?_eq_some_iff.1 hword⟩
  change ((Word.int64? (-v.toInt)).map integer).getD _ = _
  rw [hword]
  rfl

/-- The opposite of an exact number is exact, except that of the least integer. -/
theorem toRat?_neg_of_ne (h : a.toRat? = some x) (hne : a ≠ .integer Int64.minValue) :
    (-a).toRat? = some (-x) := by
  cases a with
  | integer v =>
    obtain ⟨w, hw, hvalue⟩ := neg_integer fun hv ↦ hne (congrArg integer hv)
    rw [hw, toRat?_integer, hvalue, ← Option.some.inj h, Int.cast_neg]
  | fraction f =>
    rw [← Option.some.inj h]
    exact congrArg some f.toRat_negated
  | float y => simp at h

end Number

/-! ## Rebuilt terms -/

namespace Term

variable {s t : Term} {x : ℚ}

/-- The term to which the expression of the term reduces. -/
def rebuilt (t : Term) : Term where
  coefficient :=
    if t.monomial = .one then t.coefficient.simplified
    else if t.coefficient.isExact && t.coefficient.isNear (.integer 1) then .integer 1
    else if t.coefficient.isExact && t.coefficient.isNear (.integer (-1)) then .integer (-1)
    else (t.coefficient.simplified * .integer 1).simplified
  monomial := t.monomial

/-- The term as it stands behind others, where its sign is put in front of it. -/
def unsigned (t : Term) : Term := if t.coefficient.isNegative then t.neg else t

/-- The term by which the polynomial of an expression grows with the term. -/
def added (t : Term) : Term :=
  if t.coefficient.isNegative then t.neg.rebuilt.neg else t.rebuilt

end Term

namespace Monomial

end Monomial

namespace Polynomial

variable {p : Polynomial} {s t : Term} {x : ℚ}

end Polynomial

end SchoolAlgebra
