import Mathlib
import SchoolAlgebra.Proofs.Number.LowestTerms
import SchoolAlgebra.Proofs.Number.Magnitude

/-!
# Doubles of exact numbers

The double of an exact number is finite. In lowest terms it depends on the value alone, whether the
number is an integer or a fraction, and so exact numbers of the same value count as equal.
-/

namespace SchoolAlgebra

open Binary64 (IsBelow unpacked)

namespace Fraction

theorem isBelow_part (n : UInt64) : IsBelow 65 (unpacked (Binary64.ofInt n.toNat)) :=
  Binary64.isBelow_unpacked_ofInt n.toNat_lt.le

/-- The double of a fraction is finite. -/
theorem isBelow_toFloat (f : Fraction) : IsBelow 120 (unpacked f.toFloat) := by
  have hdenominator := Binary64.endsAbove_unpacked_ofInt (z := f.denominator.toNat)
    (by exact_mod_cast f.denominator_toNat_ne_zero) f.denominator.toNat_lt.le
  have hproper := Binary64.isBelow_unpacked_div (by decide) (by decide)
    (isBelow_part f.numerator) hdenominator
  have hsum := Binary64.isBelow_unpacked_add (k := 118) (by decide) (by decide)
    ((isBelow_part f.whole).mono (by decide)) hproper
  unfold toFloat
  dsimp only
  split
  · exact Binary64.isBelow_unpacked_neg (by decide) (by decide) hsum
  · exact hsum

/-- An integer has the same double as the fraction that it is written as. -/
theorem toFloat_ofInt64 (v : Int64) : (ofInt64 v).toFloat = Binary64.ofInt v.toInt := by
  have hsize := natAbs_toInt_lt_size v
  have hzero : Binary64.ofInt (0 : UInt64).toNat / Binary64.ofInt (1 : UInt64).toNat = 0 := by
    decide +kernel
  have hproper : Binary64.ofInt (ofInt64 v).numerator.toNat /
      Binary64.ofInt (ofInt64 v).denominator.toNat = 0 := hzero
  have hwhole : (ofInt64 v).whole.toNat = v.toInt.natAbs := UInt64.toNat_ofNat_of_lt' hsize
  have hnegative : (ofInt64 v).negative = decide (v.toInt < 0) := by
    simp only [ofInt64, Int64.lt_iff_toInt_lt, Int64.toInt_zero]
  unfold toFloat
  dsimp only
  rw [hproper, hwhole, hnegative, Binary64.ofInt_add_zero hsize.le]
  by_cases hv : v.toInt < 0
  · have habs : (v.toInt.natAbs : ℤ) = -v.toInt := by omega
    rw [if_pos (decide_eq_true hv), Binary64.neg_ofInt (by omega) hsize.le, habs, neg_neg]
  · have habs : (v.toInt.natAbs : ℤ) = v.toInt := by omega
    rw [if_neg (by simpa using hv), habs]

end Fraction

namespace Number

variable {a b : Number}

theorem isBelow_toFloat (ha : a.isExact = true) : IsBelow 120 (unpacked a.toFloat) := by
  cases a with
  | integer v =>
    exact (Binary64.isBelow_unpacked_ofInt (Fraction.natAbs_toInt_lt_size v).le).mono (by decide)
  | fraction f => exact f.isBelow_toFloat
  | float x => simp [isExact] at ha

theorem exists_toFraction? (ha : a.IsLowest) (hexact : a.isExact = true) :
    ∃ f, a.toFraction? = some f ∧ f.IsLowest ∧ f.toFloat = a.toFloat := by
  cases a with
  | integer v =>
    exact ⟨_, rfl, Fraction.isLowest_ofInt64 v, Fraction.toFloat_ofInt64 v⟩
  | fraction f => exact ⟨f, rfl, ha, rfl⟩
  | float x => simp [isExact] at hexact

/-- Exact numbers in lowest terms with the same value have the same double. -/
theorem toFloat_eq_of_toRat?_eq (ha : a.IsLowest) (hb : b.IsLowest) (haexact : a.isExact = true)
    (hbexact : b.isExact = true) (h : a.toRat? = b.toRat?) : a.toFloat = b.toFloat := by
  obtain ⟨f, hf, hflowest, hffloat⟩ := exists_toFraction? ha haexact
  obtain ⟨g, hg, hglowest, hgfloat⟩ := exists_toFraction? hb hbexact
  rw [toRat?_toFraction? hf, toRat?_toFraction? hg, Option.some.injEq] at h
  rw [← hffloat, ← hgfloat, hflowest.eq_of_toRat_eq hglowest h]

/-- Exact numbers in lowest terms with the same value count as equal. -/
theorem isNear_of_toRat?_eq (ha : a.IsLowest) (hb : b.IsLowest) (haexact : a.isExact = true)
    (hbexact : b.isExact = true) (h : a.toRat? = b.toRat?) : a.isNear b = true := by
  have hzero : (0 : Float).abs < tolerance := by decide
  rw [isNear, isWithin, ← toFloat_eq_of_toRat?_eq ha hb haexact hbexact h,
    Binary64.sub_self_of_isBelow (isBelow_toFloat haexact)]
  exact decide_eq_true hzero

end Number

end SchoolAlgebra
