import Mathlib
import SchoolAlgebra.Proofs.Number.RoundingError

/-!
# Distances of exact numbers

The doubles of two exact numbers differ by the distance of their values and an error that is small
against the values. So the comparison up to the tolerance follows the values, unless their distance
is close to the tolerance.
-/

namespace SchoolAlgebra

open Binary64 (IsRanged IsRoundedFrom unpacked)

/-- The error of a quotient of two rounded numbers. -/
theorem Binary64.abs_div_sub_div_le {n d n' d' : ℚ} (hn : 0 ≤ n) (hd : 0 < d)
    (hn' : |n' - n| ≤ n / 2 ^ 51) (hd' : |d' - d| ≤ d / 2 ^ 51) :
    0 < d' ∧ |n' / d' - n / d| ≤ 3 * (n / d) / 2 ^ 51 := by
  rw [abs_le] at hn' hd'
  have hpos : 0 < d' := by linarith
  have hquotient : 0 ≤ n / d := by positivity
  have hproduct : n / d * d = n := div_mul_cancel₀ n hd.ne'
  have hlow : n / d * (d - d / 2 ^ 51) ≤ n / d * d' :=
    mul_le_mul_of_nonneg_left (by linarith) hquotient
  have hhigh : n / d * d' ≤ n / d * (d + d / 2 ^ 51) :=
    mul_le_mul_of_nonneg_left (by linarith) hquotient
  rw [mul_sub, ← mul_div_assoc, hproduct] at hlow
  rw [mul_add, ← mul_div_assoc, hproduct] at hhigh
  have hupper : n' / d' ≤ n / d + 3 * (n / d) / 2 ^ 51 := by
    rw [div_le_iff₀ hpos]
    linarith
  have hlower : n / d - 3 * (n / d) / 2 ^ 51 ≤ n' / d' := by
    rw [le_div_iff₀ hpos]
    linarith
  refine ⟨hpos, ?_⟩
  rw [abs_le]
  constructor <;> linarith

namespace Binary64

theorem abs_toRat_ofInt_sub_le {n : ℕ} (hn : n ≤ 2 ^ 64) :
    |toRat (ofInt n) - n| ≤ n / 2 ^ 51 := by
  have herror := (isRoundedFrom_unpacked_ofInt (z := n) (by simpa using hn)).error
  rwa [Int.cast_natCast, Nat.abs_cast] at herror

/-- The double of a mixed number is made by four roundings and three operations. -/
theorem isRanged_mixed {w n d : ℕ} (hw : w ≤ 2 ^ 64) (hn : n ≤ 2 ^ 64) (hd : d ≤ 2 ^ 64)
    (hpos : 0 < d) : IsRanged (-169) 120 (unpacked (ofInt w + ofInt n / ofInt d)) ∧
      |toRat (ofInt w + ofInt n / ofInt d) - (w + n / d)| ≤ 7 * (w + n / d) / 2 ^ 51 := by
  have hwhole := (isRoundedFrom_unpacked_ofInt (z := w) (by simpa using hw)).isRanged
  have hnumerator := (isRoundedFrom_unpacked_ofInt (z := n) (by simpa using hn)).isRanged
  have hdenominator := (isRoundedFrom_unpacked_ofInt (z := d) (by simpa using hd)).isRanged
  obtain ⟨hne, hquotient⟩ := abs_div_sub_div_le (Nat.cast_nonneg n) (Nat.cast_pos.2 hpos)
    (abs_toRat_ofInt_sub_le hn) (abs_toRat_ofInt_sub_le hd)
  have hproper := isRoundedFrom_unpacked_div (by decide) (by decide) hnumerator hdenominator
    hne.ne'
  have hsum := isRoundedFrom_unpacked_add (by decide) (by decide) (by decide)
    (hwhole.mono (by decide : -52 - 65 ≤ (-52 : ℤ)) (by decide : (65 : ℤ) ≤ 65 - -52 + 1))
    hproper.isRanged
  have hwerror := abs_toRat_ofInt_sub_le hw
  have hperror : |toRat (ofInt n / ofInt d) - toRat (ofInt n) / toRat (ofInt d)| ≤ _ :=
    hproper.error
  have hserror : |toRat (ofInt w + ofInt n / ofInt d) - _| ≤ _ := hsum.error
  have hwpos : (0 : ℚ) ≤ w := Nat.cast_nonneg w
  have hqpos : (0 : ℚ) ≤ n / d := by positivity
  refine ⟨hsum.isRanged.mono (by decide) (by decide), ?_⟩
  generalize toRat (ofInt w + ofInt n / ofInt d) = sum at *
  generalize toRat (ofInt n / ofInt d) = proper at *
  generalize toRat (ofInt n) / toRat (ofInt d) = quotient at *
  generalize toRat (ofInt w) = whole at *
  generalize (n / d : ℚ) = q at *
  generalize (w : ℚ) = p at *
  rw [abs_le] at hquotient hwerror
  have hquotientpos : 0 ≤ quotient := by linarith
  rw [abs_of_nonneg hquotientpos, abs_le] at hperror
  have hsumpos : 0 ≤ whole + proper := by linarith
  rw [abs_of_nonneg hsumpos, abs_le] at hserror
  rw [abs_le]
  constructor <;> linarith

end Binary64

namespace Fraction

theorem abs_toRat_eq (f : Fraction) :
    |f.toRat| = f.whole.toNat + f.numerator.toNat / f.denominator.toNat := by
  have hpos : (f.denominator.toNat : ℚ) ≠ 0 := by exact_mod_cast f.denominator_toNat_ne_zero
  rw [abs_toRat, improperNumerator]
  push_cast
  field_simp

/-- The double of a fraction is off its value by little. -/
theorem toRat_toFloat (f : Fraction) : IsRanged (-169) 120 (unpacked f.toFloat) ∧
    |Binary64.toRat f.toFloat - f.toRat| ≤ 7 * |f.toRat| / 2 ^ 51 := by
  obtain ⟨hranged, herror⟩ := Binary64.isRanged_mixed f.whole.toNat_lt.le f.numerator.toNat_lt.le
    f.denominator.toNat_lt.le (Nat.pos_of_ne_zero f.denominator_toNat_ne_zero)
  have habs := f.abs_toRat_eq
  rw [abs_toRat] at habs
  rw [abs_toRat, toRat_eq_signed, habs]
  unfold toFloat
  dsimp only
  cases f.negative with
  | true =>
    have hneg := Binary64.unpacked_neg (by decide) (by decide) hranged
    rw [if_pos rfl, if_pos rfl, hneg, Binary64.toRat, hneg, Binary64.value_neg, neg_one_mul,
      ← neg_sub', abs_neg]
    exact ⟨hranged.neg, herror⟩
  | false =>
    rw [if_neg Bool.false_ne_true, if_neg Bool.false_ne_true, one_mul]
    exact ⟨hranged, herror⟩

end Fraction

namespace Number

variable {a b : Number} {x y : ℚ}

theorem toRat_toFloat (ha : a.toRat? = some x) : IsRanged (-169) 120 (unpacked a.toFloat) ∧
    |Binary64.toRat a.toFloat - x| ≤ 7 * |x| / 2 ^ 51 := by
  cases a with
  | float y => simp at ha
  | integer v =>
    rw [toRat?_integer, Option.some.injEq] at ha
    have hrounded := Binary64.isRoundedFrom_unpacked_ofInt (Fraction.natAbs_toInt_lt_size v).le
    rw [ha] at hrounded
    refine ⟨hrounded.isRanged.mono (by decide) (by decide), hrounded.error.trans ?_⟩
    gcongr
    linarith [abs_nonneg x]
  | fraction f =>
    rw [toRat?_fraction, Option.some.injEq] at ha
    exact ha ▸ f.toRat_toFloat

/-- Whether two values differ by clearly less than the tolerance. -/
def AreClose (x y : ℚ) : Prop := |x - y| + (|x| + |y|) / 2 ^ 47 ≤ 1 / 10 ^ 5

/-- Whether two values differ by clearly more than the tolerance. -/
def AreApart (x y : ℚ) : Prop := 1 / 10 ^ 5 + (|x| + |y|) / 2 ^ 47 ≤ |x - y|

instance (x y : ℚ) : Decidable (AreClose x y) := inferInstanceAs (Decidable (_ ≤ _))

instance (x y : ℚ) : Decidable (AreApart x y) := inferInstanceAs (Decidable (_ ≤ _))

theorem isNear_iff (ha : a.toRat? = some x) (hb : b.toRat? = some y) :
    ∃ distance, |distance - (|x - y|)| ≤ 9 * (|x| + |y|) / 2 ^ 51 ∧
      (a.isNear b = true ↔ distance < Binary64.toRat tolerance) := by
  obtain ⟨haranged, haerror⟩ := toRat_toFloat ha
  obtain ⟨hbranged, hberror⟩ := toRat_toFloat hb
  have hdifference := Binary64.isRoundedFrom_unpacked_sub (by decide) (by decide) (by decide)
    haranged hbranged
  refine ⟨|Binary64.toRat (a.toFloat - b.toFloat)|, ?_, ?_⟩
  · have herror : |Binary64.toRat (a.toFloat - b.toFloat) - _| ≤ _ := hdifference.error
    generalize Binary64.toRat (a.toFloat - b.toFloat) = difference at *
    generalize Binary64.toRat a.toFloat = v at *
    generalize Binary64.toRat b.toFloat = w at *
    have hvalues : |(v - w) - (x - y)| ≤ 7 * (|x| + |y|) / 2 ^ 51 := by
      have htriangle := abs_sub (v - x) (w - y)
      have hsame : (v - w) - (x - y) = (v - x) - (w - y) := by ring
      rw [hsame]
      linarith
    have hsize := abs_sub_abs_le_abs_sub (v - w) (x - y)
    have hdistance := abs_sub x y
    have htriangle := abs_sub_le difference (v - w) (x - y)
    have hpos : 0 ≤ |x| + |y| := by positivity
    refine (abs_abs_sub_abs_le difference (x - y)).trans ?_
    linarith
  · rw [isNear, isWithin, decide_eq_true_iff]
    exact Binary64.abs_lt_tolerance_iff (by decide) (by decide) hdifference.isRanged

theorem isNear_of_areClose (ha : a.toRat? = some x) (hb : b.toRat? = some y)
    (h : AreClose x y) : a.isNear b = true := by
  obtain ⟨distance, herror, hnear⟩ := isNear_iff ha hb
  obtain ⟨hlow, _⟩ := Binary64.toRat_tolerance_bounds
  rw [hnear]
  unfold AreClose at h
  rw [abs_le] at herror
  have hsum : 0 ≤ |x| + |y| := by positivity
  linarith

theorem isNear_eq_false_of_areApart (ha : a.toRat? = some x) (hb : b.toRat? = some y)
    (h : AreApart x y) : a.isNear b = false := by
  obtain ⟨distance, herror, hnear⟩ := isNear_iff ha hb
  obtain ⟨_, hhigh⟩ := Binary64.toRat_tolerance_bounds
  have hsum := abs_sub x y
  rw [← Bool.not_eq_true, hnear, not_lt]
  unfold AreApart at h
  rw [abs_le] at herror
  linarith

end Number

end SchoolAlgebra
