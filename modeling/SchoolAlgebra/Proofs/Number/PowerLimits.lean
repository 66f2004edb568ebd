import Mathlib
import SchoolAlgebra.Proofs.Number.Roots

/-!
# Limits of exact powers

The parts of an exponent in lowest terms are read as signed words. Where one of them exceeds these,
the power is a double, even if it is undefined over the reals. Of the other exponents, those of
integers and those of roots have limits as well. A base other than zero and plus or minus one has no
power beyond these limits that words hold, so its power is exact wherever words hold the value.
Words hold every power of zero and of plus or minus one, and beyond the limits it is a double all
the same.
-/

namespace SchoolAlgebra

theorem Fraction.improperNumerator_lt (f : Fraction) : f.improperNumerator < 2 ^ 128 := by
  have hwhole := f.whole.toNat_lt_size
  have hsize : UInt64.size = 2 ^ 64 := rfl
  calc f.improperNumerator = f.whole.toNat * f.denominator.toNat + f.numerator.toNat := rfl
    _ < f.whole.toNat * UInt64.size + UInt64.size :=
        Nat.add_lt_add_of_le_of_lt (Nat.mul_le_mul_left _ f.denominator.toNat_lt_size.le)
          f.numerator.toNat_lt_size
    _ = (f.whole.toNat + 1) * UInt64.size := (Nat.succ_mul _ _).symm
    _ ≤ UInt64.size * UInt64.size := Nat.mul_le_mul_right _ hwhole
    _ = 2 ^ 128 := by rw [hsize, ← pow_add]

namespace Number

variable {a exponent : Number} {x y r : ℚ}

/-- Whether the power is undefined over the reals. -/
def IsUndefinedPower (base exponent : ℚ) : Prop :=
  base = 0 ∧ exponent < 0 ∨ base < 0 ∧ Even exponent.den

instance (base exponent : ℚ) : Decidable (IsUndefinedPower base exponent) :=
  inferInstanceAs (Decidable (_ ∨ _))

/--
A power of exact numbers is absent exactly if it is undefined over the reals and words hold the
parts of its exponent.
-/
theorem pow?_eq_none_iff_isUndefinedPower (ha : a.toRat? = some x) (hy : exponent.toRat? = some y) :
    a.pow? exponent = none ↔ IsUndefinedPower x y ∧ HasWordParts y := by
  rw [pow?_eq ha hy, IsUndefinedPower]
  by_cases hparts : HasWordParts y
  · rw [if_pos hparts, and_iff_left hparts]
    by_cases hden : y.den = 1
    · have hodd : ¬Even y.den := by rw [hden]; exact Nat.not_even_one
      rw [if_pos hden, powWhole?_eq_none_iff, ha, Option.some.injEq, Rat.num_neg]
      simp [hodd]
    · rw [if_neg hden, powRational?_eq_none_iff, Rat.num_neg, or_comm]
  · rw [if_neg hparts]
    simp [hparts]

/-- The square root of minus four is absent. -/
theorem pow?_eq_none_iff_isUndefinedPower_minusFour :
    (integer (-4)).toRat? = some (-4) ∧ (fraction .half).toRat? = some (1 / 2) ∧
      (integer (-4)).pow? (fraction .half) = none := by
  have ha : (integer (-4)).toRat? = some (-4) := by decide +kernel
  have hy : (fraction .half).toRat? = some (1 / 2) := by decide +kernel
  exact ⟨ha, hy, (pow?_eq_none_iff_isUndefinedPower ha hy).2 (by decide +kernel)⟩

/-- The root of order `2 ^ 63` of minus one is undefined over the reals and present. -/
theorem exists_undefined_pow?_ne_none :
    ∃ a exponent : Number, a.toRat? = some (-1) ∧ exponent.toRat? = some (1 / 2 ^ 63) ∧
      IsUndefinedPower (-1) (1 / 2 ^ 63) ∧ a.pow? exponent ≠ none := by
  have ha : (integer (-1)).toRat? = some (-1) := by decide +kernel
  have hy : (fraction ⟨false, 0, 1, 2 ^ 63, by decide +kernel⟩).toRat? = some (1 / 2 ^ 63) := by
    decide +kernel
  have hparts : ¬HasWordParts (1 / 2 ^ 63) := by decide +kernel
  refine ⟨_, _, ha, hy, by decide +kernel, ?_⟩
  rw [pow?_eq ha hy, if_neg hparts]
  exact Option.some_ne_none _

theorem FitsFraction.toRat?_getD {q : ℚ} (h : FitsFraction q) (z : Float) :
    (((Fraction.ofRat? q).map fraction).getD (float z)).toRat? = some q := by
  rw [(isResult_fraction q z).toRat?_eq_iff, if_pos h]
  decide

theorem toRat?_getD_int64?_iff {z : ℤ} (w : Float) :
    (((Word.int64? z).map integer).getD (float w)).toRat? = some (z : ℚ) ↔ Word.IsInt64 z := by
  rw [(isResult_integer z w).toRat?_eq_iff, ← fitsInteger_intCast]
  simp

theorem toRat?_ofRat {preferInteger : Bool} {q : ℚ} (h : FitsFraction q) :
    (ofRat preferInteger q).toRat? = some q := by
  unfold ofRat ofRat?
  split
  · rename_i v hv
    obtain ⟨hwhole, hvalue⟩ := Option.ite_none_right_eq_some.1 hv
    rw [Bool.and_eq_true, beq_iff_eq] at hwhole
    rw [Option.getD_some, toRat?_integer, Word.int64?_eq_some_iff.1 hvalue,
      Rat.coe_int_num_of_den_eq_one hwhole.2]
  · exact h.toRat?_getD _

/-- The words that the parts of an exact number are made of bound its value. -/
theorem abs_lt_of_toRat? (ha : a.toRat? = some x) : |x| < 2 ^ 128 ∧ x.den < 2 ^ 128 := by
  obtain ⟨f, hf⟩ : ∃ f : Fraction, f.toRat = x := by
    cases a with
    | integer v => exact ⟨.ofInt64 v, by simpa using ha⟩
    | fraction f => exact ⟨f, Option.some.inj ha⟩
    | float z => simp at ha
  have hden : (1 : ℚ) ≤ f.denominator.toNat := by
    exact_mod_cast Nat.pos_of_ne_zero f.denominator_toNat_ne_zero
  have hsize : UInt64.size < 2 ^ 128 := by decide
  rw [← hf]
  constructor
  · calc |f.toRat| = (f.improperNumerator : ℚ) / f.denominator.toNat := f.abs_toRat
      _ ≤ f.improperNumerator := div_le_self (by positivity) hden
      _ < 2 ^ 128 := by exact_mod_cast f.improperNumerator_lt
  · exact f.den_toRat_lt.trans hsize

/-! ## Powers within the limits -/

/--
Whether the exponent is one at which the power of a base of the given kind is formed exactly: its
parts are words, a whole power of an integer is no greater than the greatest order of a root, and
so is the order of a root, of which a power up to the sixty-fourth is taken.
-/
def IsWithinLimits (base : Kind) (exponent : ℚ) : Prop :=
  HasWordParts exponent ∧
    if exponent.den = 1 then base = .integer → 0 ≤ exponent.num → exponent.num ≤ maxOrder
    else exponent.den ≤ maxOrder ∧ exponent.num.natAbs ≤ 64

instance (base : Kind) (exponent : ℚ) : Decidable (IsWithinLimits base exponent) :=
  inferInstanceAs (Decidable (_ ∧ _))

/--
Whether words hold the value of a power: a signed word for a power of an integer with a whole
exponent that is not negative, and else the parts of a mixed number.
-/
def FitsPower (base : Kind) (exponent value : ℚ) : Prop :=
  if base = .integer ∧ exponent.den = 1 ∧ 0 ≤ exponent.num then FitsInteger value
  else FitsFraction value

instance (base : Kind) (exponent value : ℚ) : Decidable (FitsPower base exponent value) :=
  inferInstanceAs (Decidable (ite _ _ _))

theorem FitsPower.fitsFraction {k : Kind} (h : FitsPower k y r) : FitsFraction r := by
  unfold FitsPower at h
  split at h
  · exact h.fitsFraction
  · exact h

theorem toRat?_powFraction {f : Fraction} {n : ℤ} (hdefined : f.toRat = 0 → 0 ≤ n)
    (hfits : FitsFraction (f.toRat ^ n)) : (powFraction f n).toRat? = some (f.toRat ^ n) := by
  have hpresent : ¬(f.toRat = 0 ∧ n < 0) := fun h ↦ (hdefined h.1).not_gt h.2
  rw [powFraction, Fraction.pow?_eq_ofRat?, if_neg hpresent]
  exact hfits.toRat?_getD _

/-- A whole power that words hold is exact, except for an integer beyond the limit. -/
theorem exists_toRat?_powWhole?_iff {n : ℤ} (ha : a.toRat? = some x) (hdefined : x = 0 → 0 ≤ n)
    (hfits : if a.kind = .integer ∧ 0 ≤ n then FitsInteger (x ^ n) else FitsFraction (x ^ n)) :
    (∃ c, a.powWhole? n = some c ∧ c.toRat? = some (x ^ n)) ↔
      (a.kind = .integer → 0 ≤ n → n ≤ maxOrder) := by
  cases a with
  | float z => simp at ha
  | integer v =>
    rw [toRat?_integer, Option.some.injEq] at ha
    subst ha
    rw [powWhole?]
    by_cases hn : 0 ≤ n
    · obtain ⟨n, rfl⟩ := Int.eq_ofNat_of_zero_le hn
      have hvalue : ((v.toInt ^ n : ℤ) : ℚ) = (v.toInt : ℚ) ^ (n : ℤ) := by
        rw [zpow_natCast, Int.cast_pow]
      rw [if_pos ⟨rfl, hn⟩, ← hvalue, fitsInteger_intCast] at hfits
      simp only [if_pos hn, Int.toNat_natCast, Option.some.injEq, exists_eq_left', ← hvalue]
      by_cases hlimit : n ≤ maxOrder
      · rw [if_pos hlimit, Word.pow?_eq_int64?, toRat?_getD_int64?_iff]
        exact iff_of_true hfits fun _ _ ↦ by exact_mod_cast hlimit
      · rw [if_neg hlimit]
        refine iff_of_false (by simp) fun h ↦ hlimit ?_
        exact_mod_cast h rfl hn
    · have hv : v ≠ 0 := fun hzero ↦ hn (hdefined (by rw [hzero]; rfl))
      have hwhole : ¬(kind (integer v) = .integer ∧ 0 ≤ n) := fun h ↦ hn h.2
      rw [if_neg hwhole] at hfits
      rw [if_neg hn, if_neg hv, ← Fraction.toRat_ofInt64]
      rw [← Fraction.toRat_ofInt64] at hfits hdefined
      exact iff_of_true ⟨_, rfl, toRat?_powFraction hdefined hfits⟩ fun _ h ↦ absurd h hn
  | fraction f =>
    rw [toRat?_fraction, Option.some.injEq] at ha
    subst ha
    have hpresent : ¬(n < 0 ∧ f.isZero = true) :=
      fun h ↦ (hdefined (f.isZero_iff.1 h.2)).not_gt h.1
    rw [powWhole?, if_neg hpresent]
    have hkind : kind (fraction f) ≠ .integer := by simp [kind]
    exact iff_of_true ⟨_, rfl, toRat?_powFraction hdefined hfits⟩ fun h ↦ absurd h hkind

/-- A power of a root that words hold is exact up to the limits. -/
theorem exists_toRat?_powRational?_iff {preferInteger : Bool} {root : ℚ} {p : ℤ} {q : ℕ}
    (hq : q ≠ 0) (hsign : Even q → 0 ≤ root) (hdefined : root ^ q = 0 → 0 ≤ p)
    (hfits : FitsFraction (root ^ p)) :
    (∃ c, powRational? preferInteger (root ^ q) p q = some c ∧ c.toRat? = some (root ^ p)) ↔
      q ≤ maxOrder ∧ p.natAbs ≤ 64 := by
  have heven : ¬((root ^ q).num < 0 ∧ q % 2 = 0) := fun h ↦
    (Nat.even_iff.2 h.2).pow_nonneg root |>.not_gt (Rat.num_neg.1 h.1)
  have hzero : ¬((root ^ q).num = 0 ∧ p < 0) := fun h ↦
    (hdefined (Rat.num_eq_zero.1 h.1)).not_gt h.2
  unfold powRational?
  rw [if_neg heven, if_neg hzero]
  by_cases hlimits : q ≤ maxOrder ∧ p.natAbs ≤ 64
  · rw [if_pos hlimits, Root.ofRat?_pow hq hsign]
    exact iff_of_true ⟨_, rfl, toRat?_ofRat hfits⟩ hlimits
  · rw [if_neg hlimits]
    refine iff_of_false ?_ hlimits
    rintro ⟨c, hc, hvalue⟩
    rw [← Option.some.inj hc] at hvalue
    simp at hvalue

/-- A power that words hold is exact exactly up to the limits. -/
theorem exists_toRat?_pow?_iff_isWithinLimits (ha : a.toRat? = some x)
    (hy : exponent.toRat? = some y) (hpow : IsPower x y r) (hfits : FitsPower a.kind y r) :
    (∃ c, a.pow? exponent = some c ∧ c.toRat? = some r) ↔ IsWithinLimits a.kind y := by
  rw [pow?_eq ha hy, IsWithinLimits]
  by_cases hparts : HasWordParts y
  · rw [if_pos hparts, and_iff_right hparts]
    by_cases hden : y.den = 1
    · have hnum : (y.num : ℚ) = y := Rat.coe_int_num_of_den_eq_one hden
      obtain ⟨hdefined, rfl⟩ := isPower_intCast.1 (hnum ▸ hpow)
      simp only [FitsPower, hden, true_and] at hfits
      rw [if_pos hden, if_pos hden]
      exact exists_toRat?_powWhole?_iff ha hdefined hfits
    · obtain ⟨root, rfl, rfl, hsign⟩ := hpow.exists_root
      rw [if_neg hden, if_neg hden]
      exact exists_toRat?_powRational?_iff y.den_nz hsign
        (fun hzero ↦ Rat.num_nonneg.2 (hpow.1 hzero)) hfits.fitsFraction
  · rw [if_neg hparts]
    refine iff_of_false ?_ fun h ↦ hparts h.1
    rintro ⟨c, hc, hvalue⟩
    rw [← Option.some.inj hc] at hvalue
    simp at hvalue

/--
For a base other than zero and plus or minus one, words hold powers within the limits alone. The
value bounds the numerator of the exponent, and the base bounds the order of the root.
-/
theorem isWithinLimits_of_base (ha : a.toRat? = some x) (hpow : IsPower x y r)
    (hfits : FitsFraction r) (hzero : x ≠ 0) (hone : x ≠ 1) (hminus : x ≠ -1) (k : Kind) :
    IsWithinLimits k y := by
  obtain ⟨root, hx, rfl, hsign⟩ := hpow.exists_root
  have hroot : root ≠ 0 := fun h ↦ hzero (by rw [← hx, h, zero_pow y.den_nz])
  have hrootOne : root ≠ 1 := fun h ↦ hone (by rw [← hx, h, one_pow])
  have hrootMinus : root ≠ -1 := fun h ↦ by
    rcases Nat.even_or_odd y.den with heven | hodd
    · exact absurd (hsign heven) (by rw [h]; norm_num)
    · exact hminus (by rw [← hx, h, hodd.neg_one_pow])
  have hnum := hfits.natAbs_lt hroot hrootOne hrootMinus
  have hden : y.den < 128 := by
    obtain ⟨hvalue, hxden⟩ := abs_lt_of_toRat? ha
    rw [← hx] at hvalue hxden
    exact exponent_lt hroot hrootOne hrootMinus hvalue hxden
  have hlo : Int64.minValue.toInt = -9223372036854775808 := rfl
  have hhi : Int64.maxValue.toInt = 9223372036854775807 := rfl
  have hlimit : maxOrder = 4294967295 := rfl
  refine ⟨⟨⟨by omega, by omega⟩, ⟨by omega, by omega⟩⟩, ?_⟩
  split
  · exact fun _ _ ↦ by omega
  · exact ⟨by omega, by omega⟩

/--
A power that words hold is exact, except for a base that is zero or plus or minus one, where it is
exact exactly up to the limits.
-/
theorem exists_toRat?_pow?_iff (ha : a.toRat? = some x) (hy : exponent.toRat? = some y)
    (hpow : IsPower x y r) (hfits : FitsPower a.kind y r) :
    (∃ c, a.pow? exponent = some c ∧ c.toRat? = some r) ↔
      (x = 0 ∨ x = 1 ∨ x = -1 → IsWithinLimits a.kind y) := by
  rw [exists_toRat?_pow?_iff_isWithinLimits ha hy hpow hfits]
  refine ⟨fun h _ ↦ h, fun h ↦ ?_⟩
  by_cases hbase : x = 0 ∨ x = 1 ∨ x = -1
  · exact h hbase
  · obtain ⟨hzero, hone, hminus⟩ : x ≠ 0 ∧ x ≠ 1 ∧ x ≠ -1 := by
      simpa only [not_or] using hbase
    exact isWithinLimits_of_base ha hpow hfits.fitsFraction hzero hone hminus a.kind

/-- The power of `4/9` with the exponent `-3/2` is exact. -/
theorem exists_toRat?_pow?_iff_fourNinths :
    (fraction ⟨false, 0, 4, 9, by decide⟩).toRat? = some (4 / 9) ∧
      (fraction ⟨true, 1, 1, 2, by decide⟩).toRat? = some (-3 / 2) ∧
      IsPower (4 / 9) (-3 / 2) (27 / 8) ∧ FitsPower .fraction (-3 / 2) (27 / 8) ∧
      ∃ c, (fraction ⟨false, 0, 4, 9, by decide⟩).pow? (fraction ⟨true, 1, 1, 2, by decide⟩) =
        some c ∧ c.toRat? = some (27 / 8) := by
  have ha : (fraction ⟨false, 0, 4, 9, by decide⟩).toRat? = some (4 / 9) := by decide +kernel
  have hy : (fraction ⟨true, 1, 1, 2, by decide⟩).toRat? = some (-3 / 2) := by decide +kernel
  have hpow : IsPower (4 / 9) (-3 / 2) (27 / 8) := by
    unfold IsPower
    decide +kernel
  have hfits : FitsPower .fraction (-3 / 2) (27 / 8) := by decide +kernel
  refine ⟨ha, hy, hpow, hfits, (exists_toRat?_pow?_iff ha hy hpow hfits).2 fun _ ↦ ?_⟩
  decide +kernel

/-- The power of one with the exponent `65/2` is one, and it is not exact. -/
theorem exists_pow?_not_exact :
    ∃ a exponent : Number, a.toRat? = some 1 ∧ exponent.toRat? = some (65 / 2) ∧
      IsPower 1 (65 / 2) 1 ∧ FitsPower a.kind (65 / 2) 1 ∧
      ¬∃ c, a.pow? exponent = some c ∧ c.toRat? = some 1 := by
  have ha : (integer 1).toRat? = some 1 := by decide +kernel
  have hy : (fraction ⟨false, 32, 1, 2, by decide⟩).toRat? = some (65 / 2) := by decide +kernel
  have hpow : IsPower 1 (65 / 2) 1 := by
    unfold IsPower
    decide +kernel
  have hfits : FitsPower .integer (65 / 2) 1 := by decide +kernel
  refine ⟨_, _, ha, hy, hpow, hfits, ?_⟩
  rw [exists_toRat?_pow?_iff_isWithinLimits ha hy hpow hfits]
  decide +kernel

/-- An exact number that is a square has an exact square root. -/
theorem exists_sqrt? {a : Number} {x : ℚ} (ha : a.toRat? = some (x ^ 2)) (hx : 0 ≤ x) :
    ∃ c, a.sqrt? = some c ∧ c.toRat? = some x := by
  have hhalf : (fraction .half).toRat? = some (1 / 2) := by decide +kernel
  have hpow : IsPower (x ^ 2) (1 / 2) x := ⟨fun _ ↦ by norm_num, by norm_num, fun _ ↦ hx⟩
  have hfits : FitsPower a.kind (1 / 2) x := by
    have hwhole : ¬(a.kind = .integer ∧ (1 / 2 : ℚ).den = 1 ∧ 0 ≤ (1 / 2 : ℚ).num) :=
      fun h ↦ absurd h.2.1 (by decide +kernel)
    rw [FitsPower, if_neg hwhole, fitsFraction_iff]
    obtain ⟨hvalue, hden⟩ := abs_lt_of_toRat? ha
    rw [abs_pow] at hvalue
    rw [Rat.den_pow] at hden
    have hsize : (UInt64.size : ℚ) = 2 ^ 64 := by norm_num
    constructor
    · rw [hsize]
      exact lt_of_pow_lt_pow_left₀ 2 (by positivity) (hvalue.trans_eq (by norm_num))
    · exact lt_of_pow_lt_pow_left₀ 2 (by positivity) (hden.trans_eq (by norm_num))
  refine (exists_toRat?_pow?_iff_isWithinLimits ha hhalf hpow hfits).2 ?_
  cases a.kind <;> decide +kernel

end Number

end SchoolAlgebra
