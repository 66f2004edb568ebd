import Mathlib
import SchoolAlgebra.Proofs.Number.LargeValue

/-!
# Rounding errors

A double of 53 digits is read as a rational. Sums, differences and quotients of such doubles, and
doubles of integers, are off the exact result by at most `2 ^ -51` of it, as long as no result is
too large for a double or so small that it has fewer digits. The bound is coarse: it does not depend
on how ties are rounded.
-/

namespace SchoolAlgebra.Binary64

open Float.Model (Format UnpackedFloat totalExponent)
open Float.Model.UnpackedFloat

variable {k l : ℤ} {u v : UnpackedFloat} {x y : Float}

/-- The sign as a factor. -/
def factor : Sign → ℚ
  | .positive => 1
  | .negative => -1

@[simp] theorem abs_factor (s : Sign) : |factor s| = 1 := by
  cases s <;> simp [factor]

@[simp] theorem factor_neg (s : Sign) : factor (-s) = -factor s := by
  cases s with
  | positive => rfl
  | negative => exact (neg_neg 1).symm

theorem cast_apply (s : Sign) (n : ℕ) : ((s.apply n : ℤ) : ℚ) = factor s * n := by
  cases s <;> simp [Sign.apply, factor]

/-- The value of a finite number taken apart; every other counts as zero. -/
def value : UnpackedFloat → ℚ
  | .finite s m e _ => factor s * (m * 2 ^ e)
  | _ => 0

theorem value_neg (u : UnpackedFloat) : value u.neg = -value u := by
  cases u with
  | finite s m e hm => simp only [UnpackedFloat.neg, value, factor_neg, neg_mul]
  | infinity | notANumber | zero => exact neg_zero.symm

/--
Whether the number taken apart is zero, or has 53 digits of weight `2 ^ l` at least and lies below
`2 ^ k` in magnitude.
-/
def IsRanged (l k : ℤ) : UnpackedFloat → Prop
  | .zero _ => True
  | .finite _ m e _ => m.log2 = 52 ∧ l ≤ e ∧ e + 53 ≤ k
  | _ => False

theorem IsNormalFrom.isRanged (h : IsNormalFrom l u) (hbelow : IsBelow k u) : IsRanged l k u := by
  match u, h, hbelow with
  | .finite _ m e _, ⟨hdigits, he⟩, hbelow =>
    change totalExponent m e ≤ k at hbelow
    unfold totalExponent at hbelow
    exact ⟨hdigits, he, by omega⟩

theorem IsRanged.mono {l' k' : ℤ} (h : IsRanged l k u) (hl : l' ≤ l) (hk : k ≤ k') :
    IsRanged l' k' u := by
  match u, h with
  | .zero _, _ => trivial
  | .finite .., ⟨hdigits, he, hbelow⟩ => exact ⟨hdigits, hl.trans he, hbelow.trans hk⟩

theorem IsRanged.neg (h : IsRanged l k u) : IsRanged l k u.neg := by
  cases u <;> exact h

theorem mantissa_bounds {m : ℕ} (h : m.log2 = 52) : 2 ^ 52 ≤ m ∧ m < 2 ^ 53 := by
  refine (Nat.log2_eq_iff ?_).1 h
  rintro rfl
  simp at h

theorem cast_shiftLeft (m n : ℕ) : ((m <<< n : ℕ) : ℚ) = m * 2 ^ n := by
  rw [Nat.shiftLeft_eq, Nat.cast_mul, Nat.cast_pow, Nat.cast_ofNat]

/-- A mantissa that is aligned to a place of less weight keeps its value. -/
theorem cast_shiftLeft_mul {e : ℤ} (m : ℕ) (hl : l ≤ e) :
    ((m <<< (e - l).toNat : ℕ) : ℚ) * 2 ^ l = m * 2 ^ e := by
  have hexponent : ((e - l).toNat : ℤ) + l = e := by omega
  rw [cast_shiftLeft, mul_assoc, ← zpow_natCast, ← zpow_add₀ two_ne_zero, hexponent]

/-- A number of 53 digits loses none of them, nor does the next power of two, that has one more. -/
theorem div_mul_of_le {r : ℕ} (hlow : 2 ^ 52 ≤ r) (hhigh : r ≤ 2 ^ 53) :
    r / 2 ^ (r.log2 - 52) * 2 ^ (r.log2 - 52) = r := by
  rcases hhigh.lt_or_eq with hsmall | hcarry
  · have hlog : r.log2 - 52 = 0 := by
      have hlt : r.log2 < 53 := (Nat.log2_lt (by omega)).2 hsmall
      omega
    rw [hlog, pow_zero, Nat.div_one, mul_one]
  · rw [hcarry, Nat.log2_two_pow]
    norm_num

/--
Rounding to 53 digits drops the digits behind them and may add one to the last. Where this carries
into one more digit, the second shift drops a zero.
-/
theorem exists_value_roundWithAccuracy (s : Sign) {m : ℕ} {e : ℤ} (accuracy : Accuracy)
    (hdigits : 52 ≤ m.log2) (h : -1021 ≤ totalExponent m e) :
    ∃ r : ℕ, m / 2 ^ (m.log2 - 52) ≤ r ∧ r ≤ m / 2 ^ (m.log2 - 52) + 1 ∧
      value (roundWithAccuracy Format.binary64 s m e accuracy) =
        factor s * (r * 2 ^ (e + (m.log2 - 52 : ℕ))) := by
  have hquotient := log2_div_digits hdigits
  obtain ⟨hlow, hhigh⟩ := mantissa_bounds hquotient
  obtain ⟨hmantissa, hexponent⟩ := shiftToTargetExponent_of_le accuracy hdigits h
  have hlower := le_roundedMantissa (shiftToTargetExponent Format.binary64 m e accuracy).1
  have hupper := roundedMantissa_le (shiftToTargetExponent Format.binary64 m e accuracy).1
  rw [hmantissa] at hlower hupper
  refine ⟨_, hlower, hupper, ?_⟩
  unfold roundWithAccuracy
  dsimp only
  generalize shiftToTargetExponent Format.binary64 m e accuracy = first at *
  generalize first.1.roundedMantissa = r at *
  have hdrop := div_mul_of_le (hlow.trans hlower) (by omega)
  have hrdigits : 52 ≤ r.log2 := hquotient ▸ log2_le_log2 (by omega) hlower
  have hplace : -1021 ≤ totalExponent r first.2 := by
    unfold totalExponent at h ⊢
    omega
  obtain ⟨hmantissa', hexponent'⟩ := shiftToTargetExponent_of_le .exact hrdigits hplace
  have hkept : r / 2 ^ (r.log2 - 52) ≠ 0 := by
    intro hzero
    rw [hzero, zero_mul] at hdrop
    omega
  have hvalue : ((r / 2 ^ (r.log2 - 52) : ℕ) : ℚ) * 2 ^ (r.log2 - 52) = r := by
    exact_mod_cast hdrop
  rw [dif_neg (by rwa [hmantissa']), ← hexponent]
  simp only [value, hmantissa', hexponent']
  rw [zpow_add₀ two_ne_zero, zpow_natCast, mul_left_comm (_ : ℚ) (2 ^ first.2 : ℚ), hvalue,
    mul_comm (2 ^ first.2 : ℚ)]

/-- The error of rounding is less than the last of 53 digits. -/
theorem abs_value_roundWithAccuracy_sub_le (s : Sign) {m : ℕ} {e : ℤ} (accuracy : Accuracy)
    (hdigits : 52 ≤ m.log2) (h : -1021 ≤ totalExponent m e) :
    |value (roundWithAccuracy Format.binary64 s m e accuracy) - factor s * (m * 2 ^ e)| ≤
      m * 2 ^ e / 2 ^ 52 := by
  obtain ⟨r, hlower, hupper, hvalue⟩ := exists_value_roundWithAccuracy s accuracy hdigits h
  have hm : m ≠ 0 := by
    rintro rfl
    simp at hdigits
  have hlead : 2 ^ (m.log2 - 52) * 2 ^ 52 ≤ m := by
    rw [← pow_add, Nat.sub_add_cancel hdigits]
    exact Nat.log2_self_le hm
  have hfloor := Nat.div_add_mod' m (2 ^ (m.log2 - 52))
  have hmod := Nat.mod_lt m (Nat.two_pow_pos (m.log2 - 52))
  have hlow := Nat.mul_le_mul_right (2 ^ (m.log2 - 52)) hlower
  have hhigh := Nat.mul_le_mul_right (2 ^ (m.log2 - 52)) hupper
  rw [Nat.succ_mul] at hhigh
  have hbelow : (m : ℚ) ≤ r * 2 ^ (m.log2 - 52) + 2 ^ (m.log2 - 52) := by
    have hle : m ≤ r * 2 ^ (m.log2 - 52) + 2 ^ (m.log2 - 52) := by omega
    exact_mod_cast hle
  have habove : (r * 2 ^ (m.log2 - 52) : ℚ) ≤ m + 2 ^ (m.log2 - 52) := by
    have hle : r * 2 ^ (m.log2 - 52) ≤ m + 2 ^ (m.log2 - 52) := by omega
    exact_mod_cast hle
  have hulp : (2 ^ (m.log2 - 52) : ℚ) ≤ m / 2 ^ 52 := by
    rw [le_div_iff₀ (by positivity)]
    exact_mod_cast hlead
  have hdistance : |(r * 2 ^ (m.log2 - 52) : ℚ) - m| ≤ m / 2 ^ 52 := by
    rw [abs_le]
    constructor <;> linarith
  have hpos : (0 : ℚ) < 2 ^ e := zpow_pos two_pos e
  rw [hvalue, ← mul_sub, abs_mul, abs_factor, one_mul, zpow_add₀ two_ne_zero, zpow_natCast]
  calc |(r : ℚ) * (2 ^ e * 2 ^ (m.log2 - 52)) - m * 2 ^ e| =
        |(r * 2 ^ (m.log2 - 52) : ℚ) - m| * 2 ^ e := by
        rw [← abs_of_pos hpos, ← abs_mul, abs_of_pos hpos]
        congr 1
        ring
    _ ≤ m / 2 ^ 52 * 2 ^ e := mul_le_mul_of_nonneg_right hdistance hpos.le
    _ = m * 2 ^ e / 2 ^ 52 := by ring

theorem abs_value_round_sub_le (s : Sign) {m : ℕ} {e : ℤ} (hm : m ≠ 0)
    (h : -1021 ≤ totalExponent m e) :
    |value (UnpackedFloat.round Format.binary64 s m e) - factor s * (m * 2 ^ e)| ≤
      m * 2 ^ e / 2 ^ 52 := by
  have htarget : Format.binary64.targetExponent (totalExponent m e) = totalExponent m e - 53 := by
    rw [targetExponent_binary64]
    omega
  have hdigits : 52 ≤ (m <<< (e - (totalExponent m e - 53)).toNat).log2 := by
    rw [log2_shiftLeft hm]
    unfold totalExponent
    omega
  have hplace : -1021 ≤ totalExponent (m <<< (e - (totalExponent m e - 53)).toNat)
      (e - (e - (totalExponent m e - 53)).toNat) := by
    unfold totalExponent at h ⊢
    rw [log2_shiftLeft hm]
    omega
  have hvalue : ((m <<< (e - (totalExponent m e - 53)).toNat : ℕ) : ℚ) *
      2 ^ (e - (e - (totalExponent m e - 53)).toNat) = m * 2 ^ e := by
    rw [Nat.shiftLeft_eq, Nat.cast_mul, Nat.cast_pow, Nat.cast_ofNat, mul_assoc, ← zpow_natCast,
      ← zpow_add₀ two_ne_zero, add_sub_cancel]
  have herror := abs_value_roundWithAccuracy_sub_le s .exact hdigits hplace
  unfold UnpackedFloat.round decreaseExponent
  dsimp only
  rwa [htarget, ← hvalue]

theorem abs_value_normalize_sub_le (s : Sign) {m : ℤ} {e : ℤ} (he : -1022 ≤ e) :
    |value (UnpackedFloat.normalize Format.binary64 m e s) - m * 2 ^ e| ≤
      |(m : ℚ) * 2 ^ e| / 2 ^ 52 := by
  have hplace : -1021 ≤ totalExponent m.natAbs e := by
    unfold totalExponent
    omega
  have hmagnitude : |(m : ℚ) * 2 ^ e| = m.natAbs * 2 ^ e := by
    rw [abs_mul, abs_of_pos (zpow_pos (two_pos : (0 : ℚ) < 2) e), Nat.cast_natAbs, Int.cast_abs]
  unfold UnpackedFloat.normalize
  split
  · rename_i hlt
    have hlt := Int.compare_eq_lt.1 hlt
    have habs : (-m).toNat = m.natAbs := by omega
    have hsigned : (m : ℚ) * 2 ^ e = factor .negative * (m.natAbs * 2 ^ e) := by
      have hneg : (m : ℚ) = -m.natAbs := by
        rw [Nat.cast_natAbs, abs_of_neg hlt, Int.cast_neg, neg_neg]
      rw [factor, neg_one_mul, ← neg_mul, ← hneg]
    rw [hmagnitude, hsigned, habs]
    exact abs_value_round_sub_le _ (by omega) hplace
  · rename_i heq
    rw [Int.compare_eq_eq.1 heq]
    simp [value]
  · rename_i hgt
    have hgt := Int.compare_eq_gt.1 hgt
    have habs : m.toNat = m.natAbs := by omega
    have hsigned : (m : ℚ) * 2 ^ e = factor .positive * (m.natAbs * 2 ^ e) := by
      have hpos : (m : ℚ) = m.natAbs := by rw [Nat.cast_natAbs, abs_of_pos hgt]
      rw [factor, one_mul, ← hpos]
    rw [hmagnitude, hsigned, habs]
    exact abs_value_round_sub_le _ (by omega) hplace

/-- A number of 53 digits that is neither too small nor too large is packed without a loss. -/
theorem unpack_pack (h : IsRanged (-1074) 1024 u) :
    unpack Format.binary64 (pack Format.binary64 u) = u := by
  match u, h with
  | .zero .positive, _ | .zero .negative, _ => rfl
  | .finite s m e hm, ⟨hdigits, he, hbelow⟩ =>
    obtain ⟨hlow, hhigh⟩ := mantissa_bounds hdigits
    have hbias : e + (Format.binary64.exponentBias : ℤ) +
        Format.binary64.mantissaBitsWithoutImplicit = e + 1075 := by
      change e + 1023 + 52 = _
      omega
    have hfinite : ¬2 ^ Format.binary64.exponentBits ≤
        (e + Format.binary64.exponentBias + Format.binary64.mantissaBitsWithoutImplicit).toNat +
          1 := by
      rw [hbias]
      change ¬2048 ≤ _
      omega
    obtain ⟨hbiased, hlt⟩ := toNat_biasedExponent hfinite
    unfold pack
    dsimp only
    rw [if_neg hfinite, if_pos (by rw [hdigits]; rfl)]
    generalize BitVec.ofNat Format.binary64.exponentBits _ = exponent at hbiased
    have hinfinite : exponent ≠ -1#_ := by
      rintro rfl
      change 2047 = _ at hbiased
      omega
    have hsubnormal : exponent ≠ 0#_ := by
      rintro rfl
      change 0 = _ at hbiased
      omega
    have hmantissa : (1#1 ++ BitVec.ofNat 52 m).toNat = m := by
      have hrest : (BitVec.ofNat 52 m).toNat = m % 2 ^ 52 := BitVec.toNat_ofNat ..
      rw [BitVec.toNat_append, ← Nat.shiftLeft_add_eq_or_of_lt (BitVec.ofNat 52 m).isLt, hrest]
      change 2 ^ 52 + m % 2 ^ 52 = m
      omega
    have hexponent : (exponent.toNat : ℤ) - (Format.binary64.exponentBias +
        Format.binary64.mantissaBitsWithoutImplicit) = e := by
      rw [hbiased]
      change _ - (1023 + 52) = _
      omega
    unfold unpack
    simp only [unpackExponent_packComponents, unpackMantissa_packComponents,
      unpackSign_packComponents, if_neg hinfinite, if_neg hsubnormal, hexponent]
    congr 1

/-! ## Sums, differences and quotients -/

theorem IsRanged.isBelow (h : IsRanged l k u) : IsBelow k u := by
  match u, h with
  | .zero _, _ => trivial
  | .finite _ m e _, ⟨hdigits, _, hbelow⟩ =>
    change totalExponent m e ≤ k
    unfold totalExponent
    omega

theorem isRanged_normalize (hl : -1074 ≤ l) (s : Sign) {m e : ℤ} (he : l + 52 ≤ e)
    (hbelow : IsBelow k (UnpackedFloat.normalize Format.binary64 m e s)) :
    IsRanged l k (UnpackedFloat.normalize Format.binary64 m e s) := by
  unfold UnpackedFloat.normalize at hbelow ⊢
  split
  · rename_i hlt
    rw [hlt] at hbelow
    refine (isNormalFrom_round hl _ ?_ ?_).isRanged hbelow
    · have hlt := Int.compare_eq_lt.1 hlt
      omega
    · unfold totalExponent
      omega
  · trivial
  · rename_i hgt
    rw [hgt] at hbelow
    refine (isNormalFrom_round hl _ ?_ ?_).isRanged hbelow
    · have hgt := Int.compare_eq_gt.1 hgt
      omega
    · unfold totalExponent
      omega

/-- Whether the number taken apart is off a value by at most `2 ^ -51` of it, and in a range. -/
structure IsRoundedFrom (l k : ℤ) (q : ℚ) (u : UnpackedFloat) : Prop where
  isRanged : IsRanged l k u
  error : |value u - q| ≤ |q| / 2 ^ 51

theorem isRoundedFrom_add (hl : -1022 ≤ l) (hk : -1074 ≤ k) (hu : IsRanged l k u)
    (hv : IsRanged l k v) :
    IsRoundedFrom (l - 52) (k + 2) (value u + value v) (add Format.binary64 u v) := by
  have hbelow := isBelow_add hk hu.isBelow hv.isBelow
  match u, v, hu, hv with
  | .zero s, .zero t, _, _ =>
    constructor
    · unfold add
      dsimp only
      split <;> trivial
    · unfold add
      dsimp only
      split <;> simp [value]
  | .zero s, .finite t n f hn, _, hv =>
    refine ⟨hv.mono (by omega) (by omega), ?_⟩
    simp only [add, value, zero_add, sub_self, abs_zero]
    positivity
  | .finite s m e hm, .zero t, hu, _ =>
    refine ⟨hu.mono (by omega) (by omega), ?_⟩
    simp only [add, value, add_zero, sub_self, abs_zero]
    positivity
  | .finite s m e hm, .finite t n f hn, ⟨_, he, _⟩, ⟨_, hf, _⟩ =>
    have hvalue : value (.finite s m e hm) + value (.finite t n f hn) =
        ((s.apply (m <<< (e - min e f).toNat : ℕ) + t.apply (n <<< (f - min e f).toNat : ℕ) : ℤ) :
          ℚ) * 2 ^ min e f := by
      rw [Int.cast_add, cast_apply, cast_apply, add_mul, mul_assoc, mul_assoc,
        cast_shiftLeft_mul m (min_le_left e f), cast_shiftLeft_mul n (min_le_right e f)]
      rfl
    rw [hvalue]
    refine ⟨isRanged_normalize (by omega) _ (by omega) hbelow,
      (abs_value_normalize_sub_le _ (by omega)).trans ?_⟩
    gcongr
    · norm_num
    · decide

theorem sub_eq_add (u v : UnpackedFloat) :
    sub Format.binary64 u v = add Format.binary64 u v.neg := by
  have hopposite : ∀ (t : Sign) (n : ℤ), (-t).apply n = -t.apply n := by
    intro t n
    cases t with
    | positive => rfl
    | negative => exact (neg_neg n).symm
  match u, v with
  | .notANumber, _ => rfl
  | .infinity _, .notANumber | .zero _, .notANumber | .finite .., .notANumber => rfl
  | .infinity _, .infinity _ | .zero _, .infinity _ | .finite .., .infinity _ => rfl
  | .infinity _, .zero _ | .infinity _, .finite .. => rfl
  | .zero _, .zero _ | .zero _, .finite .. => rfl
  | .finite .., .zero _ => rfl
  | .finite s m e hm, .finite t n f hn =>
    unfold sub add UnpackedFloat.neg
    simp only [hopposite, Int.sub_eq_add_neg]

theorem factor_div (s t : Sign) : factor (s / t) = factor s / factor t := by
  cases t with
  | positive => cases s <;> exact (div_one (factor _)).symm
  | negative => cases s <;> simp only [factor, div_neg, div_one, neg_neg] <;> rfl

theorem divCore_eq {m n : ℕ} {e f : ℤ} (hm : m.log2 = 52) (hn : n.log2 = 52)
    (h : -1021 ≤ e - f) : ∃ accuracy,
    divCore Format.binary64 m e n f = (m <<< 53 / n, e - f - 53, accuracy) := by
  have htarget : min (e - f) (Format.binary64.targetExponent
      (totalExponent m e - totalExponent n f)) = e - f - 53 := by
    rw [targetExponent_binary64]
    unfold totalExponent
    omega
  have hshift : (e - f - (e - f - 53)).toNat = 53 := by omega
  unfold divCore
  dsimp only
  rw [htarget, hshift]
  exact ⟨_, rfl⟩

/-- The integer part of a quotient of mantissas has 53 or 54 digits. -/
theorem div_mantissa_bounds {m n : ℕ} (hm : m.log2 = 52) (hn : n.log2 = 52) :
    2 ^ 52 ≤ m <<< 53 / n ∧ m <<< 53 / n < 2 ^ 54 := by
  obtain ⟨hmlow, hmhigh⟩ := mantissa_bounds hm
  obtain ⟨hnlow, hnhigh⟩ := mantissa_bounds hn
  rw [Nat.le_div_iff_mul_le (by omega), Nat.div_lt_iff_lt_mul (by omega), Nat.shiftLeft_eq]
  omega

/-- A quotient of at least `2 ^ 52` is off its integer part by little. -/
theorem abs_div_sub_le {m n : ℕ} (hn : 0 < n) (h : 2 ^ 52 ≤ m / n) :
    |((m / n : ℕ) : ℚ) - m / n| ≤ (m / n : ℚ) / 2 ^ 52 ∧ ((m / n : ℕ) : ℚ) ≤ m / n := by
  have hpos : (0 : ℚ) < n := by exact_mod_cast hn
  have hfloor : ((m / n : ℕ) : ℚ) ≤ m / n := Nat.cast_div_le
  have hnext : (m / n : ℚ) ≤ (m / n : ℕ) + 1 := by
    rw [div_le_iff₀' hpos]
    exact_mod_cast (Nat.lt_mul_div_succ m hn).le
  have hlarge : (2 ^ 52 : ℚ) ≤ (m / n : ℕ) := by exact_mod_cast h
  refine ⟨?_, hfloor⟩
  rw [abs_le]
  constructor <;> linarith

theorem value_div_value (s t : Sign) {m n : ℕ} (e f : ℤ) (hm : 0 < m) (hn : 0 < n) :
    value (.finite s m e hm) / value (.finite t n f hn) =
      factor (s / t) * (((m <<< 53 : ℕ) / n : ℚ) * 2 ^ (e - f - 53)) := by
  have hexponent : (e - f - 53 : ℤ) = e - (f + (53 : ℕ)) := by omega
  have hmantissa : (n : ℚ) ≠ 0 := by exact_mod_cast hn.ne'
  have hweight : (2 : ℚ) ^ f ≠ 0 := zpow_ne_zero f two_ne_zero
  rw [value, value, factor_div, Nat.shiftLeft_eq, hexponent, zpow_sub₀ two_ne_zero,
    zpow_add₀ two_ne_zero, zpow_natCast]
  push_cast
  field_simp
  norm_num

theorem isRoundedFrom_div {l' k' : ℤ} (h : -1074 ≤ l - k') (hu : IsRanged l k u)
    (hv : IsRanged l' k' v) (hne : value v ≠ 0) :
    IsRoundedFrom (l - k') (k - l' + 1) (value u / value v) (div Format.binary64 u v) := by
  match u, v, hu, hv, hne with
  | _, .zero _, _, _, hne => exact absurd rfl hne
  | .zero s, .finite t n f hn, _, _, _ =>
    refine ⟨trivial, ?_⟩
    simp [div, value]
  | .finite s m e hm, .finite t n f hn, ⟨hmdigits, he, hebelow⟩, ⟨hndigits, hf, hfbelow⟩, _ =>
    obtain ⟨accuracy, hcore⟩ := divCore_eq (m := m) (n := n) hmdigits hndigits
      (show -1021 ≤ e - f by omega)
    obtain ⟨hlow, hhigh⟩ := div_mantissa_bounds (m := m) (n := n) hmdigits hndigits
    have hdigits : 52 ≤ (m <<< 53 / n).log2 := (Nat.le_log2 (by omega)).2 hlow
    have hplace : l - k' + 53 ≤ totalExponent (m <<< 53 / n) (e - f - 53) := by
      unfold totalExponent
      omega
    have hbelow : IsBelow (k - l' + 1) (roundWithAccuracy Format.binary64 (s / t)
        (m <<< 53 / n) (e - f - 53) accuracy) := by
      refine isBelow_roundWithAccuracy (by omega) _ _ ?_
      have hle := totalExponent_le (e := e - f - 53) hhigh (by decide)
      exact hle.trans (by omega)
    have hnormal := isNormalFrom_roundWithAccuracy (by omega) (s / t) accuracy hdigits hplace
    have herror := abs_value_roundWithAccuracy_sub_le (s / t) (e := e - f - 53) accuracy hdigits
      (by omega)
    obtain ⟨hquotient, hfloor⟩ := abs_div_sub_le hn hlow
    have hweight : (0 : ℚ) < 2 ^ (e - f - 53) := zpow_pos two_pos _
    unfold div
    simp only [hcore]
    refine ⟨hnormal.isRanged hbelow, ?_⟩
    rw [value_div_value]
    generalize value (roundWithAccuracy ..) = rounded at herror ⊢
    generalize ((m <<< 53 : ℕ) / n : ℚ) = quotient at *
    generalize ((m <<< 53 / n : ℕ) : ℚ) = floor at *
    generalize (2 : ℚ) ^ (e - f - 53) = weight at *
    have hdropped : |factor (s / t) * (floor * weight) - factor (s / t) * (quotient * weight)| ≤
        quotient * weight / 2 ^ 52 := by
      rw [← mul_sub, ← sub_mul, abs_mul, abs_factor, one_mul, abs_mul, abs_of_pos hweight]
      linarith [mul_le_mul_of_nonneg_right hquotient hweight.le]
    have hpositive : 0 ≤ quotient * weight := by
      have hnonneg := (abs_nonneg _).trans hquotient
      have hquotient : 0 ≤ quotient := by linarith
      positivity
    rw [abs_mul, abs_factor, one_mul, abs_of_nonneg hpositive]
    have htriangle := abs_sub_le rounded (factor (s / t) * (floor * weight))
      (factor (s / t) * (quotient * weight))
    linarith [mul_le_mul_of_nonneg_right hfloor hweight.le]

/-! ## Doubles -/

/-- The value of a finite double; every other double counts as zero. -/
def toRat (x : Float) : ℚ := value (unpacked x)

theorem IsRoundedFrom.unpack_pack {q : ℚ} (h : IsRoundedFrom l k q u) (hl : -1074 ≤ l)
    (hk : k ≤ 1024) : IsRoundedFrom l k q (unpack Format.binary64 (pack Format.binary64 u)) := by
  rwa [Binary64.unpack_pack (h.isRanged.mono hl hk)]

theorem isRoundedFrom_unpacked_add (hl : -1022 ≤ l) (hlow : -1074 ≤ k) (hk : k ≤ 1022)
    (hx : IsRanged l k (unpacked x)) (hy : IsRanged l k (unpacked y)) :
    IsRoundedFrom (l - 52) (k + 2) (toRat x + toRat y) (unpacked (x + y)) :=
  (isRoundedFrom_add hl hlow hx hy).unpack_pack (by omega) (by omega)

theorem isRoundedFrom_unpacked_sub (hl : -1022 ≤ l) (hlow : -1074 ≤ k) (hk : k ≤ 1022)
    (hx : IsRanged l k (unpacked x)) (hy : IsRanged l k (unpacked y)) :
    IsRoundedFrom (l - 52) (k + 2) (toRat x - toRat y) (unpacked (x - y)) := by
  have hsum := (isRoundedFrom_add hl hlow hx hy.neg).unpack_pack (by omega) (by omega)
  rwa [value_neg, ← sub_eq_add, ← sub_eq_add_neg] at hsum

theorem isRoundedFrom_unpacked_div {l' k' : ℤ} (hl : -1074 ≤ l - k') (hk : k - l' ≤ 1023)
    (hx : IsRanged l k (unpacked x)) (hy : IsRanged l' k' (unpacked y)) (hne : toRat y ≠ 0) :
    IsRoundedFrom (l - k') (k - l' + 1) (toRat x / toRat y) (unpacked (x / y)) :=
  (isRoundedFrom_div hl hx hy hne).unpack_pack hl (by omega)

theorem unpacked_neg (hl : -1074 ≤ l) (hk : k ≤ 1024) (hx : IsRanged l k (unpacked x)) :
    unpacked (-x) = (unpacked x).neg :=
  unpack_pack (hx.neg.mono hl hk)

theorem unpacked_abs (hl : -1074 ≤ l) (hk : k ≤ 1024) (hx : IsRanged l k (unpacked x)) :
    unpacked x.abs = (unpacked x).abs :=
  unpack_pack (u := (unpacked x).abs) (by
    match unpacked x, hx with
    | .zero _, _ => trivial
    | .finite .., ⟨hdigits, he, hbelow⟩ => exact ⟨hdigits, hl.trans he, hbelow.trans hk⟩)

theorem value_unpack {b : BitVec Format.binary64.numBits} (hpos : (unpackExponent b).toNat ≠ 0)
    (hfinite : (unpackExponent b).toNat < 2047) :
    value (unpack Format.binary64 b) = factor (Sign.ofBitVec (unpackSign b)) *
      ((2 ^ 52 + (unpackMantissa b).toNat : ℕ) * 2 ^ ((unpackExponent b).toNat - 1075 : ℤ)) := by
  have hmantissa : (1#1 ++ unpackMantissa b).toNat = 2 ^ 52 + (unpackMantissa b).toNat := by
    rw [BitVec.toNat_append, ← Nat.shiftLeft_add_eq_or_of_lt (unpackMantissa b).isLt]
    rfl
  have hinfinite : unpackExponent b ≠ -1#_ := by
    intro h
    rw [h] at hfinite
    exact absurd hfinite (by decide)
  have hsubnormal : unpackExponent b ≠ 0#_ := by
    intro h
    rw [h] at hpos
    exact absurd rfl hpos
  unfold unpack
  dsimp only
  rw [if_neg hinfinite, if_neg hsubnormal]
  simp only [value, hmantissa]
  rfl

/-- The pattern of a rounded number of 53 digits, or of the next power of two, as a value. -/
theorem pattern_value {p r : ℕ} (hlow : 2 ^ 52 ≤ r) (hhigh : r ≤ 2 ^ 53) :
    ((2 ^ 52 + (p * binade + r) % binade : ℕ) : ℚ) *
      2 ^ (((p * binade + r) / binade : ℕ) - 1075 : ℤ) = r * 2 ^ (p - 1074 : ℤ) := by
  unfold binade
  rcases hhigh.lt_or_eq with hsmall | hcarry
  · have hmantissa : 2 ^ 52 + (p * 0x10000000000000 + r) % 0x10000000000000 = r := by omega
    have hexponent : (((p * 0x10000000000000 + r) / 0x10000000000000 : ℕ) - 1075 : ℤ) =
        p - 1074 := by omega
    rw [hmantissa, hexponent]
  · have hmantissa : 2 ^ 52 + (p * 0x10000000000000 + r) % 0x10000000000000 = 2 ^ 52 := by omega
    have hexponent : (((p * 0x10000000000000 + r) / 0x10000000000000 : ℕ) - 1075 : ℤ) =
        p - 1074 + 1 := by omega
    rw [hmantissa, hexponent, hcarry, zpow_add_one₀ two_ne_zero]
    push_cast
    ring

theorem unpackMantissa_ofQuotient (negative : Bool) (a d : ℕ) :
    (unpackMantissa (bits (ofQuotient negative a d))).toNat =
      magnitudePattern (a <<< 1074) d % binade := by
  change (BitVec.extractLsb 51 0 (ofQuotient negative a d).toBits.toBitVec).toNat = _
  rw [BitVec.extractLsb_toNat, Nat.shiftRight_zero]
  change (ofQuotient negative a d).toBits.toNat % 2 ^ 52 = _
  rw [toBits_ofQuotient]
  unfold binade signWeight
  cases negative with
  | true =>
    simp only [if_true]
    omega
  | false => simp

theorem unpackSign_ofQuotient (negative : Bool) (a d : ℕ) :
    Sign.ofBitVec (unpackSign (bits (ofQuotient negative a d))) =
      if negative then .negative else .positive := by
  have hle := magnitudePattern_le (a <<< 1074) d
  have hsign : (unpackSign (bits (ofQuotient negative a d))).toNat = if negative then 1 else 0 := by
    change (BitVec.extractLsb 63 63 (ofQuotient negative a d).toBits.toBitVec).toNat = _
    rw [BitVec.extractLsb_toNat, Nat.shiftRight_eq_div_pow]
    change (ofQuotient negative a d).toBits.toNat / 2 ^ 63 % 2 = _
    rw [toBits_ofQuotient]
    unfold infinityPattern binade at hle
    unfold signWeight
    cases negative <;> simp <;> omega
  generalize unpackSign (bits (ofQuotient negative a d)) = b at hsign
  cases negative with
  | true =>
    have hone : b = 1#1 := BitVec.eq_of_toNat_eq hsign
    rw [hone]
    rfl
  | false =>
    have hzero : b = 0#1 := BitVec.eq_of_toNat_eq hsign
    rw [hzero]
    rfl

/-- The pattern of a natural number of units holds its 53 rounded digits and their place. -/
theorem exists_magnitudePattern {a : ℕ} (hspacing : spacing a 1 ≠ 0)
    (hfinite : magnitudePattern a 1 < infinityPattern) :
    ∃ r, 2 ^ 52 ≤ r ∧ r ≤ 2 ^ 53 ∧ magnitudePattern a 1 = spacing a 1 * binade + r ∧
      |(r * 2 ^ spacing a 1 : ℚ) - a| ≤ a / 2 ^ 51 := by
  have hpos : 0 < 1 <<< spacing a 1 := by
    rw [Nat.shiftLeft_eq]
    positivity
  have hlow := le_of_spacing one_pos hspacing
  refine ⟨roundHalfEven a (1 <<< spacing a 1), le_roundHalfEven hpos hlow,
    roundHalfEven_le hpos (lt_of_spacing one_pos).le, ?_, ?_⟩
  · unfold magnitudePattern at hfinite ⊢
    dsimp only at hfinite ⊢
    omega
  · obtain ⟨hupper, hlower⟩ := roundHalfEven_bounds hpos a
    generalize roundHalfEven a (1 <<< spacing a 1) = r at *
    rw [Nat.shiftLeft_eq, one_mul] at *
    have hbelow : (2 * r * 2 ^ spacing a 1 : ℚ) ≤ 2 * a + 2 ^ spacing a 1 := by
      have hle : 2 * r * 2 ^ spacing a 1 ≤ 2 * a + 2 ^ spacing a 1 := by omega
      exact_mod_cast hle
    have habove : (2 * a : ℚ) ≤ 2 * r * 2 ^ spacing a 1 + 2 ^ spacing a 1 := by
      have hle : 2 * a ≤ 2 * r * 2 ^ spacing a 1 + 2 ^ spacing a 1 := by omega
      exact_mod_cast hle
    have hulp : (2 ^ 52 * 2 ^ spacing a 1 : ℚ) ≤ a := by exact_mod_cast hlow
    rw [abs_le]
    constructor <;> linarith

theorem isRoundedFrom_unpacked_ofInt {z : ℤ} (hz : z.natAbs ≤ 2 ^ 64) :
    IsRoundedFrom (-52) 65 z (unpacked (ofInt z)) := by
  rcases eq_or_ne z 0 with rfl | hne
  · have hbits : bits (ofInt 0) = 0#64 := rfl
    have hzero : unpack Format.binary64 0#64 = .zero .positive := rfl
    rw [unpacked, hbits, hzero]
    exact ⟨trivial, by simp [value]⟩
  · refine ⟨(isNormalFrom_unpacked_ofInt hne hz).isRanged (isBelow_unpacked_ofInt hz), ?_⟩
    have hexponent := le_unpackExponent_ofInt hne
    have hfinite := (unpackExponent_ofInt_le hz).trans_lt (by decide : 1087 < 2047)
    rw [unpacked, value_unpack (by omega) hfinite]
    unfold ofInt at *
    rw [unpackExponent_ofQuotient] at hexponent hfinite ⊢
    rw [unpackMantissa_ofQuotient, unpackSign_ofQuotient]
    have hplace : spacing (z.natAbs <<< 1074) 1 ≠ 0 := by
      unfold spacing
      rw [Nat.div_one, log2_shiftLeft (by omega)]
      omega
    obtain ⟨r, hlow, hhigh, hpattern, herror⟩ := exists_magnitudePattern hplace (by
      unfold infinityPattern
      exact (Nat.div_lt_iff_lt_mul (by decide)).1 hfinite)
    rw [hpattern, pattern_value hlow hhigh]
    have hsigned : (z : ℚ) = factor (if decide (z < 0) then .negative else .positive) *
        z.natAbs := by
      by_cases hneg : z < 0
      · simp [hneg, factor, abs_of_neg]
      · simp [hneg, factor, abs_of_nonneg (not_lt.1 hneg)]
    have hunit : (0 : ℚ) < 2 ^ 1074 := pow_pos two_pos _
    rw [cast_shiftLeft] at herror
    rw [hsigned, ← mul_sub, abs_mul, abs_mul, abs_factor, one_mul, one_mul, Nat.abs_cast,
      zpow_sub₀ two_ne_zero, zpow_natCast, zpow_ofNat]
    generalize (2 : ℚ) ^ 1074 = unit at *
    calc |(r : ℚ) * (2 ^ spacing (z.natAbs <<< 1074) 1 / unit) - z.natAbs| =
          |r * 2 ^ spacing (z.natAbs <<< 1074) 1 - z.natAbs * unit| / unit := by
          rw [← abs_of_pos hunit, ← abs_div, abs_of_pos hunit]
          congr 1
          field_simp
      _ ≤ z.natAbs * unit / 2 ^ 51 / unit := div_le_div_of_nonneg_right herror hunit.le
      _ = z.natAbs / 2 ^ 51 := by field_simp

theorem value_abs (u : UnpackedFloat) : value u.abs = |value u| := by
  cases u with
  | finite s m e hm =>
    have hpos : (0 : ℚ) < 2 ^ e := zpow_pos two_pos e
    rw [value, abs_mul, abs_factor, one_mul, abs_of_nonneg (by positivity)]
    exact one_mul _
  | infinity | notANumber | zero => exact abs_zero.symm

theorem mul_zpow_lt_mul_zpow {m n : ℕ} {e f : ℤ} (hm : m.log2 = 52) (hn : n.log2 = 52)
    (h : e < f) : (m * 2 ^ e : ℚ) < n * 2 ^ f := by
  have hlow : (2 ^ 52 : ℚ) ≤ n := by exact_mod_cast (mantissa_bounds hn).1
  have hhigh : (m : ℚ) < 2 ^ 53 := by exact_mod_cast (mantissa_bounds hm).2
  have hpos : (0 : ℚ) < 2 ^ e := zpow_pos two_pos e
  calc (m * 2 ^ e : ℚ) < 2 ^ 53 * 2 ^ e := mul_lt_mul_of_pos_right hhigh hpos
    _ = 2 ^ 52 * 2 ^ (e + 1) := by
        rw [zpow_add_one₀ two_ne_zero]
        ring
    _ ≤ n * 2 ^ f := by
        gcongr
        · norm_num
        · omega

theorem lt_finite_iff {m n : ℕ} {e f : ℤ} (hm : 0 < m) (hn : 0 < n) (hmdigits : m.log2 = 52)
    (hndigits : n.log2 = 52) :
    UnpackedFloat.lt (.finite .positive m e hm) (.finite .positive n f hn) = true ↔
      (m * 2 ^ e : ℚ) < n * 2 ^ f := by
  have hpos : (0 : ℚ) < 2 ^ f := zpow_pos two_pos f
  rcases lt_trichotomy e f with hlt | rfl | hgt
  · refine iff_of_true ?_ (mul_zpow_lt_mul_zpow hmdigits hndigits hlt)
    simp [UnpackedFloat.lt, UnpackedFloat.compare, Int.compare_eq_lt.2 hlt]
  · rw [mul_lt_mul_iff_left₀ hpos, Nat.cast_lt, ← Nat.compare_eq_lt]
    simp [UnpackedFloat.lt, UnpackedFloat.compare]
  · refine iff_of_false ?_ (mul_zpow_lt_mul_zpow hndigits hmdigits hgt).not_gt
    simp [UnpackedFloat.lt, UnpackedFloat.compare, Int.compare_eq_gt.2 hgt]

/-- The tolerance is the double next above its decimal. -/
theorem toRat_tolerance_bounds : 1 / 10 ^ 5 < toRat Number.tolerance ∧
    toRat Number.tolerance ≤ 1 / 10 ^ 5 + 1 / 10 ^ 5 / 2 ^ 53 := by
  rw [toRat, unpacked_tolerance]
  simp only [value, factor]
  norm_num

theorem abs_lt_tolerance_iff (hl : -1074 ≤ l) (hk : k ≤ 1024) (hx : IsRanged l k (unpacked x)) :
    x.abs < Number.tolerance ↔ |toRat x| < toRat Number.tolerance := by
  rw [lt_iff, unpacked_abs hl hk hx, toRat, toRat, ← value_abs, unpacked_tolerance]
  match unpacked x, hx with
  | .zero s, _ =>
    refine iff_of_true rfl ?_
    simp only [UnpackedFloat.abs, value, factor]
    positivity
  | .finite s m e hm, ⟨hdigits, _, _⟩ =>
    simp only [UnpackedFloat.abs, value, factor, one_mul]
    exact lt_finite_iff hm (by decide) hdigits (by decide)

end SchoolAlgebra.Binary64
