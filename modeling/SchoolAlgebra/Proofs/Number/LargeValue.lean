import Mathlib
import SchoolAlgebra.Proofs.Number.Fraction.MixedNumber
import SchoolAlgebra.Proofs.Number.NearValue

/-!
# Doubles of large fractions

A product with one does not change a finite double. The double of a fraction with a whole part is at
least one in magnitude, and so it does not count as zero.
-/

namespace SchoolAlgebra.Binary64

open Float.Model (Format UnpackedFloat totalExponent)
open Float.Model.UnpackedFloat

variable {k l : ℤ} {u v : UnpackedFloat} {x y : Float}

theorem log2_div_two_pow {m n : ℕ} (hm : m ≠ 0) (hn : n ≤ m.log2) :
    (m / 2 ^ n).log2 = m.log2 - n := by
  obtain ⟨hlower, hupper⟩ := (Nat.log2_eq_iff hm).1 rfl
  have hsplit : m.log2 - n + n = m.log2 := Nat.sub_add_cancel hn
  have hquotient : 2 ^ (m.log2 - n) ≤ m / 2 ^ n := by
    rwa [Nat.le_div_iff_mul_le (Nat.two_pow_pos n), ← pow_add, hsplit]
  rw [Nat.log2_eq_iff (Nat.ne_of_gt (Nat.lt_of_lt_of_le (Nat.two_pow_pos _) hquotient))]
  refine ⟨hquotient, ?_⟩
  rwa [Nat.div_lt_iff_lt_mul (Nat.two_pow_pos n), ← pow_add, add_right_comm, hsplit]

theorem log2_le_log2 {m n : ℕ} (hm : m ≠ 0) (h : m ≤ n) : m.log2 ≤ n.log2 :=
  (Nat.le_log2 (by omega)).2 ((Nat.log2_self_le hm).trans h)

/-- A mantissa behind its leading digit. -/
theorem log2_leading_append (m : BitVec 52) : (1#1 ++ m).toNat.log2 = 52 := by
  have hm : m.toNat < 2 ^ 52 := m.isLt
  rw [BitVec.toNat_append, ← Nat.shiftLeft_add_eq_or_of_lt hm]
  change (2 ^ 52 + m.toNat).log2 = 52
  rw [Nat.log2_eq_iff (by omega)]
  omega

theorem unpackExponent_lt (hx : IsBelow k (unpacked x)) :
    (unpackExponent (bits x)).toNat < 2047 := by
  have hlt : (unpackExponent (bits x)).toNat < 2 ^ 11 := (unpackExponent (bits x)).isLt
  by_contra hge
  have hinfinite : unpackExponent (bits x) = -1#_ := by
    apply BitVec.eq_of_toNat_eq
    change (unpackExponent (bits x)).toNat = 2047
    omega
  unfold unpacked unpack at hx
  dsimp only at hx
  rw [if_pos hinfinite] at hx
  split at hx <;> exact hx

/-- Whether the number taken apart is infinite, or has 53 digits of weight `2 ^ l` at least. -/
def IsNormalFrom (l : ℤ) : UnpackedFloat → Prop
  | .infinity _ => True
  | .finite _ m e _ => m.log2 = 52 ∧ l ≤ e
  | _ => False

/-- Whether the number taken apart is zero or positive. -/
def IsNonnegative : UnpackedFloat → Prop
  | .zero _ | .infinity .positive | .finite .positive .. => True
  | _ => False

/-- A number of 53 digits or more is shifted to 53 digits. -/
theorem shiftToTargetExponent_of_le {m : ℕ} {e : ℤ} (accuracy : Accuracy) (hdigits : 52 ≤ m.log2)
    (h : -1021 ≤ totalExponent m e) :
    (shiftToTargetExponent Format.binary64 m e accuracy).1.mantissa = m / 2 ^ (m.log2 - 52) ∧
      (shiftToTargetExponent Format.binary64 m e accuracy).2 = e + (m.log2 - 52 : ℕ) := by
  have hshift : (max (totalExponent m e - 53) (-1074) - e).toNat = m.log2 - 52 := by
    unfold totalExponent at h ⊢
    omega
  unfold shiftToTargetExponent shiftToExponent
  simp only [mantissa_shiftRight, mantissa_ofMantissaAndAccuracy, targetExponent_binary64, hshift,
    and_self]

theorem le_roundedMantissa (em : ExtendedMantissa) : em.mantissa ≤ em.roundedMantissa := by
  unfold ExtendedMantissa.roundedMantissa
  match em.accuracy with
  | .exact | .inexact .lt | .inexact .eq | .inexact .gt => simp [Accuracy.roundToNearestEven]

/-- Digits beyond the fifty-third are dropped. -/
theorem log2_div_digits {m : ℕ} (hdigits : 52 ≤ m.log2) : (m / 2 ^ (m.log2 - 52)).log2 = 52 := by
  have hm : m ≠ 0 := by
    rintro rfl
    simp at hdigits
  rw [log2_div_two_pow hm (Nat.sub_le _ _)]
  omega

/-- Rounding may carry into one more digit, which the second shift takes away again. -/
theorem isNormalFrom_roundWithAccuracy (hl : -1074 ≤ l) (s : Sign) {m : ℕ} {e : ℤ}
    (accuracy : Accuracy) (hdigits : 52 ≤ m.log2) (h : l + 53 ≤ totalExponent m e) :
    IsNormalFrom l (roundWithAccuracy Format.binary64 s m e accuracy) := by
  have hquotient := log2_div_digits hdigits
  have hnormal : -1021 ≤ totalExponent m e := by omega
  obtain ⟨hmantissa, hexponent⟩ := shiftToTargetExponent_of_le accuracy hdigits hnormal
  have hle := le_roundedMantissa (shiftToTargetExponent Format.binary64 m e accuracy).1
  rw [hmantissa] at hle
  unfold roundWithAccuracy
  generalize shiftToTargetExponent Format.binary64 m e accuracy = first at hle hexponent ⊢
  have hrounded : 52 ≤ first.1.roundedMantissa.log2 := by
    have hne : m / 2 ^ (m.log2 - 52) ≠ 0 := by
      intro hzero
      simp [hzero] at hquotient
    exact hquotient ▸ log2_le_log2 hne hle
  have hplace : l + 53 ≤ totalExponent first.1.roundedMantissa first.2 := by
    unfold totalExponent at h ⊢
    omega
  have hnormal' : -1021 ≤ totalExponent first.1.roundedMantissa first.2 := by omega
  obtain ⟨hmantissa', hexponent'⟩ := shiftToTargetExponent_of_le .exact hrounded hnormal'
  have hquotient' := log2_div_digits hrounded
  rw [← hmantissa'] at hquotient'
  dsimp only
  rw [dif_neg]
  · refine ⟨hquotient', ?_⟩
    unfold totalExponent at h
    omega
  · intro hzero
    simp [hzero] at hquotient'

theorem isNormalFrom_round (hl : -1074 ≤ l) (s : Sign) {m : ℕ} {e : ℤ} (hm : m ≠ 0)
    (h : l + 53 ≤ totalExponent m e) :
    IsNormalFrom l (UnpackedFloat.round Format.binary64 s m e) := by
  have htarget : Format.binary64.targetExponent (totalExponent m e) = totalExponent m e - 53 := by
    rw [targetExponent_binary64]
    omega
  unfold UnpackedFloat.round decreaseExponent
  dsimp only
  rw [htarget]
  apply isNormalFrom_roundWithAccuracy hl
  · rw [log2_shiftLeft hm]
    unfold totalExponent
    omega
  · unfold totalExponent at h ⊢
    rw [log2_shiftLeft hm]
    omega

/-- A number that is zero or positive does not make a positive one smaller. -/
theorem IsNormalFrom.add (hl : -1074 ≤ l) (hu : IsNormalFrom l u) (hupos : IsNonnegative u)
    (hv : IsNonnegative v) : IsNormalFrom l (add Format.binary64 u v) := by
  match u, v, hu, hupos, hv with
  | .infinity .positive, .infinity .positive, _, _, _ => trivial
  | .infinity .positive, .zero _, _, _, _ => trivial
  | .infinity .positive, .finite .positive .., _, _, _ => trivial
  | .finite .positive .., .infinity .positive, _, _, _ => trivial
  | .finite .positive .., .zero _, hu, _, _ => exact hu
  | .finite .positive m e hm, .finite .positive n f hn, hu, _, _ =>
    obtain ⟨hdigits, he⟩ := hu
    have hshifted : m <<< (e - min e f).toNat ≠ 0 := by
      rw [Nat.shiftLeft_eq]
      exact (Nat.mul_pos hm (Nat.two_pow_pos _)).ne'
    have hlog := log2_le_log2 hshifted (Nat.le_add_right _ (n <<< (f - min e f).toNat))
    rw [log2_shiftLeft hm.ne', hdigits] at hlog
    unfold UnpackedFloat.add decreaseExponent
    dsimp only [Sign.apply]
    rw [← Int.natCast_add]
    generalize m <<< (e - min e f).toNat + n <<< (f - min e f).toNat = sum at hlog ⊢
    have hsum : 0 < sum := by
      by_contra hzero
      simp [Nat.eq_zero_of_not_pos hzero] at hlog
    unfold UnpackedFloat.normalize
    rw [Int.compare_eq_gt.2 (by omega)]
    apply isNormalFrom_round hl _ hsum.ne'
    unfold totalExponent
    omega

theorem IsNormalFrom.neg (h : IsNormalFrom l u) : IsNormalFrom l u.neg := by
  cases u <;> exact h

theorem IsNormalFrom.abs (h : IsNormalFrom l u) : IsNormalFrom l u.abs := by
  cases u <;> exact h

theorem unpackSign_packComponents (s : Sign) (e : BitVec Format.binary64.exponentBits)
    (m : BitVec Format.binary64.mantissaBitsWithoutImplicit) :
    Sign.ofBitVec (unpackSign (packComponents Format.binary64 s e m)) = s := by
  have hm : m.toNat < 2 ^ 52 := m.isLt
  have he : e.toNat < 2 ^ 11 := e.isLt
  have hsign : unpackSign (packComponents Format.binary64 s e m) = s.toBitVec := by
    apply BitVec.eq_of_toNat_eq
    change (BitVec.extractLsb 63 63 (packComponents Format.binary64 s e m)).toNat = _
    rw [BitVec.extractLsb_toNat, toNat_packComponents, Nat.shiftRight_eq_div_pow]
    cases s with
    | negative =>
      change (1 * 2 ^ 63 + e.toNat * 2 ^ 52 + m.toNat) / 2 ^ 63 % 2 = 1
      omega
    | positive =>
      change (0 * 2 ^ 63 + e.toNat * 2 ^ 52 + m.toNat) / 2 ^ 63 % 2 = 0
      omega
  rw [hsign]
  cases s <;> rfl

/-- Positive components that are not those of NaN. -/
theorem isNonnegative_unpack_packComponents {e : BitVec Format.binary64.exponentBits}
    {m : BitVec Format.binary64.mantissaBitsWithoutImplicit} (h : e ≠ -1#_) :
    IsNonnegative (unpack Format.binary64 (packComponents Format.binary64 .positive e m)) := by
  unfold unpack
  simp only [unpackExponent_packComponents, unpackMantissa_packComponents,
    unpackSign_packComponents, if_neg h]
  split
  · split <;> trivial
  · trivial

/-- An exponent that is not packed as infinity. -/
theorem toNat_biasedExponent {e : ℤ} (h : ¬2 ^ Format.binary64.exponentBits ≤
    (e + Format.binary64.exponentBias + Format.binary64.mantissaBitsWithoutImplicit).toNat + 1) :
    BitVec.toNat (.ofNat Format.binary64.exponentBits
      (e + Format.binary64.exponentBias + Format.binary64.mantissaBitsWithoutImplicit).toNat) =
        (e + 1075).toNat ∧ (e + 1075).toNat < 2047 := by
  have hbias : e + (Format.binary64.exponentBias : ℤ) +
      Format.binary64.mantissaBitsWithoutImplicit = e + 1075 := by
    change e + 1023 + 52 = _
    omega
  rw [hbias] at h ⊢
  change ¬2048 ≤ _ at h
  rw [BitVec.toNat_ofNat]
  change _ % 2048 = _ ∧ _
  omega

theorem isNormalFrom_unpack {b : BitVec Format.binary64.numBits} {n : ℕ} (hpos : 1 ≤ n)
    (hb : n ≤ (unpackExponent b).toNat) (hfinite : (unpackExponent b).toNat < 2047) :
    IsNormalFrom (n - 1075) (unpack Format.binary64 b) := by
  unfold unpack
  dsimp only
  split
  · rename_i hinfinite
    have hexponent : (unpackExponent b).toNat = 2047 := congrArg BitVec.toNat hinfinite
    omega
  · split
    · rename_i hzero
      have hexponent : (unpackExponent b).toNat = 0 := congrArg BitVec.toNat hzero
      omega
    · refine ⟨log2_leading_append _, ?_⟩
      change (n : ℤ) - 1075 ≤ (unpackExponent b).toNat - 1075
      omega

theorem IsNonnegative.div (hu : IsNonnegative u) (hubelow : IsBelow k u) (hv : IsNonnegative v)
    (hvabove : EndsAbove l v) : IsNonnegative (UnpackedFloat.div Format.binary64 u v) := by
  match u, v, hu, hubelow, hv, hvabove with
  | .zero _, .finite .positive .., _, _, _, _ => trivial
  | .finite .positive .., .finite .positive .., _, _, _, _ =>
    unfold UnpackedFloat.div roundWithAccuracy
    dsimp only
    split <;> trivial

/-! ## Doubles and fractions -/

theorem isNonnegative_unpacked (hsign : x.toBits.toNat < signWeight)
    (hx : (unpackExponent (bits x)).toNat < 2047) : IsNonnegative (unpacked x) := by
  have hpositive : Sign.ofBitVec (unpackSign (bits x)) = .positive := by
    have hzero : unpackSign (bits x) = 0#1 := by
      apply BitVec.eq_of_toNat_eq
      change (BitVec.extractLsb 63 63 (bits x)).toNat = 0
      unfold signWeight at hsign
      rw [BitVec.extractLsb_toNat, Nat.shiftRight_eq_div_pow, toNat_bits]
      omega
    rw [hzero]
    rfl
  rw [unpacked, ← packComponents_unpack (bits x), hpositive]
  apply isNonnegative_unpack_packComponents
  intro hinfinite
  rw [hinfinite] at hx
  exact absurd hx (by decide)

theorem isNormalFrom_unpacked_ofInt {z : ℤ} (hne : z ≠ 0) (hz : z.natAbs ≤ 2 ^ 64) :
    IsNormalFrom (-52) (unpacked (ofInt z)) :=
  isNormalFrom_unpack (n := 1023) (by decide) (le_unpackExponent_ofInt hne)
    ((unpackExponent_ofInt_le hz).trans_lt (by decide))

theorem unpacked_tolerance :
    unpacked Number.tolerance = .finite .positive 0x14f8b588e368f1 (-69) (by decide) := by
  have hbits : bits Number.tolerance = 0x3ee4f8b588e368f1#64 := rfl
  rw [unpacked, hbits]
  rfl

theorem lt_iff : x < y ↔ UnpackedFloat.lt (unpacked x) (unpacked y) = true := by
  change decide (x.toModel < y.toModel) = true ↔ _
  rw [decide_eq_true_iff]
  rfl

end SchoolAlgebra.Binary64

namespace SchoolAlgebra

open Binary64 (IsNormalFrom IsNonnegative unpacked)

namespace Fraction

variable {f : Fraction}

end Fraction

namespace Number

end Number

end SchoolAlgebra
