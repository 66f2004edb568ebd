import Mathlib
import SchoolAlgebra.Proofs.Number.Rounding

/-!
# Magnitudes of doubles

A double is taken apart into a sign, a mantissa and an exponent. Sums and quotients of doubles of
limited magnitude stay limited, and limited numbers do not overflow when they are packed, so they
are finite.
-/

namespace SchoolAlgebra.Binary64

open Float.Model (Format UnpackedFloat totalExponent)
open Float.Model.UnpackedFloat

/-- Whether the number taken apart is finite and its magnitude below `2 ^ k`. -/
def IsBelow (k : ℤ) : UnpackedFloat → Prop
  | .zero _ => True
  | .finite _ m e _ => totalExponent m e ≤ k
  | _ => False

/-- Whether the number taken apart is finite and its last place has at least the weight `2 ^ l`. -/
def EndsAbove (l : ℤ) : UnpackedFloat → Prop
  | .finite _ _ e _ => l ≤ e
  | _ => False

variable {k k' l : ℤ} {u v : UnpackedFloat}

theorem IsBelow.mono (h : IsBelow k u) (hk : k ≤ k') : IsBelow k' u := by
  cases u with
  | zero => trivial
  | finite => exact le_trans h hk
  | infinity => exact h
  | notANumber => exact h

theorem IsBelow.neg (h : IsBelow k u) : IsBelow k u.neg := by
  cases u <;> exact h

/-- Below `2 ^ n`, the leading digit stands at most at place `n`. -/
theorem totalExponent_le {m n : ℕ} {e : ℤ} (hm : m < 2 ^ n) (hn : n ≠ 0) :
    totalExponent m e ≤ n + e := by
  have hlog : m.log2 < n := by
    rcases eq_or_ne m 0 with rfl | hne
    · rw [Nat.log2_zero]
      omega
    · exact (Nat.log2_lt hne).2 hm
  unfold totalExponent
  omega

theorem totalExponent_shiftLeft_le (m a : ℕ) (e : ℤ) :
    totalExponent (m <<< a) (e - a) ≤ totalExponent m e := by
  have hlt : m <<< a < 2 ^ (m.log2 + 1 + a) := by
    rw [Nat.shiftLeft_eq, pow_add]
    exact Nat.mul_lt_mul_of_pos_right Nat.lt_log2_self (Nat.two_pow_pos a)
  have hle := totalExponent_le (e := e - a) hlt (by omega)
  unfold totalExponent at hle ⊢
  omega

theorem totalExponent_div_le {m j : ℕ} (e : ℤ) (h : m / 2 ^ j ≠ 0) :
    totalExponent (m / 2 ^ j) (e + j) ≤ totalExponent m e := by
  have hm : m ≠ 0 := by
    rintro rfl
    simp at h
  have hj : j ≤ m.log2 := (Nat.le_log2 hm).2 (Nat.pos_of_ne_zero h |> Nat.div_pos_iff.1).2
  have hlt : m / 2 ^ j < 2 ^ (m.log2 + 1 - j) := by
    rw [Nat.div_lt_iff_lt_mul (Nat.two_pow_pos j), ← pow_add]
    have hexponent : m.log2 + 1 - j + j = m.log2 + 1 := by omega
    rw [hexponent]
    exact Nat.lt_log2_self
  have hle := totalExponent_le (e := e + j) hlt (by omega)
  unfold totalExponent at hle ⊢
  omega

/-! ## Rounding and arithmetic -/

theorem targetExponent_binary64 (t : ℤ) :
    Format.binary64.targetExponent t = max (t - 53) (-1074) := rfl

theorem mantissa_shiftRight (em : ExtendedMantissa) (n : ℕ) :
    (em >>> n).mantissa = em.mantissa / 2 ^ n := by
  induction n with
  | zero => exact (Nat.div_one _).symm
  | succ n ih =>
    change (em >>> n).mantissa / 2 = _
    rw [ih, Nat.div_div_eq_div_mul, pow_succ]

theorem mantissa_ofMantissaAndAccuracy (m : ℕ) (accuracy : Accuracy) :
    (ExtendedMantissa.ofMantissaAndAccuracy m accuracy).mantissa = m := by
  match accuracy with
  | .exact | .inexact .lt | .inexact .eq | .inexact .gt => rfl

theorem roundedMantissa_le (em : ExtendedMantissa) : em.roundedMantissa ≤ em.mantissa + 1 := by
  unfold ExtendedMantissa.roundedMantissa
  match em.accuracy with
  | .exact | .inexact .lt | .inexact .gt => simp [Accuracy.roundToNearestEven]
  | .inexact .eq =>
    simp only [Accuracy.roundToNearestEven]
    omega

/-- Rounding to the last place carries into at most one more place. -/
theorem totalExponent_rounded_le (hk : -1074 ≤ k) {m : ℕ} {e : ℤ} (accuracy : Accuracy)
    (h : totalExponent m e ≤ k) :
    totalExponent (shiftToTargetExponent Format.binary64 m e accuracy).1.roundedMantissa
      (shiftToTargetExponent Format.binary64 m e accuracy).2 ≤ k + 1 := by
  have hround := roundedMantissa_le
    (shiftToTargetExponent Format.binary64 m e accuracy).1
  unfold shiftToTargetExponent shiftToExponent at hround ⊢
  simp only [mantissa_shiftRight, mantissa_ofMantissaAndAccuracy, targetExponent_binary64]
    at hround ⊢
  generalize ExtendedMantissa.roundedMantissa _ = r at hround ⊢
  generalize hi : (max (totalExponent m e - 53) (-1074) - e).toNat = i at hround ⊢
  by_cases hzero : m / 2 ^ i = 0
  · have hr : r < 2 ^ 1 := by omega
    have hle := totalExponent_le (e := e + i) hr one_ne_zero
    unfold totalExponent at h hi hle ⊢
    omega
  · have hshifted := totalExponent_div_le e hzero
    have hr : r < 2 ^ ((m / 2 ^ i).log2 + 2) := by
      have hlt := Nat.lt_log2_self (n := m / 2 ^ i)
      rw [pow_succ _ (_ + 1)]
      generalize 2 ^ ((m / 2 ^ i).log2 + 1) = bound at hlt ⊢
      generalize m / 2 ^ i = quotient at hlt hround
      omega
    have hle := totalExponent_le (e := e + i) hr (by omega)
    unfold totalExponent at h hshifted hle ⊢
    omega

theorem isBelow_roundWithAccuracy (hk : -1074 ≤ k) (s : Sign) {m : ℕ} {e : ℤ}
    (accuracy : Accuracy) (h : totalExponent m e ≤ k) :
    IsBelow (k + 1) (roundWithAccuracy Format.binary64 s m e accuracy) := by
  have hrounded := totalExponent_rounded_le hk accuracy h
  unfold roundWithAccuracy
  generalize shiftToTargetExponent Format.binary64 m e accuracy = first at hrounded ⊢
  dsimp only
  split
  · trivial
  · rename_i hne
    unfold shiftToTargetExponent shiftToExponent at hne ⊢
    simp only [mantissa_shiftRight, mantissa_ofMantissaAndAccuracy] at hne ⊢
    exact (totalExponent_div_le _ hne).trans hrounded

theorem isBelow_round (hk : -1074 ≤ k) (s : Sign) {m : ℕ} {e : ℤ} (h : totalExponent m e ≤ k) :
    IsBelow (k + 1) (round Format.binary64 s m e) :=
  isBelow_roundWithAccuracy hk s .exact ((totalExponent_shiftLeft_le m _ e).trans h)

theorem isBelow_normalize (hk : -1074 ≤ k) {m : ℤ} {e : ℤ} (s : Sign)
    (h : totalExponent m.natAbs e ≤ k) :
    IsBelow (k + 1) (UnpackedFloat.normalize Format.binary64 m e s) := by
  unfold UnpackedFloat.normalize
  split
  · rename_i hlt
    have hlt := Int.compare_eq_lt.1 hlt
    have habs : (-m).toNat = m.natAbs := by omega
    rw [habs]
    exact isBelow_round hk _ h
  · trivial
  · rename_i hgt
    have hgt := Int.compare_eq_gt.1 hgt
    have habs : m.toNat = m.natAbs := by omega
    rw [habs]
    exact isBelow_round hk _ h

theorem natAbs_apply (s : Sign) (m : ℕ) : (s.apply m).natAbs = m := by
  cases s <;> simp [Sign.apply]

/-- A mantissa that is aligned to a place of less weight. -/
theorem shiftLeft_lt {m : ℕ} {e l : ℤ} (h : totalExponent m e ≤ k) (hl : l ≤ e) :
    m <<< (e - l).toNat < 2 ^ (k - l).toNat := by
  have hexponent : m.log2 + 1 + (e - l).toNat ≤ (k - l).toNat := by
    unfold totalExponent at h
    omega
  calc m <<< (e - l).toNat = m * 2 ^ (e - l).toNat := Nat.shiftLeft_eq _ _
    _ < 2 ^ (m.log2 + 1) * 2 ^ (e - l).toNat :=
        Nat.mul_lt_mul_of_pos_right Nat.lt_log2_self (Nat.two_pow_pos _)
    _ = 2 ^ (m.log2 + 1 + (e - l).toNat) := (pow_add _ _ _).symm
    _ ≤ 2 ^ (k - l).toNat := Nat.pow_le_pow_right two_pos hexponent

theorem isBelow_add (hk : -1074 ≤ k) (hu : IsBelow k u) (hv : IsBelow k v) :
    IsBelow (k + 2) (add Format.binary64 u v) := by
  match u, v, hu, hv with
  | .zero s, .zero t, _, _ =>
    unfold add
    dsimp only
    split <;> trivial
  | .zero _, .finite .., _, hv => exact IsBelow.mono hv (by omega)
  | .finite .., .zero _, hu, _ => exact IsBelow.mono hu (by omega)
  | .finite s m e hm, .finite t n f hn, hu, hv =>
    change totalExponent m e ≤ k at hu
    change totalExponent n f ≤ k at hv
    have hm' := shiftLeft_lt hu (min_le_left e f)
    have hn' := shiftLeft_lt hv (min_le_right e f)
    have hsum : (s.apply ↑(m <<< (e - min e f).toNat) +
        t.apply ↑(n <<< (f - min e f).toNat)).natAbs < 2 ^ ((k - min e f).toNat + 1) := by
      have hle := Int.natAbs_add_le (s.apply ↑(m <<< (e - min e f).toNat))
        (t.apply ↑(n <<< (f - min e f).toNat))
      rw [natAbs_apply, natAbs_apply] at hle
      rw [pow_succ]
      omega
    have hplace := totalExponent_le (e := min e f) hsum (by omega)
    have hbelow := isBelow_normalize (k := k + 1) (by omega) .positive (hplace.trans (by
      unfold totalExponent at hu
      omega))
    exact hbelow.mono (by omega)

theorem isBelow_div (hk : -1074 ≤ k - l) (hu : IsBelow k u) (hv : EndsAbove l v) :
    IsBelow (k - l + 1) (div Format.binary64 u v) := by
  match u, v, hu, hv with
  | .zero s, .finite .., _, _ => trivial
  | .finite s m e hm, .finite t n f hn, hu, hv =>
    change totalExponent m e ≤ k at hu
    change l ≤ f at hv
    unfold totalExponent at hu
    have hplace : totalExponent m (e - f) ≤ k - l := by
      unfold totalExponent
      omega
    unfold div divCore
    dsimp only
    generalize htarget : min (e - f) (Format.binary64.targetExponent _) = target
    have hle : target ≤ e - f := htarget ▸ min_le_left _ _
    have hlt := (Nat.div_le_self _ n).trans_lt (shiftLeft_lt hplace hle)
    have hquotient := totalExponent_le (e := target) hlt (by omega)
    exact isBelow_roundWithAccuracy hk _ _ (hquotient.trans (by omega))

theorem isBelow_unpack {b : BitVec Format.binary64.numBits} {n : ℕ}
    (hb : (unpackExponent b).toNat ≤ n) (hpos : 1 ≤ n) (hn : n < 2047) :
    IsBelow (n - 1022) (unpack Format.binary64 b) := by
  have hmantissa : (unpackMantissa b).toNat < 2 ^ 52 := (unpackMantissa b).isLt
  have hbias : ((Format.binary64.exponentBias : ℤ) +
      Format.binary64.mantissaBitsWithoutImplicit) = 1075 := rfl
  unfold unpack
  dsimp only
  split
  · rename_i hinfinite
    have hexponent : (unpackExponent b).toNat = 2047 := congrArg BitVec.toNat hinfinite
    omega
  · split
    · split
      · trivial
      · rename_i hzero hne
        have hle := totalExponent_le (e := -1074) hmantissa (by decide)
        have hexponent : (unpackExponent b).toNat = 0 := congrArg BitVec.toNat hzero
        change totalExponent _ (((unpackExponent b).toNat : ℤ) - _ + 1) ≤ _
        rw [hexponent, hbias]
        exact hle.trans (by omega)
    · have hsum : (1#1 ++ unpackMantissa b).toNat < 2 ^ 53 := by
        exact (1#1 ++ unpackMantissa b).isLt
      have hle := totalExponent_le (e := (unpackExponent b).toNat - 1075) hsum (by decide)
      exact hle.trans (by omega)

theorem endsAbove_unpack {b : BitVec Format.binary64.numBits} {n : ℕ}
    (hb : n ≤ (unpackExponent b).toNat) (hpos : 1 ≤ n) (hfinite : (unpackExponent b).toNat < 2047) :
    EndsAbove (n - 1075) (unpack Format.binary64 b) := by
  unfold unpack
  dsimp only
  split
  · rename_i hinfinite
    have hexponent : (unpackExponent b).toNat = 2047 := congrArg BitVec.toNat hinfinite
    omega
  · split
    · rename_i hzero
      have hexponent : (unpackExponent b).toNat = 0 := congrArg BitVec.toNat hzero
      omega
    · change (n : ℤ) - 1075 ≤ (unpackExponent b).toNat - 1075
      omega

theorem isBelow_unpack_pack (hlow : -1021 ≤ k) (hhigh : k ≤ 971) (h : IsBelow k u) :
    IsBelow k (unpack Format.binary64 (pack Format.binary64 u)) := by
  cases u with
  | zero s => cases s <;> trivial
  | infinity => exact h.elim
  | notANumber => exact h.elim
  | finite s m e hm =>
    change totalExponent m e ≤ k at h
    unfold totalExponent at h
    have hbias : e + (Format.binary64.exponentBias : ℤ) +
      Format.binary64.mantissaBitsWithoutImplicit = e + 1075 := by
      change e + 1023 + 52 = _
      omega
    unfold pack
    dsimp only
    rw [hbias, if_neg (by change ¬2048 ≤ _; omega)]
    split
    · rename_i hnormal
      change m.log2 + 1 = 53 at hnormal
      have hexponent : (BitVec.ofNat 11 (e + 1075).toNat).toNat ≤ (k + 1022).toNat := by
        rw [BitVec.toNat_ofNat]
        exact (Nat.mod_le _ _).trans (by omega)
      have hbelow := isBelow_unpack (n := (k + 1022).toNat)
        (b := packComponents Format.binary64 s (BitVec.ofNat _ (e + 1075).toNat) (BitVec.ofNat _ m))
        (by rw [unpackExponent_packComponents]; exact hexponent) (by omega) (by omega)
      exact hbelow.mono (by omega)
    · have hbelow := isBelow_unpack (n := 1)
        (b := packComponents Format.binary64 s 0#_ (BitVec.ofNat _ m))
        (by rw [unpackExponent_packComponents]; decide) le_rfl (by decide)
      exact hbelow.mono (by omega)

/-! ## Doubles -/

section doubles

variable {x y : Float}

/-- The bits of the double. -/
def bits (x : Float) : BitVec Format.binary64.numBits := x.toModel.toBits.toBitVec

/-- The double taken apart. -/
def unpacked (x : Float) : UnpackedFloat := unpack Format.binary64 (bits x)

theorem toNat_bits (x : Float) : (bits x).toNat = x.toBits.toNat := rfl

theorem bits_add (x y : Float) :
    bits (x + y) = pack Format.binary64 (add Format.binary64 (unpacked x) (unpacked y)) := rfl

theorem bits_neg (x : Float) : bits (-x) = pack Format.binary64 (unpacked x).neg := rfl

theorem isBelow_unpacked_add (hlow : -1021 ≤ k) (hhigh : k ≤ 969) (hx : IsBelow k (unpacked x))
    (hy : IsBelow k (unpacked y)) : IsBelow (k + 2) (unpacked (x + y)) :=
  isBelow_unpack_pack (by omega) (by omega) (isBelow_add (by omega) hx hy)

theorem isBelow_unpacked_div (hlow : -1021 ≤ k - l) (hhigh : k - l ≤ 970)
    (hx : IsBelow k (unpacked x)) (hy : EndsAbove l (unpacked y)) :
    IsBelow (k - l + 1) (unpacked (x / y)) :=
  isBelow_unpack_pack (by omega) (by omega) (isBelow_div (by omega) hx hy)

theorem isBelow_unpacked_neg (hlow : -1021 ≤ k) (hhigh : k ≤ 971) (hx : IsBelow k (unpacked x)) :
    IsBelow k (unpacked (-x)) :=
  isBelow_unpack_pack hlow hhigh hx.neg

/-- A finite double minus itself is zero. -/
theorem sub_self_of_isBelow (hx : IsBelow k (unpacked x)) : x - x = 0 := by
  have hzero : sub Format.binary64 (unpacked x) (unpacked x) = .zero .positive := by
    match unpacked x, hx with
    | .zero .positive, _ | .zero .negative, _ => rfl
    | .finite s m e hm, _ =>
      unfold sub
      simp only [sub_self]
      rfl
  change Float.ofModel (Float.Model.pack (sub Format.binary64 (unpacked x) (unpacked x))) = _
  rw [hzero]
  rfl

end doubles

theorem exists_pack_eq_packComponents (hu : u ≠ .notANumber) :
    ∃ s e m, pack Format.binary64 u = packComponents Format.binary64 s e m ∧
      pack Format.binary64 u.neg = packComponents Format.binary64 (-s) e m := by
  cases u with
  | notANumber => exact absurd rfl hu
  | infinity s => exact ⟨s, _, _, rfl, rfl⟩
  | zero s => exact ⟨s, _, _, rfl, rfl⟩
  | finite s m e hm =>
    unfold neg pack
    dsimp only
    split
    · exact ⟨s, _, _, rfl, rfl⟩
    · split
      · exact ⟨s, _, _, rfl, rfl⟩
      · exact ⟨s, _, _, rfl, rfl⟩

theorem toNat_packComponents (s : Sign) (e : BitVec Format.binary64.exponentBits)
    (m : BitVec Format.binary64.mantissaBitsWithoutImplicit) :
    (packComponents Format.binary64 s e m).toNat =
      s.toBitVec.toNat * 2 ^ 63 + e.toNat * 2 ^ 52 + m.toNat := by
  have hm : m.toNat < 2 ^ 52 := m.isLt
  have he : e.toNat < 2 ^ 11 := e.isLt
  unfold packComponents
  rw [BitVec.toNat_append, BitVec.toNat_append, ← Nat.shiftLeft_add_eq_or_of_lt hm,
    ← Nat.shiftLeft_add_eq_or_of_lt he, Nat.shiftLeft_eq, Nat.shiftLeft_eq]
  change (s.toBitVec.toNat * 2 ^ 11 + e.toNat) * 2 ^ 52 + m.toNat = _
  omega

section finite

variable {x : Float} (hx : (unpackExponent (bits x)).toNat < 2047)
include hx

theorem pack_unpacked : pack Format.binary64 (unpacked x) = bits x := by
  apply pack_unpack
  intro hinfinite
  rw [hinfinite] at hx
  exact absurd hx (by decide)

theorem unpacked_ne_notANumber : unpacked x ≠ .notANumber := by
  unfold unpacked unpack
  dsimp only
  rw [if_neg]
  · split
    · split <;> simp
    · simp
  · intro hinfinite
    rw [hinfinite] at hx
    exact absurd hx (by decide)

/-- The opposite sets the sign bit, if it is not set. -/
theorem toBits_neg (hsign : x.toBits.toNat < signWeight) :
    (-x).toBits.toNat = signWeight + x.toBits.toNat := by
  obtain ⟨s, e, m, hpack, hneg⟩ := exists_pack_eq_packComponents (unpacked_ne_notANumber hx)
  rw [pack_unpacked hx] at hpack
  have hpositive := congrArg BitVec.toNat hpack
  have hnegative := congrArg BitVec.toNat ((bits_neg x).trans hneg)
  rw [toNat_bits, toNat_packComponents] at hpositive hnegative
  unfold signWeight at hsign ⊢
  cases s with
  | negative =>
    have hone : Sign.negative.toBitVec.toNat = 1 := rfl
    rw [hone] at hpositive
    omega
  | positive =>
    have hzero : Sign.positive.toBitVec.toNat = 0 := rfl
    have hone : (-Sign.positive).toBitVec.toNat = 1 := rfl
    rw [hzero] at hpositive
    rw [hone] at hnegative
    omega

end finite

theorem unpackExponent_eq (x : Float) :
    (unpackExponent (bits x)).toNat = x.toBits.toNat / binade % 2 ^ 11 := by
  change (BitVec.extractLsb 62 52 x.toBits.toBitVec).toNat = _
  rw [BitVec.extractLsb_toNat, Nat.shiftRight_eq_div_pow]
  rfl

theorem unpackExponent_ofQuotient (negative : Bool) (a d : ℕ) :
    (unpackExponent (bits (ofQuotient negative a d))).toNat =
      magnitudePattern (a <<< 1074) d / binade := by
  have hle := magnitudePattern_le (a <<< 1074) d
  rw [unpackExponent_eq, toBits_ofQuotient]
  unfold infinityPattern binade at hle
  unfold binade signWeight
  cases negative <;> simp <;> omega

theorem unpackExponent_ofInt_le {z : ℤ} (hz : z.natAbs ≤ 2 ^ 64) :
    (unpackExponent (bits (ofInt z))).toNat ≤ 1087 := by
  have hword : magnitudePattern ((2 ^ 64) <<< 1074) 1 = 1087 * binade := by decide +kernel
  unfold ofInt
  rw [unpackExponent_ofQuotient, ← Nat.mul_div_cancel 1087 (by decide : 0 < binade), ← hword]
  exact Nat.div_le_div_right (magnitudePattern_natCast_mono hz)

theorem le_unpackExponent_ofInt {z : ℤ} (hz : z ≠ 0) :
    1023 ≤ (unpackExponent (bits (ofInt z))).toNat := by
  have hone : magnitudePattern (1 <<< 1074) 1 = 1023 * binade := by decide +kernel
  unfold ofInt
  rw [unpackExponent_ofQuotient, ← Nat.mul_div_cancel 1023 (by decide : 0 < binade), ← hone]
  exact Nat.div_le_div_right (magnitudePattern_natCast_mono (Int.natAbs_pos.2 hz))

theorem isBelow_unpacked_ofInt {z : ℤ} (hz : z.natAbs ≤ 2 ^ 64) :
    IsBelow 65 (unpacked (ofInt z)) :=
  isBelow_unpack (n := 1087) (unpackExponent_ofInt_le hz) (by decide) (by decide)

theorem endsAbove_unpacked_ofInt {z : ℤ} (hne : z ≠ 0) (hz : z.natAbs ≤ 2 ^ 64) :
    EndsAbove (-52) (unpacked (ofInt z)) :=
  endsAbove_unpack (n := 1023) (le_unpackExponent_ofInt hne) (by decide)
    ((unpackExponent_ofInt_le hz).trans_lt (by decide))

/-- Adding zero to the double of a natural number changes nothing. -/
theorem ofInt_add_zero {n : ℕ} (hn : n ≤ 2 ^ 64) : ofInt n + 0 = ofInt n := by
  rcases Nat.eq_zero_or_pos n with rfl | hpos
  · decide
  · have hle : (n : ℤ).natAbs ≤ 2 ^ 64 := by simpa using hn
    have hsum : add Format.binary64 (unpacked (ofInt n)) (unpacked 0) = unpacked (ofInt n) := by
      match unpacked (ofInt n), endsAbove_unpacked_ofInt (by omega) hle with
      | .finite .., _ => rfl
    have hpacked : pack Format.binary64 (unpacked (ofInt n)) = bits (ofInt n) :=
      pack_unpacked ((unpackExponent_ofInt_le hle).trans_lt (by decide))
    apply eq_of_toBits_eq
    rw [← toNat_bits, bits_add, hsum, hpacked, toNat_bits]

/-- The double of the opposite integer is the opposite double. -/
theorem neg_ofInt {n : ℕ} (hpos : 0 < n) (hn : n ≤ 2 ^ 64) : -ofInt n = ofInt (-n) := by
  have hexponent := (unpackExponent_ofInt_le (z := n) (by simpa using hn)).trans_lt
    (by decide : 1087 < 2047)
  have hpositive := toBits_ofInt_natCast n
  have hnegative : (ofInt (-n)).toBits.toNat = signWeight + magnitudePattern (n <<< 1074) 1 := by
    have hbits := toBits_ofQuotient true n 1
    simp only [if_true] at hbits
    have hsign : decide (-(n : ℤ) < 0) = true := by simpa using hpos
    rw [ofInt, hsign, Int.natAbs_neg]
    exact hbits
  have hlt : (ofInt n).toBits.toNat < signWeight := by
    rw [hpositive]
    exact lt_of_le_of_lt (magnitudePattern_le _ 1) (by decide)
  apply eq_of_toBits_eq
  rw [toBits_neg hexponent hlt, hpositive, hnegative]

end SchoolAlgebra.Binary64
