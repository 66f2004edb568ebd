import Mathlib
import SchoolAlgebra.Number.Binary64

/-!
# Rounding and the order of doubles

Packing restores every pattern that is not NaN, so a double made of a pattern up to that of infinity
has this pattern. Rounding is monotone: a greater quotient never has a smaller pattern. Therefore
the place of the nearest double in the total order does not descend as an integer grows.
-/

namespace SchoolAlgebra.Binary64

section packing

open Float.Model (Format)
open Float.Model.UnpackedFloat

variable {b : BitVec Format.binary64.numBits}

theorem toBitVec_ofBitVec (s : BitVec 1) : (Sign.ofBitVec s).toBitVec = s := by
  rcases s.eq_zero_or_eq_one with h | h
  · rw [h]
    rfl
  · rw [h]
    rfl

theorem packComponents_unpack (b : BitVec Format.binary64.numBits) :
    packComponents Format.binary64 (Sign.ofBitVec (unpackSign b)) (unpackExponent b)
      (unpackMantissa b) = b := by
  rw [packComponents, toBitVec_ofBitVec]
  apply BitVec.eq_of_getLsbD_eq
  intro i hi
  simp only [unpackSign, unpackExponent, unpackMantissa, BitVec.getLsbD_append,
    BitVec.getLsbD_cast, BitVec.extractLsb, BitVec.getLsbD_extractLsb']
  split
  · rename_i hmantissa
    simp
    omega
  · rename_i hmantissa
    split
    · rename_i hexponent
      have hindex : 52 + (i - 52) = i := by omega
      simp [hindex, hexponent]
    · rename_i hexponent
      have hlast : i = 63 := by
        change i < 64 at hi
        omega
      subst hlast
      rfl

theorem pack_subnormal (hexponent : unpackExponent b = 0#_)
    (hpos : 0 < (unpackMantissa b).toNat) :
    pack Format.binary64 (.finite (Sign.ofBitVec (unpackSign b)) (unpackMantissa b).toNat
      ((0 : ℤ) - (Format.binary64.exponentBias + Format.binary64.mantissaBitsWithoutImplicit) + 1)
      hpos) = b := by
  have hlt : (unpackMantissa b).toNat < 2 ^ 52 := (unpackMantissa b).isLt
  have hcomponents := packComponents_unpack b
  rw [hexponent] at hcomponents
  unfold pack
  dsimp only
  rw [if_neg, if_neg]
  · rw [BitVec.ofNat_toNat, BitVec.setWidth_eq]
    exact hcomponents
  · have hlog := (Nat.log2_lt hpos.ne').2 hlt
    change (unpackMantissa b).toNat.log2 + 1 ≠ 53
    omega
  · decide

theorem pack_normal (hexponent : unpackExponent b ≠ -1#_)
    (hpos : 0 < (1#1 ++ unpackMantissa b).toNat) :
    pack Format.binary64 (.finite (Sign.ofBitVec (unpackSign b)) (1#1 ++ unpackMantissa b).toNat
      ((unpackExponent b).toNat -
        (Format.binary64.exponentBias + Format.binary64.mantissaBitsWithoutImplicit)) hpos) =
      b := by
  have hmantissa : (unpackMantissa b).toNat < 2 ^ 52 := (unpackMantissa b).isLt
  have hlt : (unpackExponent b).toNat < 2 ^ 11 := (unpackExponent b).isLt
  have hsum : (1#1 ++ unpackMantissa b).toNat = 2 ^ 52 + (unpackMantissa b).toNat := by
    rw [BitVec.toNat_append, ← Nat.shiftLeft_add_eq_or_of_lt hmantissa]
    rfl
  have hbiased : ((unpackExponent b).toNat -
      ((Format.binary64.exponentBias : ℤ) + Format.binary64.mantissaBitsWithoutImplicit) +
        Format.binary64.exponentBias + Format.binary64.mantissaBitsWithoutImplicit).toNat =
      (unpackExponent b).toNat := by omega
  unfold pack
  dsimp only
  rw [hbiased, if_neg, if_pos]
  · rw [BitVec.ofNat_toNat, BitVec.setWidth_eq, hsum]
    have hcleared : BitVec.ofNat 52 (2 ^ 52 + (unpackMantissa b).toNat) = unpackMantissa b := by
      apply BitVec.eq_of_toNat_eq
      rw [BitVec.toNat_ofNat, Nat.add_mod_left, Nat.mod_eq_of_lt hmantissa]
    exact hcleared.symm ▸ packComponents_unpack b
  · have hlog : (2 ^ 52 + (unpackMantissa b).toNat).log2 = 52 := by
      rw [Nat.log2_eq_iff (by omega)]
      omega
    rw [hsum, hlog]
    rfl
  · intro hle
    apply hexponent
    apply BitVec.eq_of_toNat_eq
    change 2 ^ 11 ≤ _ at hle
    change (unpackExponent b).toNat = 2047
    omega

/-- Packing restores every pattern that is not NaN. -/
theorem pack_unpack (h : unpackExponent b = -1#_ → unpackMantissa b = 0#_) :
    pack Format.binary64 (unpack Format.binary64 b) = b := by
  have hcomponents := packComponents_unpack b
  unfold unpack
  dsimp only
  split
  · rename_i hinfinite
    rw [if_pos (h hinfinite)]
    rw [hinfinite, h hinfinite] at hcomponents
    exact hcomponents
  · rename_i hfinite
    split
    · rename_i hsmall
      split
      · rename_i hzero
        rw [hsmall, hzero] at hcomponents
        exact hcomponents
      · rename_i hnonzero
        have hpacked := pack_subnormal hsmall
          (Nat.pos_of_ne_zero fun h0 ↦ hnonzero (BitVec.toNat_inj.1 h0))
        rw [hsmall]
        exact hpacked
    · exact pack_normal hfinite _

theorem toBits_ofBits {n : ℕ} (hn : n < 2 ^ 64) (hpattern : n % signWeight ≤ infinityPattern) :
    (Float.ofBits (.ofNat n)).toBits.toNat = n := by
  have hword : (UInt64.ofNat n).toBitVec.toNat = n := Nat.mod_eq_of_lt hn
  change (UInt64.ofBitVec (pack Format.binary64 (unpack Format.binary64
    (UInt64.ofNat n).toBitVec))).toNat = n
  rw [pack_unpack]
  · exact hword
  · intro hinfinite
    have hexponent := congrArg BitVec.toNat hinfinite
    change (BitVec.extractLsb 62 52 (UInt64.ofNat n).toBitVec).toNat = 2047 at hexponent
    apply BitVec.eq_of_toNat_eq
    change (BitVec.extractLsb 51 0 (UInt64.ofNat n).toBitVec).toNat = 0
    rw [BitVec.extractLsb_toNat, hword, Nat.shiftRight_eq_div_pow] at hexponent ⊢
    norm_num [signWeight, infinityPattern, binade] at hexponent hpattern ⊢
    omega

end packing

/-! ## The total order -/

/-- A double is determined by its bits. -/
theorem eq_of_toBits_eq {x y : Float} (h : x.toBits.toNat = y.toBits.toNat) : x = y := by
  have hmodel : x.toModel = y.toModel := by
    cases hx : x.toModel
    cases hy : y.toModel
    rw [Float.Model.mk.injEq]
    have hword := UInt64.toNat_inj.1 h
    rwa [Float.toBits, Float.toBits, hx, hy] at hword
  cases x
  cases y
  exact congrArg Float.ofModel hmodel

/-- The total order separates all doubles. -/
theorem rank_injective {x y : Float} (h : rank x = rank y) : x = y := by
  have hx : x.toBits.toNat < 2 ^ 64 := x.toBits.toNat_lt
  have hy : y.toBits.toNat < 2 ^ 64 := y.toBits.toNat_lt
  apply eq_of_toBits_eq
  unfold rank hasSignBit pattern signWeight at h
  simp only [decide_eq_true_eq] at h
  split at h
  · split at h
    · omega
    · omega
  · split at h
    · omega
    · omega

theorem magnitudePattern_le (a d : ℕ) : magnitudePattern a d ≤ infinityPattern := min_le_left _ _

/-- The bits of a rounded quotient are its sign and its pattern. -/
theorem toBits_ofQuotient (negative : Bool) (a d : ℕ) :
    (ofQuotient negative a d).toBits.toNat =
      (if negative then signWeight else 0) + magnitudePattern (a <<< 1074) d := by
  have hle := magnitudePattern_le (a <<< 1074) d
  unfold ofQuotient
  generalize magnitudePattern (a <<< 1074) d = m at hle ⊢
  have hlt : m < signWeight := lt_of_le_of_lt hle (by decide)
  have htwice : signWeight + signWeight = 2 ^ 64 := by decide
  cases negative with
  | true =>
    have hmod : (signWeight + m) % signWeight = m := by
      rw [Nat.add_mod_left, Nat.mod_eq_of_lt hlt]
    simp only [if_true]
    rw [toBits_ofBits (by omega) (hmod.symm ▸ hle)]
  | false =>
    have hmod : m % signWeight = m := Nat.mod_eq_of_lt hlt
    simp only [Bool.false_eq_true, if_false, Nat.zero_add]
    rw [toBits_ofBits (by omega) (hmod.symm ▸ hle)]

theorem ofInt_natCast (n : ℕ) : ofInt n = ofQuotient false n 1 := by
  rw [ofInt, decide_eq_false (not_lt.2 (Int.natCast_nonneg n)), Int.natAbs_natCast]

theorem toBits_ofInt_natCast (n : ℕ) :
    (ofInt n).toBits.toNat = magnitudePattern (n <<< 1074) 1 := by
  rw [ofInt_natCast, toBits_ofQuotient, if_neg Bool.false_ne_true, zero_add]

theorem rank_ofQuotient (negative : Bool) (a d : ℕ) :
    rank (ofQuotient negative a d) =
      if negative then -(magnitudePattern (a <<< 1074) d : ℤ) - 1
      else magnitudePattern (a <<< 1074) d := by
  have hlt : magnitudePattern (a <<< 1074) d < signWeight :=
    lt_of_le_of_lt (magnitudePattern_le _ d) (by decide)
  unfold rank hasSignBit pattern
  rw [toBits_ofQuotient]
  cases negative with
  | true => simp [Nat.mod_eq_of_lt hlt]
  | false => simp [Nat.mod_eq_of_lt hlt, hlt]

/-! ## Monotonicity -/

/-- A half is the greatest distance to the rounded quotient, and then that one is even. -/
theorem roundHalfEven_bounds {d : ℕ} (hd : 0 < d) (a : ℕ) :
    (2 * roundHalfEven a d * d < 2 * a + d ∨
      2 * roundHalfEven a d * d = 2 * a + d ∧ roundHalfEven a d % 2 = 0) ∧
    (2 * a < 2 * roundHalfEven a d * d + d ∨
      2 * a = 2 * roundHalfEven a d * d + d ∧ roundHalfEven a d % 2 = 0) := by
  have hdiv := Nat.div_add_mod a d
  have hmod := Nat.mod_lt a hd
  have hparity := Nat.mod_two_eq_zero_or_one (a / d)
  unfold roundHalfEven
  dsimp only
  generalize a / d = q at *
  generalize a % d = r at *
  have hcomm : 2 * q * d = 2 * (d * q) := by ring
  split
  · omega
  · split
    · have hnext : 2 * (q + 1) * d = 2 * (d * q) + 2 * d := by ring
      omega
    · rcases hparity with heven | hodd
      · rw [heven, add_zero]
        omega
      · have hnext : 2 * (q + 1) * d = 2 * (d * q) + 2 * d := by ring
        rw [hodd]
        omega

theorem roundHalfEven_mono {a d a' d' : ℕ} (hd : 0 < d) (hd' : 0 < d') (h : a * d' ≤ a' * d) :
    roundHalfEven a d ≤ roundHalfEven a' d' := by
  have hlower := (roundHalfEven_bounds hd a).1
  have hupper := (roundHalfEven_bounds hd' a').2
  generalize roundHalfEven a d = n at *
  generalize roundHalfEven a' d' = n' at *
  by_contra hlt
  have hstep : (n' + 1) * (d * d') ≤ n * (d * d') := Nat.mul_le_mul_right _ (by omega)
  have hleft : 2 * n * d ≤ 2 * a + d := by omega
  have hright : 2 * a' ≤ 2 * n' * d' + d' := by omega
  have hleft' := Nat.mul_le_mul_right d' hleft
  have hright' := Nat.mul_le_mul_right d hright
  have heq : n = n' + 1 := by
    by_contra hne
    have hgap : (n' + 2) * (d * d') ≤ n * (d * d') := Nat.mul_le_mul_right _ (by omega)
    have hpos : 0 < d * d' := Nat.mul_pos hd hd'
    nlinarith
  rcases hlower with hstrict | ⟨_, heven⟩
  · have hleft'' := Nat.mul_lt_mul_of_pos_right hstrict hd'
    nlinarith
  · rcases hupper with hstrict | ⟨_, heven'⟩
    · have hright'' := Nat.mul_lt_mul_of_pos_right hstrict hd
      nlinarith
    · omega

theorem roundHalfEven_mul_self {d : ℕ} (hd : 0 < d) (n : ℕ) : roundHalfEven (n * d) d = n := by
  unfold roundHalfEven
  dsimp only
  rw [Nat.mul_mod_left, Nat.mul_div_cancel n hd, if_pos (by omega)]

theorem le_roundHalfEven {a d n : ℕ} (hd : 0 < d) (h : n * d ≤ a) : n ≤ roundHalfEven a d := by
  rw [← roundHalfEven_mul_self hd n]
  exact roundHalfEven_mono hd hd (Nat.mul_le_mul_right d h)

theorem roundHalfEven_le {a d n : ℕ} (hd : 0 < d) (h : a ≤ n * d) : roundHalfEven a d ≤ n := by
  rw [← roundHalfEven_mul_self hd n]
  exact roundHalfEven_mono hd hd (Nat.mul_le_mul_right d h)

theorem spacing_mono {a d a' d' : ℕ} (hd : 0 < d) (hd' : 0 < d') (h : a * d' ≤ a' * d) :
    spacing a d ≤ spacing a' d' := by
  have hdiv : a / d ≤ a' / d' := by
    rw [Nat.le_div_iff_mul_le hd']
    have hfloor := Nat.mul_le_mul_right d' (Nat.div_mul_le_self a d)
    have hscaled : a / d * d' * d ≤ a' * d := by
      calc a / d * d' * d = a / d * d * d' := by ring
        _ ≤ a * d' := hfloor
        _ ≤ a' * d := h
    exact Nat.le_of_mul_le_mul_right hscaled hd
  unfold spacing
  rw [Nat.log2_eq_log_two, Nat.log2_eq_log_two]
  have hlog := Nat.log_mono_right (b := 2) hdiv
  omega

theorem lt_of_spacing {a d : ℕ} (hd : 0 < d) : a < 2 ^ 53 * (d <<< spacing a d) := by
  have hlog := Nat.lt_log2_self (n := a / d)
  have hexponent : 2 ^ ((a / d).log2 + 1) ≤ 2 ^ (spacing a d + 53) :=
    Nat.pow_le_pow_right (by decide) (by unfold spacing; omega)
  have hfloor := (Nat.div_lt_iff_lt_mul hd).1 (lt_of_lt_of_le hlog hexponent)
  rw [Nat.shiftLeft_eq]
  calc a < 2 ^ (spacing a d + 53) * d := hfloor
    _ = 2 ^ 53 * (d * 2 ^ spacing a d) := by ring

theorem le_of_spacing {a d : ℕ} (hd : 0 < d) (hspacing : spacing a d ≠ 0) :
    2 ^ 52 * (d <<< spacing a d) ≤ a := by
  have hnonzero : a / d ≠ 0 := by
    intro hzero
    rw [spacing, hzero] at hspacing
    exact hspacing rfl
  have hlog := Nat.log2_self_le hnonzero
  have hexponent : (a / d).log2 = spacing a d + 52 := by
    unfold spacing at hspacing ⊢
    omega
  rw [hexponent, Nat.le_div_iff_mul_le hd] at hlog
  rw [Nat.shiftLeft_eq]
  calc 2 ^ 52 * (d * 2 ^ spacing a d) = 2 ^ (spacing a d + 52) * d := by ring
    _ ≤ a := hlog

/-- A greater quotient has no smaller pattern. -/
theorem magnitudePattern_mono {a d a' d' : ℕ} (hd : 0 < d) (hd' : 0 < d')
    (h : a * d' ≤ a' * d) : magnitudePattern a d ≤ magnitudePattern a' d' := by
  have hspacing := spacing_mono hd hd' h
  have hpos : ∀ {n : ℕ} (p : ℕ), 0 < n → 0 < n <<< p := by
    intro n p hn
    rw [Nat.shiftLeft_eq]
    positivity
  apply min_le_min_left
  rcases hspacing.eq_or_lt with heq | hlt
  · rw [← heq]
    apply Nat.add_le_add_left
    apply roundHalfEven_mono (hpos _ hd) (hpos _ hd')
    rw [Nat.shiftLeft_eq, Nat.shiftLeft_eq]
    calc a * (d' * 2 ^ spacing a d) = a * d' * 2 ^ spacing a d := by ring
      _ ≤ a' * d * 2 ^ spacing a d := Nat.mul_le_mul_right _ h
      _ = a' * (d * 2 ^ spacing a d) := by ring
  · have hupper : roundHalfEven a (d <<< spacing a d) ≤ 2 ^ 53 :=
      roundHalfEven_le (hpos _ hd) (lt_of_spacing hd).le
    have hlower : 2 ^ 52 ≤ roundHalfEven a' (d' <<< spacing a' d') :=
      le_roundHalfEven (hpos _ hd') (le_of_spacing hd' (by omega))
    have hbinade : binade = 2 ^ 52 := rfl
    have hnext := Nat.mul_le_mul_right binade (Nat.succ_le_of_lt hlt)
    rw [Nat.succ_mul] at hnext
    omega

/-- Rounding depends on the quotient alone. -/
theorem magnitudePattern_congr {a d a' d' : ℕ} (hd : 0 < d) (hd' : 0 < d')
    (h : a * d' = a' * d) : magnitudePattern a d = magnitudePattern a' d' :=
  le_antisymm (magnitudePattern_mono hd hd' h.le) (magnitudePattern_mono hd' hd h.ge)

theorem ofQuotient_congr (negative : Bool) {a d a' d' : ℕ} (hd : 0 < d) (hd' : 0 < d')
    (h : a * d' = a' * d) : ofQuotient negative a d = ofQuotient negative a' d' := by
  have hscaled : a <<< 1074 * d' = a' <<< 1074 * d := by
    rw [Nat.shiftLeft_eq, Nat.shiftLeft_eq, mul_right_comm, h, mul_right_comm]
  apply eq_of_toBits_eq
  rw [toBits_ofQuotient, toBits_ofQuotient, magnitudePattern_congr hd hd' hscaled]

/-- A greater natural number has no smaller pattern. -/
theorem magnitudePattern_natCast_mono {a b : ℕ} (h : a ≤ b) :
    magnitudePattern (a <<< 1074) 1 ≤ magnitudePattern (b <<< 1074) 1 := by
  apply magnitudePattern_mono one_pos one_pos
  rw [Nat.shiftLeft_eq, Nat.shiftLeft_eq]
  gcongr

/-- A greater integer has no double that comes earlier in the total order. -/
theorem rank_ofInt_mono {i j : ℤ} (h : i ≤ j) : rank (ofInt i) ≤ rank (ofInt j) := by
  unfold ofInt
  rw [rank_ofQuotient, rank_ofQuotient]
  by_cases hi : i < 0
  · by_cases hj : j < 0
    · have hle := magnitudePattern_natCast_mono (show j.natAbs ≤ i.natAbs by omega)
      simp only [hi, hj, decide_true, if_true]
      omega
    · simp only [hi, hj, decide_true, decide_false, if_true, Bool.false_eq_true, if_false]
      omega
  · have hj : ¬j < 0 := by omega
    have hle := magnitudePattern_natCast_mono (show i.natAbs ≤ j.natAbs by omega)
    simp only [hi, hj, decide_false, Bool.false_eq_true, if_false]
    omega

section units

variable {m p : ℕ}

theorem log2_shiftLeft {m : ℕ} (hm : m ≠ 0) (n : ℕ) : (m <<< n).log2 = m.log2 + n := by
  have hlog := (Nat.log2_eq_iff hm).1 rfl
  rw [Nat.shiftLeft_eq, Nat.log2_eq_iff (mul_ne_zero hm (Nat.two_pow_pos n).ne'),
    add_right_comm, pow_add, pow_add]
  exact ⟨Nat.mul_le_mul_right _ hlog.1, Nat.mul_lt_mul_of_pos_right hlog.2 (Nat.two_pow_pos n)⟩

/-- Below the second binade the pattern is the number of units. -/
theorem magnitudePattern_of_lt (h : m < 2 ^ 52) : magnitudePattern m 1 = m := by
  have hspacing : spacing m 1 = 0 := by
    rw [spacing, Nat.div_one]
    rcases eq_or_ne m 0 with rfl | hne
    · rfl
    · have hlog := (Nat.log2_lt hne).2 h
      omega
  have hround : roundHalfEven m 1 = m := by
    conv_lhs => rw [← mul_one m]
    exact roundHalfEven_mul_self one_pos m
  have hle : m ≤ infinityPattern := h.le.trans (by decide)
  simp only [magnitudePattern, hspacing, Nat.shiftLeft_zero, hround, zero_mul, zero_add]
  exact min_eq_right hle

/-- A mantissa of 53 digits and its place are the pattern. -/
theorem magnitudePattern_mantissa (hlow : 2 ^ 52 ≤ m) (hhigh : m < 2 ^ 53) :
    magnitudePattern (m <<< p) 1 = min infinityPattern (p * binade + m) := by
  have hlog : m.log2 = 52 := (Nat.log2_eq_iff (by omega)).2 ⟨hlow, hhigh⟩
  have hspacing : spacing (m <<< p) 1 = p := by
    rw [spacing, Nat.div_one, log2_shiftLeft (by omega), hlog, Nat.add_sub_cancel_left]
  have hround : roundHalfEven (m <<< p) (1 <<< p) = m := by
    rw [Nat.shiftLeft_eq, Nat.shiftLeft_eq, one_mul]
    exact roundHalfEven_mul_self (Nat.two_pow_pos p) m
  simp only [magnitudePattern, hspacing, hround]

end units

end SchoolAlgebra.Binary64
