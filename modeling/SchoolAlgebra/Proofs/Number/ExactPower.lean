import Mathlib
import SchoolAlgebra.Proofs.Number.LowestTerms
import SchoolAlgebra.Proofs.Number.ResultKind

/-!
# Exact values of powers

The power of a rational with the exponent `p / q` in lowest terms is the real `q`-th root of the
`p`-th power, and the root that is not negative if `q` is even. An exact power of numbers is that
power of exact numbers, and a power is absent exactly where this one is undefined.
-/

namespace SchoolAlgebra

/--
Whether `value` is the power of `base` with a rational exponent: a root, of the order that the
denominator gives, of the power that the numerator gives. Zero has no negative power, and its power
with exponent zero is one.
-/
def IsPower (base exponent value : ℚ) : Prop :=
  (base = 0 → 0 ≤ exponent) ∧ value ^ exponent.den = base ^ exponent.num ∧
    (Even exponent.den → 0 ≤ value)

/-- A power has one value. -/
theorem IsPower.unique {base exponent x y : ℚ} (hx : IsPower base exponent x)
    (hy : IsPower base exponent y) : x = y := by
  have hpow : x ^ exponent.den = y ^ exponent.den := hx.2.1.trans hy.2.1.symm
  rcases Nat.even_or_odd exponent.den with heven | hodd
  · exact (pow_left_inj₀ (hx.2.2 heven) (hy.2.2 heven) exponent.den_nz).1 hpow
  · exact hodd.strictMono_pow.injective hpow

/-- A power with a whole exponent is the repeated product. -/
theorem isPower_intCast {base value : ℚ} {n : ℤ} :
    IsPower base n value ↔ (base = 0 → 0 ≤ n) ∧ value = base ^ n := by
  simp [IsPower]

theorem odd_num_of_even_den {q : ℚ} (heven : Even q.den) : Odd q.num := by
  rw [← Int.natAbs_odd, ← Nat.not_even_iff_odd]
  intro hnum
  have htwo := Nat.dvd_gcd hnum.two_dvd heven.two_dvd
  rw [q.reduced] at htwo
  omega

/-- A negative number has no root of even order. -/
theorem not_isPower_of_neg {base exponent value : ℚ} (hbase : base < 0)
    (heven : Even exponent.den) : ¬IsPower base exponent value := by
  intro h
  have hodd : Odd exponent.num := odd_num_of_even_den heven
  have hneg : base ^ exponent.num < 0 := hodd.zpow_neg hbase
  exact absurd (h.2.1 ▸ heven.pow_nonneg value) hneg.not_ge

/--
A rational other than zero and plus or minus one leaves the magnitudes and the denominators of a
number of bits by the power of that number. Where there is a denominator it grows with the
exponent, and else the magnitude does.
-/
theorem exponent_lt {s : ℚ} {n bits : ℕ} (hzero : s ≠ 0) (hone : s ≠ 1) (hminus : s ≠ -1)
    (hvalue : |s ^ n| < 2 ^ bits) (hden : (s ^ n).den < 2 ^ bits) : n < bits := by
  rcases Nat.lt_or_ge 1 s.den with hproper | hwhole
  · rw [Rat.den_pow] at hden
    exact (Nat.pow_lt_pow_iff_right one_lt_two).1
      ((Nat.pow_le_pow_left hproper n).trans_lt hden)
  · have hnum : (s.num : ℚ) = s :=
      Rat.coe_int_num_of_den_eq_one (hwhole.antisymm (Nat.succ_le_of_lt s.den_pos))
    have htwo : (2 : ℤ) ≤ |s.num| := by
      rw [← Int.natCast_natAbs]
      by_contra hsmall
      have hcases : s.num = 0 ∨ s.num = 1 ∨ s.num = -1 := by omega
      rcases hcases with h | h | h
      · exact hzero (by rw [← hnum, h, Int.cast_zero])
      · exact hone (by rw [← hnum, h, Int.cast_one])
      · exact hminus (by rw [← hnum, h, Int.cast_neg, Int.cast_one])
    have hbase : (2 : ℚ) ≤ |s| := by
      rw [← hnum]
      exact_mod_cast htwo
    have hpower : (2 : ℚ) ^ n < 2 ^ bits :=
      calc (2 : ℚ) ^ n ≤ |s| ^ n := pow_le_pow_left₀ zero_le_two hbase n
        _ = |s ^ n| := (abs_pow s n).symm
        _ < 2 ^ bits := hvalue
    exact (pow_lt_pow_iff_right₀ one_lt_two).1 hpower

/-- Of the powers of such a rational, unsigned words hold those up to the sixty-third alone. -/
theorem Number.FitsFraction.natAbs_lt {s : ℚ} {n : ℤ} (hfits : FitsFraction (s ^ n))
    (hzero : s ≠ 0) (hone : s ≠ 1) (hminus : s ≠ -1) : n.natAbs < 64 := by
  obtain ⟨hvalue, hden⟩ := fitsFraction_iff.1 hfits
  rw [show (UInt64.size : ℚ) = 2 ^ 64 by norm_num] at hvalue
  rcases le_or_gt 0 n with hn | hn
  · lift n to ℕ using hn
    rw [zpow_natCast] at hvalue hden
    exact exponent_lt hzero hone hminus hvalue hden
  · obtain ⟨m, rfl⟩ : ∃ m : ℕ, n = -m := ⟨n.natAbs, by omega⟩
    rw [zpow_neg, zpow_natCast, ← inv_pow] at hvalue hden
    rw [Int.natAbs_neg, Int.natAbs_natCast]
    refine exponent_lt (inv_ne_zero hzero) (mt inv_eq_one.1 hone) (fun h ↦ hminus ?_) hvalue hden
    rw [← inv_inv s, h, inv_neg, inv_one]

/-! ## Whole powers and roots -/

namespace Word

private theorem eq_of_natAbs_le_one {b : Int64} (h : b.toInt.natAbs ≤ 1) :
    b = 0 ∨ b = 1 ∨ b = -1 := by
  have hcases : b.toInt = 0 ∨ b.toInt = 1 ∨ b.toInt = -1 := by omega
  rcases hcases with hb | hb | hb
  · exact Or.inl (Int64.toInt_inj.1 hb)
  · exact Or.inr (Or.inl (Int64.toInt_inj.1 hb))
  · exact Or.inr (Or.inr (Int64.toInt_inj.1 hb))

private theorem toInt_parity_of_natAbs_le_one {b : Int64} (h : b.toInt.natAbs ≤ 1) {n : ℕ}
    (hn : n ≠ 0) : (if n % 2 = 0 then b * b else b).toInt = b.toInt ^ n := by
  rcases eq_of_natAbs_le_one h with rfl | rfl | rfl
  · have hpow : (0 : Int64).toInt ^ n = 0 := zero_pow hn
    rw [hpow]
    split <;> rfl
  · have hpow : (1 : Int64).toInt ^ n = 1 := one_pow n
    rw [hpow]
    split <;> rfl
  · have hbase : (-1 : Int64).toInt = -1 := rfl
    rw [hbase]
    rcases Nat.even_or_odd n with heven | hodd
    · rw [if_pos (Nat.even_iff.1 heven), heven.neg_one_pow]
      rfl
    · rw [if_neg (by rw [Nat.odd_iff.1 hodd]; decide), hodd.neg_one_pow]
      rfl

private theorem signed_natAbs_pow (z : ℤ) (n : ℕ) :
    (if z < 0 ∧ n % 2 = 1 then -((z.natAbs ^ n : ℕ) : ℤ) else (z.natAbs ^ n : ℕ)) = z ^ n := by
  rw [Nat.cast_pow, Int.natCast_natAbs]
  rcases lt_or_ge z 0 with hneg | hnonneg
  · rcases Nat.even_or_odd n with heven | hodd
    · rw [if_neg fun h ↦ absurd (Nat.odd_iff.2 h.2) (Nat.not_odd_iff_even.2 heven), heven.pow_abs]
    · rw [if_pos ⟨hneg, Nat.odd_iff.1 hodd⟩, abs_of_neg hneg, hodd.neg_pow, neg_neg]
  · rw [if_neg fun h ↦ absurd h.1 hnonneg.not_gt, abs_of_nonneg hnonneg]

/-- The power of a word is the word of the power of its value. -/
theorem pow?_eq_int64? (b : Int64) (n : ℕ) : pow? b n = int64? (b.toInt ^ n) := by
  unfold pow?
  split
  · rename_i hn
    rw [hn, pow_zero]
    rfl
  · rename_i hn
    split
    · rename_i hsmall
      exact (int64?_eq_some_iff.2 (toInt_parity_of_natAbs_le_one hsmall hn)).symm
    · rename_i hlarge
      split
      · have hlt : b < 0 ↔ b.toInt < 0 := Int64.lt_iff_toInt_lt
        simp only [hlt, Nat.pow_eq]
        rw [signed_natAbs_pow]
      · rename_i hn
        have hmagnitude : 2 ^ 64 ≤ (b.toInt ^ n).natAbs :=
          calc 2 ^ 64 ≤ 2 ^ n := Nat.pow_le_pow_right two_pos (not_lt.1 hn)
            _ ≤ b.toInt.natAbs ^ n := Nat.pow_le_pow_left (not_le.1 hlarge) n
            _ = (b.toInt ^ n).natAbs := (Int.natAbs_pow _ n).symm
        symm
        rw [int64?_eq_none_iff]
        rintro ⟨hmin, hmax⟩
        have hlo : Int64.minValue.toInt = -9223372036854775808 := rfl
        have hhi : Int64.maxValue.toInt = 9223372036854775807 := rfl
        omega

end Word

namespace Fraction

private theorem toRat_eq_of_unit {f : Fraction} (h : f.toRat.num.natAbs = 1 ∧ f.toRat.den = 1) :
    f.toRat = 1 ∨ f.toRat = -1 := by
  have hnum : f.toRat.num = 1 ∨ f.toRat.num = -1 := by omega
  rcases hnum with hnum | hnum
  · exact Or.inl (Rat.ext hnum h.2)
  · exact Or.inr (Rat.ext hnum h.2)

private theorem toInt_sign_eq_zpow {q : ℚ} (h : q = 1 ∨ q = -1) (n : ℤ) :
    (((if q.num < 0 ∧ n % 2 ≠ 0 then -1 else 1 : Int64).toInt : ℤ) : ℚ) = q ^ n := by
  rcases h with rfl | rfl
  · rw [one_zpow]
    rfl
  · rcases Int.even_or_odd n with heven | hodd
    · rw [heven.neg_one_zpow, if_neg fun h ↦ h.2 (Int.even_iff.1 heven)]
      rfl
    · have hmod : n % 2 ≠ 0 := by rw [Int.odd_iff.1 hodd]; decide
      rw [hodd.neg_one_zpow, if_pos ⟨by decide, hmod⟩]
      rfl

/--
The power of a fraction is the reduced mixed number of the power of its value, unless it is a
negative power of zero.
-/
theorem pow?_eq_ofRat? (f : Fraction) (n : ℤ) :
    f.pow? n = if f.toRat = 0 ∧ n < 0 then none else ofRat? (f.toRat ^ n) := by
  have hword (v : Int64) : some (ofInt64 v) = ofRat? v.toInt := by
    rw [← (isLowest_ofInt64 v).ofRat?_toRat, toRat_ofInt64]
  unfold pow?
  dsimp only
  by_cases hzero : f.toRat = 0
  · rw [if_pos (Rat.num_eq_zero.2 hzero)]
    by_cases hn : n < 0
    · rw [if_pos hn, if_pos ⟨hzero, hn⟩]
    · have hdefined : ¬(f.toRat = 0 ∧ n < 0) := fun h ↦ hn h.2
      rw [if_neg hn, if_neg hdefined, hword, hzero, zero_zpow_eq]
      split <;> rfl
  · have hdefined : ¬(f.toRat = 0 ∧ n < 0) := fun h ↦ hzero h.1
    rw [if_neg (mt Rat.num_eq_zero.1 hzero), if_neg hdefined]
    split
    · rename_i hunit
      rw [hword, toInt_sign_eq_zpow (toRat_eq_of_unit hunit) n]
    · rename_i hunit
      split
      · rfl
      · rename_i hn
        symm
        rw [Number.ofRat?_eq_none_iff]
        intro hfits
        have hone : f.toRat ≠ 1 := fun h ↦ hunit (by rw [h]; decide)
        have hminus : f.toRat ≠ -1 := fun h ↦ hunit (by rw [h]; decide)
        have hlt := hfits.natAbs_lt hzero hone hminus
        omega

/-- A power of a fraction that fits words is the power of its value. -/
theorem isPower_of_pow? {f g : Fraction} {n : ℤ} (h : f.pow? n = some g) :
    IsPower f.toRat n g.toRat := by
  rw [pow?_eq_ofRat?] at h
  obtain ⟨hdefined, hg⟩ := Option.ite_none_left_eq_some.1 h
  exact isPower_intCast.2 ⟨fun hzero ↦ not_lt.1 fun hn ↦ hdefined ⟨hzero, hn⟩, toRat_of_ofRat? hg⟩

end Fraction

namespace Root

/-- An exact root of a natural number has that number as its power. -/
theorem pow_of_ofNat? {n x r : ℕ} (hn : n ≠ 0) (h : ofNat? n x = some r) : r ^ n = x := by
  unfold ofNat? at h
  split at h
  · rename_i hx
    rw [← Option.some.inj h]
    have hcases : x = 0 ∨ x = 1 := by omega
    rcases hcases with rfl | rfl
    · exact zero_pow hn
    · exact one_pow n
  · split at h
    · simp at h
    · dsimp only at h
      split at h
      · rename_i hpow
        rw [← Option.some.inj h]
        exact hpow
      · simp at h

/-- The parts of an exact root of a rational are roots of its parts, and the signs agree. -/
theorem eq_div_of_ofRat? {n : ℕ} {q r : ℚ} (hn : n ≠ 0) (h : ofRat? n q = some r) :
    ∃ a d : ℕ, a ^ n = q.num.natAbs ∧ d ^ n = q.den ∧
      r = (if q.num < 0 then -1 else 1) * ((a : ℚ) / d) := by
  unfold ofRat? at h
  simp only [Option.bind_eq_bind, Option.bind_eq_some_iff] at h
  obtain ⟨a, ha, d, hd, hr⟩ := h
  refine ⟨a, d, pow_of_ofNat? hn ha, pow_of_ofNat? hn hd, ?_⟩
  rw [← Option.some.inj hr, Rat.mkRat_eq_div]
  split <;> simp [neg_div]

/-- The root of a rational that is not negative is not negative, and its power is the rational. -/
theorem pow_of_ofRat?_of_nonneg {n : ℕ} {q r : ℚ} (hn : n ≠ 0) (hq : 0 ≤ q)
    (h : ofRat? n q = some r) : 0 ≤ r ∧ r ^ n = q := by
  obtain ⟨a, d, ha, hd, hr⟩ := eq_div_of_ofRat? hn h
  have hnum : ¬q.num < 0 := not_lt.2 (Rat.num_nonneg.2 hq)
  rw [if_neg hnum, one_mul] at hr
  refine ⟨hr ▸ by positivity, ?_⟩
  rw [hr, div_pow, ← Nat.cast_pow, ← Nat.cast_pow, ha, hd, Nat.cast_natAbs,
    abs_of_nonneg (not_lt.1 hnum), Rat.num_div_den]

/-- A root of odd order of a negative rational has that rational as its power. -/
theorem pow_of_ofRat?_of_neg {n : ℕ} {q r : ℚ} (hn : Odd n) (hq : q < 0)
    (h : ofRat? n q = some r) : r ^ n = q := by
  obtain ⟨a, d, ha, hd, hr⟩ := eq_div_of_ofRat? hn.pos.ne' h
  have hnum : q.num < 0 := Rat.num_neg.2 hq
  rw [if_pos hnum, neg_one_mul] at hr
  rw [hr, hn.neg_pow, div_pow, ← Nat.cast_pow, ← Nat.cast_pow, ha, hd, Nat.cast_natAbs,
    abs_of_neg hnum, Int.cast_neg, neg_div, neg_neg, Rat.num_div_den]

end Root

/-! ## Powers of numbers -/

namespace Number

theorem eq_of_toRat?_ofRat {preferInteger : Bool} {q z : ℚ}
    (h : (ofRat preferInteger q).toRat? = some z) : z = q := by
  obtain ⟨c, hc, hz⟩ := eq_some_of_getD_float h
  unfold ofRat? at hc
  split at hc
  · rename_i v hv
    split at hv
    · rename_i hcond
      rw [Bool.and_eq_true, beq_iff_eq] at hcond
      rw [← Option.some.inj hc, toRat?_integer, Word.int64?_eq_some_iff.1 hv] at hz
      rw [← Option.some.inj hz]
      exact Rat.ext rfl hcond.2.symm
    · simp at hv
  · obtain ⟨f, hf, hcf⟩ := Option.map_eq_some_iff.1 hc
    rw [← hcf, toRat?_fraction, Fraction.toRat_of_ofRat? hf] at hz
    exact (Option.some.inj hz).symm

theorem isPower_of_powFraction {f : Fraction} {n : ℤ} {z : ℚ}
    (h : (powFraction f n).toRat? = some z) : IsPower f.toRat n z := by
  obtain ⟨c, hc, hz⟩ := eq_some_of_getD_float h
  obtain ⟨g, hg, hcg⟩ := Option.map_eq_some_iff.1 hc
  rw [← hcg, toRat?_fraction] at hz
  rw [← Option.some.inj hz]
  exact Fraction.isPower_of_pow? hg

/-- An exact power with a whole exponent is the power of an exact number. -/
theorem isPower_of_powWhole? {a c : Number} {n : ℤ} {z : ℚ} (h : a.powWhole? n = some c)
    (hz : c.toRat? = some z) : ∃ x, a.toRat? = some x ∧ IsPower x n z := by
  unfold powWhole? at h
  split at h
  · rename_i v
    refine ⟨v.toInt, rfl, ?_⟩
    split at h
    · rename_i hn
      rw [← Option.some.inj h] at hz
      obtain ⟨d, hd, hdz⟩ := eq_some_of_getD_float hz
      obtain ⟨w, hw, hdw⟩ := Option.map_eq_some_iff.1 hd
      split at hw
      · have hvalue := Word.int64?_eq_some_iff.1 (Word.pow?_eq_int64? v n.toNat ▸ hw)
        rw [← hdw, toRat?_integer, hvalue, Int.cast_pow] at hdz
        rw [isPower_intCast, ← Option.some.inj hdz, ← zpow_natCast, Int.toNat_of_nonneg hn]
        exact ⟨fun _ ↦ hn, rfl⟩
      · simp at hw
    · split at h
      · simp at h
      · rw [← Option.some.inj h] at hz
        simpa using isPower_of_powFraction hz
  · rename_i f
    refine ⟨f.toRat, rfl, ?_⟩
    split at h
    · simp at h
    · rw [← Option.some.inj h] at hz
      exact isPower_of_powFraction hz
  · rw [← Option.some.inj h] at hz
    simp at hz

/-- A power with a whole exponent is absent exactly if it is a negative power of an exact zero. -/
theorem powWhole?_eq_none_iff {a : Number} {n : ℤ} :
    a.powWhole? n = none ↔ a.toRat? = some 0 ∧ n < 0 := by
  cases a with
  | integer v =>
    by_cases hn : 0 ≤ n
    · simp [powWhole?, hn]
    · simp [powWhole?, hn, ← Int64.toInt_inj, not_le.1 hn]
  | fraction f => simp [powWhole?, f.isZero_iff, and_comm]
  | float x => simp [powWhole?]

theorem isPower_of_powRational? {preferInteger : Bool} {base : ℚ} {p : ℤ} {q : ℕ} {c : Number}
    {z : ℚ} (hq : q ≠ 0) (h : powRational? preferInteger base p q = some c)
    (hz : c.toRat? = some z) :
    (base = 0 → 0 ≤ p) ∧ z ^ q = base ^ p ∧ (Even q → 0 ≤ z) := by
  unfold powRational? at h
  split at h
  · simp at h
  rename_i hroot
  split at h
  · simp at h
  rename_i hzero
  split at h
  · rename_i root hsome
    rw [← Option.some.inj h] at hz
    rw [eq_of_toRat?_ofRat hz]
    split at hsome
    · refine ⟨fun hbase ↦ not_lt.1 fun hp ↦ hzero ⟨Rat.num_eq_zero.2 hbase, hp⟩, ?_⟩
      have hcomm : (root ^ p) ^ q = (root ^ q) ^ p := by
        rw [← zpow_natCast, ← zpow_natCast, zpow_comm]
      rcases lt_or_ge base 0 with hneg | hnonneg
      · have hodd : Odd q := by
          rw [← Nat.not_even_iff_odd]
          intro heven
          exact hroot ⟨Rat.num_neg.2 hneg, Nat.even_iff.1 heven⟩
        rw [hcomm, Root.pow_of_ofRat?_of_neg hodd hneg hsome]
        exact ⟨rfl, fun heven ↦ absurd heven (Nat.not_even_iff_odd.2 hodd)⟩
      · obtain ⟨hrootNonneg, hpow⟩ := Root.pow_of_ofRat?_of_nonneg hq hnonneg hsome
        rw [hcomm, hpow]
        exact ⟨rfl, fun _ ↦ zpow_nonneg hrootNonneg p⟩
    · simp at hsome
  · rw [← Option.some.inj h] at hz
    simp at hz

theorem powRational?_eq_none_iff {preferInteger : Bool} {base : ℚ} {p : ℤ} {q : ℕ} :
    powRational? preferInteger base p q = none ↔ base < 0 ∧ Even q ∨ base = 0 ∧ p < 0 := by
  have hneg : base.num < 0 ↔ base < 0 := Rat.num_neg
  have hbase : base.num = 0 ↔ base = 0 := Rat.num_eq_zero
  unfold powRational?
  rw [← hneg, ← hbase, Nat.even_iff]
  split
  · rename_i h
    simp [h]
  · rename_i hroot
    split
    · rename_i h
      simp [h]
    · rename_i hzero
      split <;> simp only [hroot, hzero, or_self, reduceCtorEq]

/-- Whether signed words hold both parts of the rational. -/
def HasWordParts (q : ℚ) : Prop := Word.IsInt64 q.num ∧ Word.IsInt64 q.den

instance (q : ℚ) : Decidable (HasWordParts q) := inferInstanceAs (Decidable (_ ∧ _))

variable {a exponent : Number} {x y : ℚ}

theorem powFraction?_eq {f : Fraction} (ha : a.toRat? = some x) :
    a.powFraction? f =
      if HasWordParts f.toRat then
        if f.toRat.den = 1 then a.powWhole? f.toRat.num
        else powRational? (decide (a.kind = .integer)) x f.toRat.num f.toRat.den
      else some (float (a.toFloat.pow f.toFloat)) := by
  unfold powFraction?
  by_cases hparts : HasWordParts f.toRat
  · obtain ⟨p, hp⟩ := hparts.1.exists_int64?
    obtain ⟨q, hq⟩ := hparts.2.exists_int64?
    have hpvalue := Word.int64?_eq_some_iff.1 hp
    have hqvalue := Word.int64?_eq_some_iff.1 hq
    have hone : q = 1 ↔ f.toRat.den = 1 := by
      rw [← Int64.toInt_inj, hqvalue]
      exact Int.natCast_inj
    rw [if_pos hparts, hp, hq]
    simp only [hone, hpvalue, hqvalue, Int.toNat_natCast]
    cases a with
    | integer v => rw [← Option.some.inj ha]; rfl
    | fraction g => rw [← Option.some.inj ha]; rfl
    | float z => simp at ha
  · rw [if_neg hparts]
    rcases not_and_or.1 hparts with hnum | hden
    · rw [Word.int64?_eq_none_iff.2 hnum]
    · rw [Word.int64?_eq_none_iff.2 hden]
      split
      · rename_i hq
        simp at hq
      · rfl

/-- A power of exact numbers by the parts of its exponent in lowest terms. -/
theorem pow?_eq (ha : a.toRat? = some x) (hy : exponent.toRat? = some y) :
    a.pow? exponent =
      if HasWordParts y then
        if y.den = 1 then a.powWhole? y.num
        else powRational? (decide (a.kind = .integer)) x y.num y.den
      else some (float (a.toFloat.pow exponent.toFloat)) := by
  cases exponent with
  | integer n =>
    rw [toRat?_integer, Option.some.injEq] at hy
    have hparts : HasWordParts y := by
      rw [← hy]
      exact ⟨Word.isInt64_toInt n, by rw [Rat.den_intCast]; decide⟩
    rw [if_pos hparts, ← hy, if_pos (Rat.den_intCast _), Rat.num_intCast]
    rfl
  | fraction f =>
    rw [toRat?_fraction, Option.some.injEq] at hy
    rw [← hy]
    exact powFraction?_eq ha
  | float z => simp at hy

/-- A power with a double as base or as exponent is a double. -/
theorem exists_toRat?_of_pow?_ne_float (h : ∀ z, a.pow? exponent ≠ some (float z)) :
    ∃ x y, a.toRat? = some x ∧ exponent.toRat? = some y := by
  cases exponent with
  | float w => exact absurd rfl (h _)
  | integer n =>
    cases a with
    | float w => exact absurd rfl (h _)
    | integer v => exact ⟨_, _, rfl, rfl⟩
    | fraction g => exact ⟨_, _, rfl, rfl⟩
  | fraction f =>
    cases a with
    | float w =>
      obtain ⟨z, hz⟩ : ∃ z, (float w).powFraction? f = some (float z) := by
        unfold powFraction?
        split
        · split <;> exact ⟨_, rfl⟩
        · exact ⟨_, rfl⟩
      exact absurd hz (h z)
    | integer v => exact ⟨_, _, rfl, rfl⟩
    | fraction g => exact ⟨_, _, rfl, rfl⟩

/-- An exact power is the power of two exact numbers. -/
theorem isPower_of_pow? {c : Number} {z : ℚ} (h : a.pow? exponent = some c)
    (hz : c.toRat? = some z) :
    ∃ x y, a.toRat? = some x ∧ exponent.toRat? = some y ∧ IsPower x y z := by
  have hexact (w : Float) : c ≠ float w := fun hw ↦ by simp [hw] at hz
  obtain ⟨x, y, hx, hy⟩ := exists_toRat?_of_pow?_ne_float
    fun w hw ↦ hexact w (Option.some.inj (h.symm.trans hw))
  refine ⟨x, y, hx, hy, ?_⟩
  rw [pow?_eq hx hy] at h
  split at h
  · split at h
    · rename_i hden
      obtain ⟨x', hx', hpow⟩ := isPower_of_powWhole? h hz
      rwa [Option.some.inj (hx.symm.trans hx'), ← Rat.coe_int_num_of_den_eq_one hden]
    · rw [IsPower, ← Rat.num_nonneg]
      exact isPower_of_powRational? y.den_nz h hz
  · exact absurd (Option.some.inj h).symm (hexact _)

/-- An exact power with a fraction as exponent is the power of an exact number. -/
theorem isPower_of_powFraction? {f : Fraction} {c : Number} {z : ℚ} (h : a.powFraction? f = some c)
    (hz : c.toRat? = some z) : ∃ x, a.toRat? = some x ∧ IsPower x f.toRat z := by
  have hc : a.pow? (fraction f) = some c := h
  obtain ⟨x, y, hx, hy, hpow⟩ := isPower_of_pow? hc hz
  exact ⟨x, hx, Option.some.inj hy ▸ hpow⟩

/--
A power is absent only where it is undefined over the reals: an even root of a negative number, or a
negative power of zero.
-/
theorem undefined_of_pow?_eq_none (h : a.pow? exponent = none) :
    ∃ x y, a.toRat? = some x ∧ exponent.toRat? = some y ∧
      (x < 0 ∧ Even y.den ∨ x = 0 ∧ y < 0) := by
  obtain ⟨x, y, hx, hy⟩ := exists_toRat?_of_pow?_ne_float
    fun w hw ↦ Option.some_ne_none _ (hw.symm.trans h)
  refine ⟨x, y, hx, hy, ?_⟩
  rw [pow?_eq hx hy] at h
  have hneg : y.num < 0 ↔ y < 0 := Rat.num_neg
  rw [← hneg]
  split at h
  · split at h
    · obtain ⟨hzero, hneg⟩ := powWhole?_eq_none_iff.1 h
      exact .inr ⟨Option.some.inj (hx.symm.trans hzero), hneg⟩
    · exact powRational?_eq_none_iff.1 h
  · simp at h

/-- An exact square root is the power of an exact number with exponent one half. -/
theorem isPower_of_sqrt? {a c : Number} {z : ℚ} (h : a.sqrt? = some c) (hz : c.toRat? = some z) :
    ∃ x, a.toRat? = some x ∧ IsPower x (1 / 2) z := by
  obtain ⟨x, y, hx, hy, hpow⟩ := isPower_of_pow? h hz
  rw [toRat?_fraction, Fraction.toRat_half, Option.some.injEq] at hy
  rw [← hy] at hpow
  exact ⟨x, hx, hpow⟩

/-- A square root is absent only for a negative number. -/
theorem neg_of_sqrt?_eq_none {a : Number} (h : a.sqrt? = none) :
    ∃ x, a.toRat? = some x ∧ x < 0 := by
  obtain ⟨x, y, hx, hy, hcases⟩ := undefined_of_pow?_eq_none h
  rw [toRat?_fraction, Fraction.toRat_half, Option.some.injEq] at hy
  rcases hcases with hneg | hzero
  · exact ⟨x, hx, hneg.1⟩
  · rw [← hy] at hzero
    norm_num at hzero

end Number

end SchoolAlgebra
