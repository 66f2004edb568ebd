import Mathlib
import SchoolAlgebra.Number.Arithmetic

/-!
# Exact values of arithmetic results

Fractions are read as rationals, and so is every exact number. An operation on numbers has an exact
result only if both operands are exact, and then its value is that of the operation on rationals:
where the parts of a result exceed words, the double that takes its place is not exact.
-/

namespace SchoolAlgebra

namespace Fraction

theorem denominator_toNat_ne_zero (f : Fraction) : f.denominator.toNat ≠ 0 := by
  intro h
  exact f.denominator_ne_zero (UInt64.toNat_inj.1 h)

/-- A fraction denotes its improper form, with the sign put last. -/
theorem toRat_eq_signed (f : Fraction) :
    f.toRat = (if f.negative then -1 else 1) *
      ((f.improperNumerator : ℚ) / (f.denominator.toNat : ℚ)) := by
  unfold toRat
  rw [Rat.mkRat_eq_div]
  cases f.negative <;> simp

private theorem signed_natAbs (z : ℤ) :
    ((if decide (z < 0) then -1 else 1 : ℚ)) * (z.natAbs : ℚ) = z := by
  rcases lt_or_ge z 0 with hneg | hnonneg
  · rw [Nat.cast_natAbs, abs_of_neg hneg]
    simp [hneg]
  · rw [Nat.cast_natAbs, abs_of_nonneg hnonneg]
    simp [not_lt.2 hnonneg]

/-- The reduced mixed number of a rational shows its reduced numerator and denominator. -/
theorem parts_of_ofRat? {q : ℚ} {f : Fraction} (h : ofRat? q = some f) :
    f.negative = decide (q.num < 0) ∧ f.improperNumerator = q.num.natAbs ∧
      f.numerator.toNat = q.num.natAbs % q.den ∧ f.denominator.toNat = q.den := by
  unfold ofRat? at h
  split at h
  case isFalse => simp at h
  case isTrue hfits =>
    obtain ⟨hwhole, hden⟩ := hfits
    have hrem : q.num.natAbs % q.den < UInt64.size := (Nat.mod_lt _ q.den_pos).trans hden
    rw [← Option.some.inj h]
    refine ⟨rfl, ?_, UInt64.toNat_ofNat_of_lt' hrem, UInt64.toNat_ofNat_of_lt' hden⟩
    simp only [improperNumerator, UInt64.toNat_ofNat_of_lt' hwhole,
      UInt64.toNat_ofNat_of_lt' hrem, UInt64.toNat_ofNat_of_lt' hden]
    exact Nat.div_add_mod' _ _

/-- The reduced mixed number of a rational has that rational as its value. -/
theorem toRat_of_ofRat? {q : ℚ} {f : Fraction} (h : ofRat? q = some f) : f.toRat = q := by
  obtain ⟨hnegative, himproper, _, hdenominator⟩ := parts_of_ofRat? h
  rw [toRat_eq_signed, hnegative, himproper, hdenominator, ← mul_div_assoc, signed_natAbs,
    Rat.num_div_den]

theorem abs_toRat (f : Fraction) :
    |f.toRat| = (f.improperNumerator : ℚ) / f.denominator.toNat := by
  rw [toRat_eq_signed, abs_mul, abs_of_nonneg (a := (_ / _ : ℚ)) (by positivity)]
  cases f.negative <;> simp

/-- Reducing a fraction does not make its denominator greater. -/
theorem den_toRat_lt (f : Fraction) : f.toRat.den < UInt64.size := by
  have hdvd : (f.toRat.den : ℤ) ∣ f.denominator.toNat := by
    have hsigned : f.toRat = Rat.divInt
        (if f.negative then -(f.improperNumerator : ℤ) else f.improperNumerator)
        f.denominator.toNat := by
      rw [toRat_eq_signed, Rat.divInt_eq_div]
      cases f.negative <;> simp [neg_div]
    rw [hsigned]
    exact Rat.den_dvd _ _
  have hle := Nat.le_of_dvd (Nat.pos_of_ne_zero f.denominator_toNat_ne_zero)
    (Int.natCast_dvd_natCast.1 hdvd)
  exact hle.trans_lt f.denominator.toNat_lt_size

@[simp]
theorem toRat_ofInt64 (n : Int64) : (ofInt64 n).toRat = n.toInt := by
  have habs : (UInt64.ofNat n.toInt.natAbs).toNat = n.toInt.natAbs :=
    UInt64.toNat_ofNat_of_lt' (natAbs_toInt_lt_size n)
  rw [toRat_eq_signed]
  simp only [ofInt64, improperNumerator, habs, Int64.lt_iff_toInt_lt]
  simpa using signed_natAbs n.toInt

/-- A fraction is zero if its value is. -/
theorem isZero_iff (f : Fraction) : f.isZero = true ↔ f.toRat = 0 := by
  have hden : (f.denominator.toNat : ℚ) ≠ 0 := by
    exact_mod_cast f.denominator_toNat_ne_zero
  have hparts : f.improperNumerator = 0 ↔ f.whole = 0 ∧ f.numerator = 0 := by
    simp [improperNumerator, f.denominator_toNat_ne_zero, ← UInt64.toNat_inj]
  rw [toRat_eq_signed]
  cases f.negative <;> simp [isZero, hden, hparts]

/-- A fraction is negative if its value is. -/
theorem isNegative_iff (f : Fraction) : f.isNegative = true ↔ f.toRat.num < 0 := by
  have hmagnitude : (0 : ℚ) ≤ (f.improperNumerator : ℚ) / (f.denominator.toNat : ℚ) := by
    positivity
  have hzero := f.isZero_iff
  rw [Rat.num_neg]
  rw [toRat_eq_signed] at hzero ⊢
  unfold isNegative
  cases hneg : f.negative with
  | false => simpa [hneg] using hmagnitude
  | true =>
    have hiff : f.isZero = false ↔
        (f.improperNumerator : ℚ) / (f.denominator.toNat : ℚ) ≠ 0 := by
      rw [← Bool.not_eq_true, hzero, hneg]
      simp
    rw [Bool.true_and, Bool.not_eq_true', hiff]
    simpa using hmagnitude.lt_iff_ne'.symm

@[simp]
theorem toRat_negated (f : Fraction) : f.negated.toRat = -f.toRat := by
  rcases hzero : f.isZero with _ | _
  · rw [toRat_eq_signed, toRat_eq_signed]
    cases hneg : f.negative <;> simp [negated, hzero, hneg, improperNumerator]
  · have hvalue := f.isZero_iff.1 hzero
    have hnegated : f.negated.isZero = true := hzero
    rw [hvalue, f.negated.isZero_iff.1 hnegated, neg_zero]

@[simp]
theorem toRat_half : half.toRat = 1 / 2 := by
  decide +kernel

private theorem signed_div (a b : ℤ) (hb : b ≠ 0) :
    (if (decide (a < 0) != decide (b < 0) && a.natAbs != 0) = true then -1 else 1 : ℚ) *
      ((a.natAbs : ℚ) / (b.natAbs : ℚ)) = (a : ℚ) / b := by
  rw [Nat.cast_natAbs, Nat.cast_natAbs]
  rcases lt_trichotomy a 0 with ha | rfl | ha
  · rcases hb.lt_or_gt with hb' | hb'
    · simp [ha, hb', abs_of_neg]
    · simp [ha, hb'.not_gt, abs_of_neg, abs_of_pos hb', ha.ne, neg_div]
  · simp
  · rcases hb.lt_or_gt with hb' | hb'
    · simp [ha.not_gt, hb', abs_of_neg, abs_of_pos ha, ha.ne', div_neg]
    · simp [ha.not_gt, hb'.not_gt, abs_of_pos ha, abs_of_pos hb']

/-- The improper form of a quotient is the quotient with the common divisor taken out. -/
theorem parts_quotient (n d : Int64) (hd : d ≠ 0) :
    (quotient n d hd).improperNumerator =
        n.toInt.natAbs / Nat.gcd n.toInt.natAbs d.toInt.natAbs ∧
      (quotient n d hd).denominator.toNat =
        d.toInt.natAbs / Nat.gcd n.toInt.natAbs d.toInt.natAbs ∧
      (quotient n d hd).numerator.toNat =
        (quotient n d hd).improperNumerator % (quotient n d hd).denominator.toNat := by
  let g := Nat.gcd n.toInt.natAbs d.toInt.natAbs
  have hnumerator : n.toInt.natAbs / g < UInt64.size :=
    (Nat.div_le_self _ _).trans_lt (natAbs_toInt_lt_size n)
  have hdenominator : d.toInt.natAbs / g < UInt64.size :=
    (Nat.div_le_self _ _).trans_lt (natAbs_toInt_lt_size d)
  have hwhole := (Nat.div_le_self (n.toInt.natAbs / g) (d.toInt.natAbs / g)).trans_lt hnumerator
  have hrem := (Nat.mod_le (n.toInt.natAbs / g) (d.toInt.natAbs / g)).trans_lt hnumerator
  unfold improperNumerator quotient
  rw [UInt64.toNat_ofNat_of_lt' hwhole, UInt64.toNat_ofNat_of_lt' hrem,
    UInt64.toNat_ofNat_of_lt' hdenominator, Nat.div_add_mod']
  exact ⟨rfl, rfl, rfl⟩

/-- The reduced mixed number of a quotient has the value of the quotient. -/
theorem toRat_quotient (n d : Int64) (hd : d ≠ 0) :
    (quotient n d hd).toRat = (n.toInt : ℚ) / d.toInt := by
  have hd' : d.toInt ≠ 0 := fun h ↦ hd (Int64.toInt_inj.1 h)
  let g := Nat.gcd n.toInt.natAbs d.toInt.natAbs
  have hg : (g : ℚ) ≠ 0 := by
    exact_mod_cast Nat.gcd_ne_zero_right (Int.natAbs_ne_zero.2 hd')
  have hratio : ((n.toInt.natAbs / g : ℕ) : ℚ) / ((d.toInt.natAbs / g : ℕ) : ℚ) =
      (n.toInt.natAbs : ℚ) / (d.toInt.natAbs : ℚ) := by
    rw [Nat.cast_div (Nat.gcd_dvd_left _ _) hg, Nat.cast_div (Nat.gcd_dvd_right _ _) hg]
    exact div_div_div_cancel_right₀ hg _ _
  have hzero : (n.toInt.natAbs / g != 0) = (n.toInt.natAbs != 0) := by
    rw [Bool.eq_iff_iff, bne_iff_ne, bne_iff_ne, ne_eq, ne_eq, not_iff_not]
    exact ⟨Nat.eq_zero_of_dvd_of_div_eq_zero (Nat.gcd_dvd_left _ _),
      fun h ↦ by rw [h, Nat.zero_div]⟩
  obtain ⟨himproper, hden, _⟩ := parts_quotient n d hd
  have hnegative : (quotient n d hd).negative =
      (decide (n.toInt < 0) != decide (d.toInt < 0) && n.toInt.natAbs != 0) := by
    rw [← hzero]
    simp only [quotient, Int64.lt_iff_toInt_lt, Int64.toInt_zero, g]
  rw [toRat_eq_signed, himproper, hden, hratio, hnegative, signed_div _ _ hd']

theorem toRat_of_add? {f g h : Fraction} (hsum : f.add? g = some h) :
    h.toRat = f.toRat + g.toRat := toRat_of_ofRat? hsum

theorem toRat_of_sub? {f g h : Fraction} (hdiff : f.sub? g = some h) :
    h.toRat = f.toRat - g.toRat := toRat_of_ofRat? hdiff

theorem toRat_of_mul? {f g h : Fraction} (hprod : f.mul? g = some h) :
    h.toRat = f.toRat * g.toRat := toRat_of_ofRat? hprod

theorem toRat_of_div? {f g h : Fraction} (hquot : f.div? g = some h) :
    h.toRat = f.toRat / g.toRat := by
  unfold div? at hquot
  split at hquot
  · simp at hquot
  · exact toRat_of_ofRat? hquot

end Fraction

/-! ## Values of numbers -/

namespace Number

/-- A number is exact if it denotes a rational. -/
theorem isExact_iff {a : Number} : a.isExact = true ↔ ∃ x, a.toRat? = some x := by
  cases a <;> simp [isExact]

theorem toRat?_toFraction? {a : Number} {f : Fraction} (h : a.toFraction? = some f) :
    a.toRat? = some f.toRat := by
  cases a with
  | integer v =>
    have hf := Option.some.inj h
    simp [← hf]
  | fraction g =>
    have hf := Option.some.inj h
    simp [← hf]
  | float x => simp [toFraction?] at h

/-- An exact number is zero if the rational that it denotes is. -/
theorem isZero_iff {a : Number} (h : a.isExact = true) : a.isZero = true ↔ a.toRat? = some 0 := by
  cases a with
  | integer v => simp [isZero, ← Int64.toInt_inj]
  | fraction f => simpa [isZero] using f.isZero_iff
  | float x => simp [isExact] at h

theorem isNegative_iff {a : Number} {x : ℚ} (h : a.toRat? = some x) :
    a.isNegative = true ↔ x < 0 := by
  cases a with
  | integer v =>
    rw [← Option.some.inj h, isNegative, decide_eq_true_iff, Int64.lt_iff_toInt_lt,
      Int64.toInt_zero]
    exact_mod_cast Iff.rfl
  | fraction f =>
    rw [← Option.some.inj h, ← Rat.num_neg]
    exact f.isNegative_iff
  | float y => simp at h

section exactResult

variable {onIntegers : ℤ → ℤ → ℤ} {onFractions : Fraction → Fraction → Option Fraction}
  {op : ℚ → ℚ → ℚ}

/--
An exact result has the value of the operation, provided that on integers and on fractions the
operation has its own value.
-/
theorem toRat?_exactResult? (hint : ∀ v w : ℤ, (onIntegers v w : ℚ) = op v w)
    (hfrac : ∀ f g h, onFractions f g = some h → h.toRat = op f.toRat g.toRat)
    {a b c : Number} (h : exactResult? onIntegers onFractions a b = some c) :
    ∃ x y, a.toRat? = some x ∧ b.toRat? = some y ∧ c.toRat? = some (op x y) := by
  unfold exactResult? at h
  split at h
  · rename_i v w
    obtain ⟨u, hu, hc⟩ := Option.map_eq_some_iff.1 h
    refine ⟨v.toInt, w.toInt, rfl, rfl, ?_⟩
    rw [← hc, toRat?_integer, Word.int64?_eq_some_iff.1 hu, hint]
  · simp only [Option.bind_eq_bind, Option.bind_eq_some_iff, Option.map_eq_some_iff] at h
    obtain ⟨f, hf, g, hg, r, hr, hc⟩ := h
    refine ⟨f.toRat, g.toRat, toRat?_toFraction? hf, toRat?_toFraction? hg, ?_⟩
    rw [← hc, toRat?_fraction, hfrac f g r hr]

/-- With a double in place of a missing exact result, an exact number is the exact result. -/
theorem eq_some_of_getD_float {result : Option Number} {x : Float} {q : ℚ}
    (h : (result.getD (float x)).toRat? = some q) : ∃ c, result = some c ∧ c.toRat? = some q := by
  cases result with
  | none => simp at h
  | some c => exact ⟨c, rfl, h⟩

theorem toRat?_exactResult?_getD (hint : ∀ v w : ℤ, (onIntegers v w : ℚ) = op v w)
    (hfrac : ∀ f g h, onFractions f g = some h → h.toRat = op f.toRat g.toRat)
    {a b : Number} {x : Float} {q : ℚ}
    (h : ((exactResult? onIntegers onFractions a b).getD (float x)).toRat? = some q) :
    ∃ y z, a.toRat? = some y ∧ b.toRat? = some z ∧ q = op y z := by
  obtain ⟨c, hc, hq⟩ := eq_some_of_getD_float h
  obtain ⟨y, z, hy, hz, hvalue⟩ := toRat?_exactResult? hint hfrac hc
  refine ⟨y, z, hy, hz, ?_⟩
  exact Option.some.inj (hq.symm.trans hvalue)

end exactResult

/-- An exact sum is the sum of two exact numbers. -/
theorem toRat?_add {a b : Number} {q : ℚ} (h : (a + b).toRat? = some q) :
    ∃ x y, a.toRat? = some x ∧ b.toRat? = some y ∧ q = x + y :=
  toRat?_exactResult?_getD (fun v w ↦ Int.cast_add v w) (fun _ _ _ ↦ Fraction.toRat_of_add?) h

/-- An exact difference is the difference of two exact numbers. -/
theorem toRat?_sub {a b : Number} {q : ℚ} (h : (a - b).toRat? = some q) :
    ∃ x y, a.toRat? = some x ∧ b.toRat? = some y ∧ q = x - y :=
  toRat?_exactResult?_getD (fun v w ↦ Int.cast_sub v w) (fun _ _ _ ↦ Fraction.toRat_of_sub?) h

/-- An exact product is the product of two exact numbers. -/
theorem toRat?_mul {a b : Number} {q : ℚ} (h : (a * b).toRat? = some q) :
    ∃ x y, a.toRat? = some x ∧ b.toRat? = some y ∧ q = x * y :=
  toRat?_exactResult?_getD (fun v w ↦ Int.cast_mul v w) (fun _ _ _ ↦ Fraction.toRat_of_mul?) h

/-- An exact negation is the negation of an exact number. -/
theorem toRat?_neg {a : Number} {q : ℚ} (h : (-a).toRat? = some q) :
    ∃ x, a.toRat? = some x ∧ q = -x := by
  cases a with
  | integer v =>
    obtain ⟨c, hc, hq⟩ := eq_some_of_getD_float h
    obtain ⟨w, hw, hcw⟩ := Option.map_eq_some_iff.1 hc
    refine ⟨v.toInt, rfl, ?_⟩
    rw [← hcw, toRat?_integer, Word.int64?_eq_some_iff.1 hw, Int.cast_neg] at hq
    exact (Option.some.inj hq).symm
  | fraction f =>
    refine ⟨f.toRat, rfl, ?_⟩
    rw [← f.toRat_negated]
    exact (Option.some.inj h).symm
  | float x =>
    change (float (-x)).toRat? = some q at h
    simp at h

theorem toRat?_divIntegers (a b : Int64) (hb : b ≠ 0) :
    (divIntegers a b hb).toRat? = some ((a.toInt : ℚ) / b.toInt) := by
  have hb' : (b.toInt : ℚ) ≠ 0 := by
    intro h
    exact hb (Int64.toInt_inj.1 (by exact_mod_cast h))
  unfold divIntegers
  split
  · rename_i q hq
    split at hq
    · rename_i hdvd
      rw [toRat?_integer, Word.int64?_eq_some_iff.1 hq, Int.tdiv_eq_ediv_of_dvd hdvd,
        Int.cast_div hdvd hb']
    · simp at hq
  · rw [toRat?_fraction, Fraction.toRat_quotient]

theorem toRat?_exactQuotient? {a b c : Number} (h : exactQuotient? a b = some c) :
    ∃ x y, a.toRat? = some x ∧ b.toRat? = some y ∧ c.toRat? = some (x / y) := by
  unfold exactQuotient? at h
  split at h
  · rename_i v w
    split at h
    · rename_i hw
      refine ⟨v.toInt, w.toInt, rfl, rfl, ?_⟩
      rw [← Option.some.inj h, toRat?_divIntegers]
    · simp at h
  · simp only [Option.bind_eq_bind, Option.bind_eq_some_iff, Option.map_eq_some_iff] at h
    obtain ⟨f, hf, g, hg, r, hr, hc⟩ := h
    refine ⟨f.toRat, g.toRat, toRat?_toFraction? hf, toRat?_toFraction? hg, ?_⟩
    rw [← hc, toRat?_fraction, Fraction.toRat_of_div? hr]

/-- A quotient is absent exactly if the divisor is an exact zero. -/
theorem div?_eq_none_iff {a b : Number} : a.div? b = none ↔ b.toRat? = some 0 := by
  unfold div?
  split
  · rename_i h
    rw [Bool.and_eq_true] at h
    simp [(isZero_iff h.1).1 h.2]
  · rename_i h
    have hzero : b.toRat? ≠ some 0 := by
      intro hb
      have hexact := isExact_iff.2 ⟨0, hb⟩
      exact h (by rw [hexact, (isZero_iff hexact).2 hb]; rfl)
    simp [hzero]

/-- An exact quotient is the quotient of two exact numbers, of which the second is not zero. -/
theorem toRat?_div? {a b c : Number} {q : ℚ} (h : a.div? b = some c) (hq : c.toRat? = some q) :
    ∃ x y, a.toRat? = some x ∧ b.toRat? = some y ∧ y ≠ 0 ∧ q = x / y := by
  have hdefined : b.toRat? ≠ some 0 := by
    intro hzero
    rw [div?_eq_none_iff.2 hzero] at h
    simp at h
  unfold div? at h
  split at h
  · simp at h
  · rw [← Option.some.inj h] at hq
    obtain ⟨d, hd, hdq⟩ := eq_some_of_getD_float hq
    obtain ⟨x, y, hx, hy, hvalue⟩ := toRat?_exactQuotient? hd
    refine ⟨x, y, hx, hy, ?_, Option.some.inj (hdq.symm.trans hvalue)⟩
    intro hzero
    exact hdefined (hzero ▸ hy)

end Number

end SchoolAlgebra
