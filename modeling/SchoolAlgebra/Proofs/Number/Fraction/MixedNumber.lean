import Mathlib
import SchoolAlgebra.Proofs.Number.ExactPower

/-!
# Reduced mixed numbers

The reduced mixed number of a rational has a whole part and a proper part below one with coprime
numerator and denominator, and a sign exactly if the rational lies below zero. Where words hold its
parts, it is the one fraction in lowest terms of that value.

Sums, differences, products, quotients, whole powers and reciprocals of fractions are the reduced
mixed numbers of their exact values, and they are absent only where they are undefined or where
words do not hold a part. The forms of a fraction keep its value, and the proper form is a normal
form: it is the reduced mixed number of that value.
-/

namespace SchoolAlgebra

theorem Word.uint64?_eq_none_iff {n : ℕ} : uint64? n = none ↔ UInt64.size ≤ n := by
  simp [uint64?]

namespace Fraction

variable {f g : Fraction} {q : ℚ}

/-- The whole part, the numerator and the denominator of the reduced mixed number of a rational. -/
def mixedParts (q : ℚ) : List ℕ := [q.num.natAbs / q.den, q.num.natAbs % q.den, q.den]

/-- The numerator lies below the denominator, so words hold it if they hold the other two parts. -/
theorem forall_mixedParts_lt_iff :
    (∀ part ∈ mixedParts q, part < UInt64.size) ↔ Number.FitsFraction q := by
  have hnumerator := Nat.mod_lt q.num.natAbs q.den_pos
  rw [mixedParts, List.forall_mem_cons, List.forall_mem_cons, List.forall_mem_singleton]
  exact ⟨fun h ↦ ⟨h.1, h.2.2⟩, fun h ↦ ⟨h.1, hnumerator.trans h.2, h.2⟩⟩

/-- Whether the fraction is the reduced mixed number of a rational. -/
structure IsMixedNumber (f : Fraction) (q : ℚ) : Prop where
  toRat_eq : f.toRat = q
  numerator_lt : f.numerator.toNat < f.denominator.toNat
  coprime : f.numerator.toNat.Coprime f.denominator.toNat
  negative_iff : f.negative = true ↔ q < 0

theorem coprime_improperNumerator_iff (f : Fraction) :
    f.improperNumerator.Coprime f.denominator.toNat ↔
      f.numerator.toNat.Coprime f.denominator.toNat :=
  Nat.coprime_mul_right_add_left _ _ _

theorem improperNumerator_eq_zero_iff (f : Fraction) : f.improperNumerator = 0 ↔ f.toRat = 0 := by
  have hden : (f.denominator.toNat : ℚ) ≠ 0 := by exact_mod_cast f.denominator_toNat_ne_zero
  rw [← abs_eq_zero, abs_toRat, div_eq_zero_iff, or_iff_left hden, Nat.cast_eq_zero]

/-- The reduced mixed numbers are the fractions in lowest terms. -/
theorem isMixedNumber_iff : f.IsMixedNumber q ↔ f.IsLowest ∧ f.toRat = q := by
  have hneg : f.negative = true ∧ f.toRat ≠ 0 ↔ f.toRat < 0 := by
    rw [← Rat.num_neg, ← isNegative_iff, isNegative, Bool.and_eq_true, Bool.not_eq_true',
      ne_eq, ← isZero_iff, Bool.not_eq_true]
  constructor
  · rintro ⟨rfl, hlt, hcoprime, hnegative⟩
    refine ⟨⟨hlt, f.coprime_improperNumerator_iff.2 hcoprime, fun h ↦ ?_⟩, rfl⟩
    exact mt f.improperNumerator_eq_zero_iff.1 (hnegative.1 h).ne
  · rintro ⟨hlowest, rfl⟩
    refine ⟨rfl, hlowest.numerator_lt, f.coprime_improperNumerator_iff.1 hlowest.coprime, ?_⟩
    rw [← hneg]
    exact ⟨fun h ↦ ⟨h, mt f.improperNumerator_eq_zero_iff.2 (hlowest.ne_zero h)⟩, fun h ↦ h.1⟩

/-- A rational is turned into its reduced mixed number and into nothing else. -/
theorem ofRat?_eq_some_iff : ofRat? q = some f ↔ f.IsMixedNumber q := by
  rw [isMixedNumber_iff]
  constructor
  · exact fun h ↦ ⟨isLowest_of_ofRat? h, toRat_of_ofRat? h⟩
  · rintro ⟨hlowest, rfl⟩
    exact hlowest.ofRat?_toRat

/--
Whether an operation of value `q` answers with the reduced mixed number of that value, and answers
exactly if it is defined and words hold the parts of that mixed number.
-/
structure IsExactAnswer (isDefined : Prop) (q : ℚ) (answer : Option Fraction) : Prop where
  exists_iff : (∃ f, answer = some f) ↔ isDefined ∧ ∀ part ∈ mixedParts q, part < UInt64.size
  isMixedNumber : ∀ f, answer = some f → f.IsMixedNumber q

/-- An operation that is refused where it is undefined and else reduces its value is exact. -/
theorem isExactAnswer_ite (isUndefined : Prop) [Decidable isUndefined] (q : ℚ) :
    IsExactAnswer (¬isUndefined) q (if isUndefined then none else ofRat? q) where
  exists_iff := by
    rw [forall_mixedParts_lt_iff, ← not_iff_not, not_and_or, not_not, ← Number.ofRat?_eq_none_iff]
    split
    · rename_i h
      simp [h]
    · rename_i h
      simp [h, Option.eq_none_iff_forall_ne_some]
  isMixedNumber f hf := ofRat?_eq_some_iff.1 (Option.ite_none_left_eq_some.1 hf).2

theorem isExactAnswer_ofRat? (q : ℚ) : IsExactAnswer True q (ofRat? q) := by
  simpa using isExactAnswer_ite False q

theorem isExactAnswer_div? (f g : Fraction) :
    IsExactAnswer (g.toRat ≠ 0) (f.toRat / g.toRat) (f.div? g) := by
  rw [ne_eq, ← isZero_iff]
  exact isExactAnswer_ite _ _

theorem isExactAnswer_pow? (f : Fraction) (n : ℤ) :
    IsExactAnswer (f.toRat = 0 → 0 ≤ n) (f.toRat ^ n) (f.pow? n) := by
  have hdefined : (f.toRat = 0 → 0 ≤ n) ↔ ¬(f.toRat = 0 ∧ n < 0) := by
    rw [not_and, not_lt]
  rw [hdefined, pow?_eq_ofRat?]
  exact isExactAnswer_ite _ _

theorem isExactAnswer_reciprocal? (f : Fraction) :
    IsExactAnswer (f.toRat ≠ 0) f.toRat⁻¹ f.reciprocal? := by
  have hone : (ofInt64 1).toRat = 1 := toRat_ofInt64 1
  rw [← one_div, ← hone]
  exact isExactAnswer_div? _ f

/--
Arithmetic on fractions answers with the reduced mixed number of the exact value wherever it is
defined and words hold the parts. A quotient by zero, a reciprocal of zero and a negative power of
zero are undefined, and zero to the power of zero is one.
-/
theorem isExactAnswer_arithmetic (f g : Fraction) (n : ℤ) :
    IsExactAnswer True (f.toRat + g.toRat) (f.add? g) ∧
      IsExactAnswer True (f.toRat - g.toRat) (f.sub? g) ∧
      IsExactAnswer True (f.toRat * g.toRat) (f.mul? g) ∧
      IsExactAnswer (g.toRat ≠ 0) (f.toRat / g.toRat) (f.div? g) ∧
      IsExactAnswer (f.toRat = 0 → 0 ≤ n) (f.toRat ^ n) (f.pow? n) ∧
      IsExactAnswer (f.toRat ≠ 0) f.toRat⁻¹ f.reciprocal? :=
  ⟨isExactAnswer_ofRat? _, isExactAnswer_ofRat? _, isExactAnswer_ofRat? _, isExactAnswer_div? f g,
    isExactAnswer_pow? f n, isExactAnswer_reciprocal? f⟩

example : (ofInt64 2).pow? 63 = some ⟨false, 2 ^ 63, 0, 1, by decide⟩ ∧
    (ofInt64 2).pow? 64 = none := by
  decide +kernel

/-- The whole part of the value, which the proper part may add to. -/
theorem natAbs_num_div_den_toRat (f : Fraction) :
    f.toRat.num.natAbs / f.toRat.den =
      f.whole.toNat + f.numerator.toNat / f.denominator.toNat := by
  have hden := Nat.pos_of_ne_zero f.denominator_toNat_ne_zero
  have hvalue : (f.toRat.num.natAbs : ℚ) / f.toRat.den =
      (f.improperNumerator : ℚ) / f.denominator.toNat := by
    rw [← abs_toRat, Nat.cast_natAbs, Int.cast_abs, ← Nat.abs_cast f.toRat.den, ← abs_div,
      Rat.num_div_den]
  have hfloor := congrArg Nat.floor hvalue
  rw [Nat.floor_div_eq_div, Nat.floor_div_eq_div] at hfloor
  rw [hfloor, improperNumerator, Nat.mul_comm, Nat.mul_add_div hden]

/-- There is a proper form, unless the whole part of the value exceeds words. -/
theorem proper?_eq_none_iff (f : Fraction) :
    f.proper? = none ↔
      UInt64.size ≤ f.whole.toNat + f.numerator.toNat / f.denominator.toNat := by
  rw [proper?, Number.ofRat?_eq_none_iff, Number.FitsFraction, and_iff_left f.den_toRat_lt, not_lt,
    natAbs_num_div_den_toRat]

theorem proper?_eq_some_iff : f.proper? = some g ↔ g.IsMixedNumber f.toRat := ofRat?_eq_some_iff

theorem improper?_eq_none_iff (f : Fraction) :
    f.improper? = none ↔
      UInt64.size ≤ f.whole.toNat * f.denominator.toNat + f.numerator.toNat := by
  rw [improper?, Option.map_eq_none_iff, Word.uint64?_eq_none_iff, improperNumerator]

/-- Folding the whole part into the numerator keeps the improper form. -/
theorem eq_of_improper? (h : f.improper? = some g) :
    g = { f with whole := 0, numerator := g.numerator } ∧
      g.numerator.toNat = f.improperNumerator := by
  obtain ⟨n, hn, rfl⟩ := Option.map_eq_some_iff.1 h
  exact ⟨rfl, Word.uint64?_eq_some_iff.1 hn⟩

theorem toRat_of_improper? (h : f.improper? = some g) : g.toRat = f.toRat := by
  obtain ⟨hg, hnumerator⟩ := eq_of_improper? h
  have himproper : g.improperNumerator = f.improperNumerator := by
    rw [hg, improperNumerator, UInt64.toNat_zero, Nat.zero_mul, Nat.zero_add, hnumerator]
  rw [toRat, toRat, himproper, hg]

/-- The simplest form folds the whole part of the proper form. -/
theorem simplest?_eq_none_iff (f : Fraction) :
    f.simplest? = none ↔ f.proper? = none ∨ UInt64.size ≤ f.toRat.num.natAbs := by
  cases hproper : f.proper? with
  | none => simp [simplest?, hproper]
  | some p =>
    obtain ⟨hlowest, hvalue⟩ := isMixedNumber_iff.1 (proper?_eq_some_iff.1 hproper)
    rw [simplest?, hproper, Option.bind_some, improper?_eq_none_iff, ← improperNumerator,
      ← hlowest.natAbs_num_toRat, hvalue, or_iff_right (Option.some_ne_none p)]

theorem toRat_of_proper? (h : f.proper? = some g) : g.toRat = f.toRat := toRat_of_ofRat? h

theorem toRat_of_simplest? (h : f.simplest? = some g) : g.toRat = f.toRat := by
  obtain ⟨p, hp, hg⟩ := Option.bind_eq_some_iff.1 h
  rw [toRat_of_improper? hg, toRat_of_proper? hp]

/-- Fractions of one value have one proper form. -/
theorem proper?_congr (h : f.toRat = g.toRat) : f.proper? = g.proper? := by
  rw [proper?, proper?, h]

theorem simplest?_congr (h : f.toRat = g.toRat) : f.simplest? = g.simplest? := by
  rw [simplest?, simplest?, proper?_congr h]

/-- The quotient of two words is a proper form. -/
theorem isMixedNumber_quotient (n d : Int64) (hd : d ≠ 0) :
    (quotient n d hd).IsMixedNumber ((n.toInt : ℚ) / d.toInt) :=
  isMixedNumber_iff.2 ⟨isLowest_quotient n d hd, toRat_quotient n d hd⟩

/--
The forms of a fraction keep its value and are absent only where a part exceeds words. The proper
form and the simplest form are their own forms. The proper form is the reduced mixed number of the
value, so that fractions of one value have one proper form, and the quotient of two words is such a
mixed number.
-/
theorem forms_normalize (f g : Fraction) (n d : Int64) (hd : d ≠ 0) :
    (f.proper? = none ↔
        UInt64.size ≤ f.whole.toNat + f.numerator.toNat / f.denominator.toNat) ∧
      (f.improper? = none ↔
        UInt64.size ≤ f.whole.toNat * f.denominator.toNat + f.numerator.toNat) ∧
      (f.simplest? = none ↔ f.proper? = none ∨ UInt64.size ≤ f.toRat.num.natAbs) ∧
      (∀ r, f.proper? = some r ∨ f.improper? = some r ∨ f.simplest? = some r →
        r.toRat = f.toRat) ∧
      (∀ r, f.proper? = some r → r.proper? = some r) ∧
      (∀ r, f.simplest? = some r → r.simplest? = some r) ∧
      (∀ r, f.proper? = some r ↔ r.IsMixedNumber f.toRat) ∧
      (∀ r s, f.proper? = some r → g.proper? = some s → (f.toRat = g.toRat ↔ r = s)) ∧
      (quotient n d hd).IsMixedNumber ((n.toInt : ℚ) / d.toInt) := by
  refine ⟨f.proper?_eq_none_iff, f.improper?_eq_none_iff, f.simplest?_eq_none_iff, ?_, ?_, ?_,
    fun r ↦ proper?_eq_some_iff, ?_, isMixedNumber_quotient n d hd⟩
  · rintro r (h | h | h)
    · exact toRat_of_proper? h
    · exact toRat_of_improper? h
    · exact toRat_of_simplest? h
  · intro r h
    rw [proper?_congr (toRat_of_proper? h), h]
  · intro r h
    rw [simplest?_congr (toRat_of_simplest? h), h]
  · intro r s hr hs
    constructor
    · intro h
      exact Option.some.inj (hr.symm.trans ((proper?_congr h).trans hs))
    · rintro rfl
      rw [← toRat_of_proper? hr, ← toRat_of_proper? hs]

/-- The proper form of minus six fourths is that of minus one and two fourths, and a quotient. -/
theorem forms_normalize_minusSixFourths :
    (4 : Int64) ≠ 0 ∧
      (⟨true, 0, 6, 4, by decide⟩ : Fraction).proper? = some ⟨true, 1, 1, 2, by decide⟩ ∧
      (⟨true, 1, 2, 4, by decide⟩ : Fraction).proper? = some ⟨true, 1, 1, 2, by decide⟩ ∧
      (⟨true, 0, 6, 4, by decide⟩ : Fraction).toRat =
        (⟨true, 1, 2, 4, by decide⟩ : Fraction).toRat ∧
      (quotient (-6) 4 (by decide)).IsMixedNumber
        (((-6 : Int64).toInt : ℚ) / (4 : Int64).toInt) := by
  have hf : (⟨true, 0, 6, 4, by decide⟩ : Fraction).proper? =
      some ⟨true, 1, 1, 2, by decide⟩ := by decide +kernel
  have hg : (⟨true, 1, 2, 4, by decide⟩ : Fraction).proper? =
      some ⟨true, 1, 1, 2, by decide⟩ := by decide +kernel
  obtain ⟨_, _, _, _, _, _, _, hunique, hquotient⟩ :=
    forms_normalize ⟨true, 0, 6, 4, by decide⟩ ⟨true, 1, 2, 4, by decide⟩ (-6) 4 (by decide)
  exact ⟨by decide, hf, hg, (hunique _ _ hf hg).2 rfl, hquotient⟩

end Fraction

end SchoolAlgebra
