import Mathlib
import SchoolAlgebra.Proofs.Number.Fraction.MixedNumber
import SchoolAlgebra.Proofs.Number.Fraction.Written

/-!
# Fractions that are written and read

The text of a fraction writes a fraction of the same value: one without a sign on zero, and without
a proper part if that is zero or stands over one. A fraction in lowest terms is written as it is.
Since what is written is read, reading the text of a fraction answers with a fraction of its value.

A proper part over one is added to the whole part. The sum need not be a word, and there is no other
fraction whose text is not read.
-/

namespace SchoolAlgebra

theorem Word.one_ne_zero : (1 : UInt64) ≠ 0 := UInt64.zero_ne_one.symm

namespace Fraction

variable {f g : Fraction}

/-- The fraction that the text of a fraction writes. -/
def written (f : Fraction) : Fraction :=
  if f.numerator = 0 then ⟨f.isNegative, f.whole, 0, 1, Word.one_ne_zero⟩
  else if f.denominator = 1 then ⟨f.isNegative, f.whole + f.numerator, 0, 1, Word.one_ne_zero⟩
  else { f with negative := f.isNegative }

/-- Whether a word holds the whole part that the text of the fraction shows. -/
def ShowsWord (f : Fraction) : Prop :=
  f.denominator = 1 → f.numerator ≠ 0 → f.whole.toNat + f.numerator.toNat < UInt64.size

theorem ShowsWord.toNat_add (h : f.ShowsWord) (hd : f.denominator = 1) (hn : f.numerator ≠ 0) :
    (f.whole + f.numerator).toNat = f.whole.toNat + f.numerator.toNat := by
  rw [UInt64.toNat_add, Nat.mod_eq_of_lt (h hd hn)]

theorem negative_written (f : Fraction) : f.written.negative = f.isNegative := by
  unfold written
  split_ifs <;> rfl

theorem isNumeral_toString {n : ℕ} {w : UInt64} (h : w.toNat = n) :
    IsNumeral (toString n).toList w := by
  rw [Decimal.toList_toString]
  exact ⟨Nat.toDigits_ne_nil, fun _ ↦ Decimal.isDigit_of_mem_digits,
    (Decimal.natOfDigits_digits n).trans h.symm⟩

theorem isRatio_toString (n d : UInt64) : IsRatio s!"{n.toNat}/{d.toNat}".toList n d := by
  have hjoin : s!"{n.toNat}/{d.toNat}" = toString n.toNat ++ ("/" ++ toString d.toNat) :=
    String.append_assoc
  have hn : IsNumeral (toString n.toNat).toList n := isNumeral_toString rfl
  have hd : IsNumeral (toString d.toNat).toList d := isNumeral_toString rfl
  rw [hjoin, String.toList_append, String.toList_append]
  exact .slash hn (List.forall_mem_nil _) (List.forall_mem_nil _) hd

theorem isWritten_signed {magnitude : String} {parts : UInt64 × UInt64 × UInt64} (negative : Bool)
    (h : IsMagnitude magnitude.toList parts) :
    IsWritten (if negative then "-" ++ magnitude else magnitude).toList negative parts := by
  cases negative with
  | false =>
    have hwritten : IsWritten ([] ++ (magnitude.toList ++ [])) false parts :=
      .unsigned nofun h nofun
    rwa [List.nil_append, List.append_nil] at hwritten
  | true =>
    have hwritten : IsWritten ([] ++ '-' :: ([] ++ (magnitude.toList ++ []))) true parts :=
      .signed nofun nofun h nofun
    rw [List.append_nil] at hwritten
    rwa [if_pos rfl, String.toList_append]

theorem isWritten_toText (h : f.ShowsWord) :
    IsWritten f.toText.toList f.written.negative
      (f.written.whole, f.written.numerator, f.written.denominator) := by
  have hzero (n : UInt64) : n.toNat = 0 ↔ n = 0 := by rw [← UInt64.toNat_inj, UInt64.toNat_zero]
  have hone : f.denominator.toNat = 1 ↔ f.denominator = 1 := by
    rw [← UInt64.toNat_inj, UInt64.toNat_one]
  rw [negative_written, toText]
  simp only [hzero, hone]
  refine isWritten_signed _ ?_
  unfold written
  split_ifs with hn hd hw
  · exact .whole (isNumeral_toString rfl)
  · exact .whole (isNumeral_toString (h.toNat_add hd hn))
  · rw [hw]
    exact .ratio (isRatio_toString _ _)
  · have hjoin : s!"{f.whole.toNat} {f.numerator.toNat}/{f.denominator.toNat}" =
        toString f.whole.toNat ++ (" " ++ s!"{f.numerator.toNat}/{f.denominator.toNat}") := by
      rw [← String.append_assoc, ← String.append_assoc, ← String.append_assoc]
      rfl
    have hgap : AreGaps [' '] := by simp [AreGaps, isGap]
    rw [hjoin, String.toList_append, String.toList_append]
    exact .mixed (isNumeral_toString rfl) hgap (List.cons_ne_nil _ _) (isRatio_toString _ _)

theorem abs_toRat_written (h : f.ShowsWord) : |f.written.toRat| = |f.toRat| := by
  rw [abs_toRat, abs_toRat]
  unfold written
  split_ifs with hn hd
  · have hden : (f.denominator.toNat : ℚ) ≠ 0 := by exact_mod_cast f.denominator_toNat_ne_zero
    simp [improperNumerator, hn, hden]
  · simp [improperNumerator, hd, h.toNat_add hd hn]
  · rfl

theorem isZero_eq_of_abs_eq (habs : |f.toRat| = |g.toRat|) : f.isZero = g.isZero := by
  rw [Bool.eq_iff_iff, isZero_iff, isZero_iff, ← abs_eq_zero, habs, abs_eq_zero]

/-- Fractions of one magnitude have one value if both of them or none lie below zero. -/
theorem toRat_eq_of_abs_eq (habs : |f.toRat| = |g.toRat|) (hsign : f.isNegative = g.isNegative) :
    f.toRat = g.toRat := by
  rcases abs_eq_abs.1 habs with h | h
  · exact h
  · rw [Bool.eq_iff_iff, isNegative_iff, isNegative_iff, Rat.num_neg, Rat.num_neg, h,
      neg_lt_zero] at hsign
    have hzero : g.toRat = 0 := by
      rcases lt_trichotomy g.toRat 0 with hlt | heq | hgt
      · exact absurd (hsign.2 hlt) hlt.not_gt
      · exact heq
      · exact absurd (hsign.1 hgt) hgt.not_gt
    rw [h, hzero, neg_zero]

theorem toRat_written (h : f.ShowsWord) : f.written.toRat = f.toRat := by
  have habs := abs_toRat_written h
  refine toRat_eq_of_abs_eq habs ?_
  rw [isNegative, negative_written, isZero_eq_of_abs_eq habs, isNegative, Bool.and_assoc,
    Bool.and_self]

/-- Lowest terms have a sign only below zero, and stand over one only if there is no proper part. -/
theorem IsLowest.written_eq (h : f.IsLowest) : f.written = f := by
  have hsign : f.isNegative = f.negative := by
    rw [isNegative, Bool.and_eq_left_iff_imp, Bool.not_eq_true']
    intro hnegative
    rw [Bool.eq_false_iff, ne_eq, isZero_iff, ← improperNumerator_eq_zero_iff]
    exact h.ne_zero hnegative
  unfold written
  rw [hsign]
  split_ifs with hn hd
  · have hcoprime := f.coprime_improperNumerator_iff.1 h.coprime
    rw [hn, UInt64.toNat_zero, Nat.coprime_zero_left, ← UInt64.toNat_one, UInt64.toNat_inj]
      at hcoprime
    obtain ⟨negative, whole, numerator, denominator, hne⟩ := f
    obtain rfl : numerator = 0 := hn
    obtain rfl : denominator = 1 := hcoprime
    rfl
  · have hlt := h.numerator_lt
    rw [hd, UInt64.toNat_one, Nat.lt_one_iff, ← UInt64.toNat_zero, UInt64.toNat_inj] at hlt
    exact absurd hlt hn
  · rfl

theorem ofText_toText_eq_written (h : f.ShowsWord) : ofText f.toText = .ok f.written :=
  ofText_eq_iff.2 (.fraction (isWritten_toText h))

/--
Reading the text of a fraction answers with a fraction of the same value, and with the same fraction
if it is in lowest terms.
-/
theorem ofText_toText (f : Fraction) (h : f.ShowsWord) :
    ∃ g, ofText f.toText = .ok g ∧ g.toRat = f.toRat ∧ (f.IsLowest → g = f) :=
  ⟨f.written, ofText_toText_eq_written h, toRat_written h, IsLowest.written_eq⟩

/-- The largest sum that a word holds. -/
theorem ofText_toText_largestSum :
    (⟨true, 18446744073709551614, 1, 1, by decide⟩ : Fraction).ShowsWord ∧
      ∃ g, ofText (⟨true, 18446744073709551614, 1, 1, by decide⟩ : Fraction).toText = .ok g ∧
        g.toRat = -18446744073709551615 := by
  have hshows : (⟨true, 18446744073709551614, 1, 1, by decide⟩ : Fraction).ShowsWord :=
    fun _ _ ↦ by decide
  obtain ⟨g, hread, hvalue, _⟩ := ofText_toText _ hshows
  refine ⟨hshows, g, hread, hvalue.trans ?_⟩
  decide +kernel

end Fraction

end SchoolAlgebra
