import Mathlib
import SchoolAlgebra.CommutativeForm.Order
import SchoolAlgebra.Proofs.Comparison
import SchoolAlgebra.Proofs.Number.ValueOrder

/-!
# The order of constants

Constants are ordered by value, and those of equal value by how they are written. The order is
transitive if no double stands between two exact constants against their order, and only a constant
itself is equal to it if no two zero fractions differ in their sign alone. Integers and doubles meet
both conditions.
-/

namespace SchoolAlgebra

/-- Two fractions with the same parts are the same or have opposite values. -/
theorem Fraction.eq_or_toRat_eq_neg {f g : Fraction} (hwhole : f.whole = g.whole)
    (hnumerator : f.numerator = g.numerator) (hdenominator : f.denominator = g.denominator) :
    f = g ∨ f.toRat = -g.toRat := by
  obtain ⟨m, w, n, d, hf⟩ := f
  obtain ⟨m', w', n', d', hg⟩ := g
  simp only at hwhole hnumerator hdenominator
  subst hwhole hnumerator hdenominator
  cases m <;> cases m'
  · exact .inl rfl
  · exact .inr (by simp [Fraction.toRat, Fraction.improperNumerator])
  · exact .inr (by simp [Fraction.toRat, Fraction.improperNumerator])
  · exact .inl rfl

namespace Number

/-- Whether the number is an integer or a double other than NaN. -/
def IsLiteral : Number → Prop
  | integer _ => True
  | fraction _ => False
  | float x => x.isNaN = false

/-- The order of two constants: by value, and constants of equal value by how they are written. -/
def compareConstant (a b : Number) : Ordering := (a.compare b).then (a.compareSpelling b)

variable {a b c : Number} {S : Set Number}

/-- The parts that a constant shows; those of zero, if it is not a fraction. -/
def shownParts : Number → Fraction
  | fraction f => f
  | _ => .ofInt64 0

theorem compareSpelling_eq (a b : Number) :
    a.compareSpelling b = (Ord.compare a.kindRank b.kindRank).then
      ((Ord.compare a.shownParts.whole b.shownParts.whole).then
        ((Ord.compare a.shownParts.numerator b.shownParts.numerator).then
          (Ord.compare a.shownParts.denominator b.shownParts.denominator))) := by
  cases a <;> cases b <;> rfl

theorem compareSpelling_swap (a b : Number) :
    (a.compareSpelling b).swap = b.compareSpelling a := by
  simp only [compareSpelling_eq, Ordering.swap_then, ← Std.OrientedOrd.eq_swap]

theorem isTransitive_compareSpelling (a b c : Number) :
    IsTransitive (a.compareSpelling b) (b.compareSpelling c) (a.compareSpelling c) := by
  rw [compareSpelling_eq, compareSpelling_eq, compareSpelling_eq]
  exact (isTransitive_compare _ _ _).then ((isTransitive_compare _ _ _).then
    ((isTransitive_compare _ _ _).then (isTransitive_compare _ _ _)))

theorem compareConstant_swap (a b : Number) :
    (a.compareConstant b).swap = b.compareConstant a := by
  rw [compareConstant, compareConstant, Ordering.swap_then, compare_swap, compareSpelling_swap]

/-- An exact constant comes before a double unless its own double comes after it. -/
theorem compareConstant_ne_gt_iff_of_float {x : Float} (ha : a.isExact = true) :
    a.compareConstant (float x) ≠ .gt ↔ a.rank ≤ Binary64.rank x := by
  have hspelling : a.compareSpelling (float x) = .lt := by
    cases a with
    | integer v => rfl
    | fraction f => rfl
    | float y => cases ha
  rw [compareConstant, compare_of_toRat?_eq_none (.inr rfl), hspelling, ne_eq,
    Ordering.then_eq_gt]
  simp [compare_gt_iff_gt, rank, toFloat]

theorem compareConstant_float_ne_gt_iff {x : Float} (ha : a.isExact = true) :
    (float x).compareConstant a ≠ .gt ↔ Binary64.rank x < a.rank := by
  have hspelling : (float x).compareSpelling a = .gt := by
    cases a with
    | integer v => rfl
    | fraction f => rfl
    | float y => cases ha
  rw [compareConstant, compare_of_toRat?_eq_none (.inl rfl), hspelling, ne_eq,
    Ordering.then_eq_gt, compare_gt_iff_gt, compare_eq_iff_eq, and_iff_left rfl,
    ← le_iff_lt_or_eq', not_le]
  rfl

theorem compareConstant_floats (x y : Float) :
    (float x).compareConstant (float y) = Ord.compare (Binary64.rank x) (Binary64.rank y) := by
  rw [compareConstant, compare_of_toRat?_eq_none (.inl rfl)]
  exact Ordering.then_eq

theorem isTransitive_compareConstant_of_isExact (ha : a.isExact = true) (hb : b.isExact = true)
    (hc : c.isExact = true) :
    IsTransitive (a.compareConstant b) (b.compareConstant c) (a.compareConstant c) := by
  obtain ⟨p, hp⟩ := isExact_iff.1 ha
  obtain ⟨q, hq⟩ := isExact_iff.1 hb
  obtain ⟨r, hr⟩ := isExact_iff.1 hc
  have hvalue : IsTransitive (a.compare b) (b.compare c) (a.compare c) := by
    rw [compare_of_toRat? hp hq, compare_of_toRat? hq hr, compare_of_toRat? hp hr]
    exact isTransitive_compare p q r
  exact hvalue.then (isTransitive_compareSpelling a b c)

/--
Whether the doubles of the set stand in order among its exact numbers: one that does not come before
the double of an exact number does not come before the double of an earlier one.
-/
def HasOrderedDoubles (S : Set Number) : Prop :=
  ∀ a ∈ S, ∀ b ∈ S, ∀ x : Float, float x ∈ S → a.isExact = true → b.isExact = true →
    a.compareConstant b ≠ .gt → b.rank ≤ Binary64.rank x → a.rank ≤ Binary64.rank x

theorem HasOrderedDoubles.compareConstant_trans (h : HasOrderedDoubles S) :
    ∀ a ∈ S, ∀ b ∈ S, ∀ c ∈ S, a.compareConstant b ≠ .gt → b.compareConstant c ≠ .gt →
      a.compareConstant c ≠ .gt := by
  have hexact : ∀ a : Number, a.isExact = true ∨ ∃ x, a = float x := by
    intro a
    cases a with
    | integer v => exact .inl rfl
    | fraction f => exact .inl rfl
    | float x => exact .inr ⟨x, rfl⟩
  intro a ha b hb c hc hab hbc
  rcases hexact a with haexact | ⟨x, rfl⟩
  · rcases hexact b with hbexact | ⟨y, rfl⟩
    · rcases hexact c with hcexact | ⟨z, rfl⟩
      · exact (isTransitive_compareConstant_of_isExact haexact hbexact hcexact).ne_gt hab hbc
      · rw [compareConstant_ne_gt_iff_of_float hbexact] at hbc
        rw [compareConstant_ne_gt_iff_of_float haexact]
        exact h a ha b hb z hc haexact hbexact hab hbc
    · rw [compareConstant_ne_gt_iff_of_float haexact] at hab
      rcases hexact c with hcexact | ⟨z, rfl⟩
      · rw [compareConstant_float_ne_gt_iff hcexact] at hbc
        intro hgt
        have hca : c.compareConstant a ≠ .gt := by
          rw [← compareConstant_swap, hgt]
          decide
        exact absurd (h c hc a ha y hb hcexact haexact hca hab) (not_le.2 hbc)
      · rw [compareConstant_floats, compare_le_iff_le] at hbc
        rw [compareConstant_ne_gt_iff_of_float haexact]
        exact hab.trans hbc
  · rcases hexact b with hbexact | ⟨y, rfl⟩
    · rw [compareConstant_float_ne_gt_iff hbexact] at hab
      rcases hexact c with hcexact | ⟨z, rfl⟩
      · rw [compareConstant_float_ne_gt_iff hcexact]
        by_contra hle
        exact absurd (h b hb c hc x ha hbexact hcexact hbc (not_lt.1 hle)) (not_le.2 hab)
      · rw [compareConstant_ne_gt_iff_of_float hbexact] at hbc
        rw [compareConstant_floats, compare_le_iff_le]
        exact hab.le.trans hbc
    · rw [compareConstant_floats, compare_le_iff_le] at hab
      rcases hexact c with hcexact | ⟨z, rfl⟩
      · rw [compareConstant_float_ne_gt_iff hcexact] at hbc ⊢
        exact hab.trans_lt hbc
      · rw [compareConstant_floats, compare_le_iff_le] at hbc ⊢
        exact hab.trans hbc

theorem HasOrderedDoubles.isTransitive_compareConstant (h : HasOrderedDoubles S) (ha : a ∈ S)
    (hb : b ∈ S) (hc : c ∈ S) :
    IsTransitive (a.compareConstant b) (b.compareConstant c) (a.compareConstant c) :=
  isTransitive_of_ne_gt compareConstant_swap h.compareConstant_trans ha hb hc

/-- Whether no two zero fractions of the set differ in their sign alone. -/
def HasUniqueZeros (S : Set Number) : Prop :=
  ∀ f g : Fraction, fraction f ∈ S → fraction g ∈ S → f.isZero = true → g.isZero = true →
    f.denominator = g.denominator → f = g

theorem eq_of_compareSpelling_eq {f g : Fraction}
    (h : (fraction f).compareSpelling (fraction g) = .eq) :
    f.whole = g.whole ∧ f.numerator = g.numerator ∧ f.denominator = g.denominator := by
  rw [compareSpelling, Ordering.then_eq_eq, Ordering.then_eq_eq, Std.compare_eq_iff_eq,
    Std.compare_eq_iff_eq, Std.compare_eq_iff_eq] at h
  exact h

/-- Only the sign of zero does not tell. -/
theorem HasUniqueZeros.eq_of_compareConstant_eq (h : HasUniqueZeros S) (ha : a ∈ S) (hb : b ∈ S)
    (heq : a.compareConstant b = .eq) : a = b := by
  obtain ⟨hvalue, hspelling⟩ := Ordering.then_eq_eq.1 heq
  cases a with
  | integer v =>
    cases b with
    | integer w =>
      rw [compare_of_toRat? (toRat?_integer v) (toRat?_integer w), compare_eq_iff_eq] at hvalue
      have hvw : v.toInt = w.toInt := by exact_mod_cast hvalue
      rw [Int64.toInt_inj.1 hvw]
    | _ => cases hspelling
  | fraction f =>
    cases b with
    | fraction g =>
      obtain ⟨hwhole, hnumerator, hdenominator⟩ := eq_of_compareSpelling_eq hspelling
      rw [compare_of_toRat? (toRat?_fraction f) (toRat?_fraction g), compare_eq_iff_eq] at hvalue
      rcases Fraction.eq_or_toRat_eq_neg hwhole hnumerator hdenominator with heq | hopposite
      · rw [heq]
      · have hf : f.toRat = 0 := by linarith
        have hg : g.toRat = 0 := by linarith
        rw [h f g ha hb (f.isZero_iff.2 hf) (g.isZero_iff.2 hg) hdenominator]
    | _ => cases hspelling
  | float x =>
    cases b with
    | float y =>
      rw [compare_of_toRat?_eq_none (.inl rfl), compare_eq_iff_eq] at hvalue
      exact congrArg float (Binary64.rank_injective hvalue)
    | _ => cases hspelling

/-- Zero fractions with the same denominator are equal in the order. -/
theorem compareConstant_of_isZero {f g : Fraction} (hf : f.isZero = true) (hg : g.isZero = true)
    (hdenominator : f.denominator = g.denominator) :
    (fraction f).compareConstant (fraction g) = .eq := by
  have hvalue : f.toRat = g.toRat := (f.isZero_iff.1 hf).trans (g.isZero_iff.1 hg).symm
  rw [Fraction.isZero, Bool.and_eq_true, beq_iff_eq, beq_iff_eq] at hf hg
  rw [compareConstant, compare_of_toRat? (toRat?_fraction f) (toRat?_fraction g), hvalue,
    compare_eq_iff_eq.2 rfl, compareSpelling, hf.1, hf.2, hg.1, hg.2, hdenominator]
  simp

theorem IsLiteral.exists_integer (ha : a.IsLiteral) (hexact : a.isExact = true) :
    ∃ v, a = integer v := by
  cases a with
  | integer v => exact ⟨v, rfl⟩
  | fraction f => exact ha.elim
  | float x => cases hexact

theorem hasOrderedDoubles_of_isLiteral (h : ∀ a ∈ S, a.IsLiteral) : HasOrderedDoubles S := by
  intro a ha b hb x _ haexact hbexact hab hbx
  obtain ⟨v, rfl⟩ := (h a ha).exists_integer haexact
  obtain ⟨w, rfl⟩ := (h b hb).exists_integer hbexact
  have hle : (integer v).compare (integer w) ≠ .gt := fun hgt ↦
    hab (Ordering.then_eq_gt.2 (.inl hgt))
  rw [compare_ne_gt_iff_of_toRat? (toRat?_integer v) (toRat?_integer w)] at hle
  exact (Binary64.rank_ofInt_mono (by exact_mod_cast hle)).trans hbx

theorem hasUniqueZeros_of_isLiteral (h : ∀ a ∈ S, a.IsLiteral) : HasUniqueZeros S :=
  fun _ _ hf ↦ absurd (h _ hf) id

end Number

end SchoolAlgebra
