import Mathlib
import SchoolAlgebra.Proofs.Polynomial.MonomialOrder

/-!
# The order of terms

Terms with different canonical monomials are ordered by the exponents of these monomials, whatever
the coefficients are: the first name at which the exponents differ decides, and the greater exponent
comes first. This order is strict and total, the monomial without variables is the last, and terms
keep their order when they are multiplied by a common term.
-/

namespace SchoolAlgebra

namespace Monomial

variable {a b : Monomial}

/--
Whether, at the first name at which two monomials have different exponents, the first of them has
the greater one.
-/
def Precedes (a b : Monomial) : Prop :=
  ∃ name, (∀ other < name, a.exponent other = b.exponent other) ∧
    b.exponent name < a.exponent name

theorem precedes_iff : a.Precedes b ↔ toLex b.exponents < toLex a.exponents := by
  rw [Finsupp.Lex.lt_iff]
  exact exists_congr fun name ↦ and_congr_left' <|
    forall₂_congr fun other _ ↦ eq_comm (a := a.exponent other)

theorem IsCanonical.compare_eq_lt_iff_precedes (ha : a.IsCanonical) (hb : b.IsCanonical) :
    a.compare b = .lt ↔ a.Precedes b := by
  rw [ha.compare_eq_lt_iff hb, precedes_iff]

end Monomial

namespace Term

variable {a b c x y : Term}

/-- The coefficients of terms with different monomials are not compared. -/
theorem compare_of_ne (h : a.monomial ≠ b.monomial) :
    a.compare b = a.monomial.compare b.monomial := by
  rw [Term.compare]
  cases hcompare : a.monomial.compare b.monomial with
  | eq => exact absurd (Monomial.compare_eq_iff.1 hcompare) h
  | lt | gt => rfl

theorem compare_eq_lt_iff_of_ne (ha : a.monomial.IsCanonical) (hb : b.monomial.IsCanonical)
    (h : a.monomial ≠ b.monomial) : a.compare b = .lt ↔ a.monomial.Precedes b.monomial := by
  rw [compare_of_ne h, ha.compare_eq_lt_iff_precedes hb]

theorem compare_eq_gt_iff_of_ne (ha : a.monomial.IsCanonical) (hb : b.monomial.IsCanonical)
    (h : a.monomial ≠ b.monomial) : a.compare b = .gt ↔ b.monomial.Precedes a.monomial := by
  rw [compare_of_ne h, ← Monomial.compare_swap, Ordering.swap_eq_gt,
    hb.compare_eq_lt_iff_precedes ha]

/-- The term without variables is the last one. -/
theorem compare_one (ha : a.monomial ≠ .one) (hb : b.monomial = .one) : a.compare b = .lt := by
  rw [compare_of_ne (hb ▸ ha), hb]
  unfold Monomial.compare Monomial.one
  cases hfactors : a.monomial.factors with
  | nil => exact absurd (congrArg Monomial.mk hfactors) ha
  | cons f factors => rfl

/-- Whether every term with the first monomial comes before every term with the second one. -/
def OrdersMonomials (m n : Monomial) : Prop :=
  ∀ p q : Number, (Term.mk p m).compare (Term.mk q n) = .lt

theorem ordersMonomials_iff {m n : Monomial} : OrdersMonomials m n ↔ m.compare n = .lt := by
  constructor
  · intro h
    have hne : m ≠ n := by
      rintro rfl
      have hself : (Term.mk (.integer 0) m).compare (Term.mk (.integer 0) m) = .eq := by
        rw [Term.compare, Monomial.compare_eq_iff.2 rfl]
        rfl
      exact absurd ((h _ _).symm.trans hself) (by decide)
    have hlt := h (.integer 0) (.integer 0)
    rwa [compare_of_ne hne] at hlt
  · intro h p q
    rw [Term.compare, h]
    rfl

/-- Of two different monomials, one comes before the other with whatever coefficients. -/
theorem isStrictTotalOrder_ordersMonomials : IsStrictTotalOrder Monomial OrdersMonomials where
  trichotomous m n hmn hnm := by
    rw [ordersMonomials_iff] at hmn hnm
    rw [← Monomial.compare_swap, Ordering.swap_eq_lt] at hnm
    cases hcompare : m.compare n with
    | lt => exact absurd hcompare hmn
    | eq => exact Monomial.compare_eq_iff.1 hcompare
    | gt => exact absurd hcompare hnm
  irrefl m h := by
    rw [ordersMonomials_iff, Monomial.compare_eq_iff.2 rfl] at h
    cases h
  trans m n k hmn hnk := by
    rw [ordersMonomials_iff] at hmn hnk ⊢
    exact Monomial.compare_lt_trans hmn hnk

theorem exponents_of_mul? (h : a.mul? c = some x) :
    x.monomial.IsCanonical ∧
      x.monomial.exponents = c.monomial.exponents + a.monomial.exponents := by
  obtain ⟨m, hm, rfl⟩ := Option.map_eq_some_iff.1 h
  refine ⟨Monomial.isCanonical_of_ofExponents? hm, ?_⟩
  rw [Monomial.exponents_of_mul? hm, add_comm]

/-- A common factor changes neither that monomials differ nor their order. -/
theorem compare_mul (ha : a.monomial.IsCanonical) (hb : b.monomial.IsCanonical)
    (h : a.monomial ≠ b.monomial) (hx : a.mul? c = some x) (hy : b.mul? c = some y) :
    x.monomial ≠ y.monomial ∧ x.compare y = a.compare b := by
  obtain ⟨hxcanonical, hxa⟩ := exponents_of_mul? hx
  obtain ⟨hycanonical, hyb⟩ := exponents_of_mul? hy
  have hne : x.monomial ≠ y.monomial := by
    intro heq
    rw [heq, hyb] at hxa
    exact h (ha.eq_of_exponents_eq hb (add_left_cancel hxa).symm)
  refine ⟨hne, ?_⟩
  rw [compare_of_ne hne, compare_of_ne h]
  have hlt := Monomial.compare_eq_lt_iff_of_add ha hb hxcanonical hycanonical hxa hyb
  have hgt := Monomial.compare_eq_lt_iff_of_add hb ha hycanonical hxcanonical hyb hxa
  rw [← Monomial.compare_swap, ← Monomial.compare_swap a.monomial, Ordering.swap_eq_lt,
    Ordering.swap_eq_lt] at hgt
  cases hcompare : a.monomial.compare b.monomial with
  | lt => exact hlt.2 hcompare
  | eq => exact absurd (Monomial.compare_eq_iff.1 hcompare) h
  | gt => exact hgt.2 hcompare

/--
The order of terms is a monomial order. Terms with different canonical monomials are ordered as the
exponents are lexicographically, the greater exponent first. Their coefficients make no difference,
and on monomials the order is strict and total. A term without variables comes last, and terms
multiplied by a common one are ordered as they are without it.
-/
theorem compare_isMonomialOrder {a b : Term} (ha : a.monomial.IsCanonical)
    (hb : b.monomial.IsCanonical) (h : a.monomial ≠ b.monomial) :
    (a.compare b = .lt ↔ a.monomial.Precedes b.monomial) ∧
    (a.compare b = .gt ↔ b.monomial.Precedes a.monomial) ∧
    (∀ p q, (Term.mk p a.monomial).compare (Term.mk q b.monomial) = a.compare b) ∧
    IsStrictTotalOrder Monomial OrdersMonomials ∧
    (b.monomial = .one → a.compare b = .lt) ∧
    ∀ c x y, a.mul? c = some x → b.mul? c = some y →
      x.monomial ≠ y.monomial ∧ x.compare y = a.compare b := by
  refine ⟨compare_eq_lt_iff_of_ne ha hb h, compare_eq_gt_iff_of_ne ha hb h, fun p q ↦ ?_,
    isStrictTotalOrder_ordersMonomials, fun hone ↦ ?_, fun c x y ↦ compare_mul ha hb h⟩
  · rw [compare_of_ne h]
    exact compare_of_ne h
  · exact compare_one (hone ▸ h) hone

/-- `-x²y` comes before `5x²z³`, and their products by `y⁴` are in the same order. -/
theorem compare_isMonomialOrder_square : ∃ a b c x y : Term,
    (a.monomial.IsCanonical ∧ b.monomial.IsCanonical ∧ a.monomial ≠ b.monomial ∧
      a.mul? c = some x ∧ b.mul? c = some y) ∧
    a.compare b = .lt ∧ x.compare y = .lt := by
  let a : Term := ⟨.integer (-1), ⟨[⟨"x", 2⟩, ⟨"y", 1⟩]⟩⟩
  let b : Term := ⟨.integer 5, ⟨[⟨"x", 2⟩, ⟨"z", 3⟩]⟩⟩
  let c : Term := ⟨.integer 1, ⟨[⟨"y", 4⟩]⟩⟩
  have ha : a.monomial.IsCanonical := ⟨by decide, by decide⟩
  have hb : b.monomial.IsCanonical := ⟨by decide, by decide⟩
  have hne : a.monomial ≠ b.monomial := by decide
  have hx : a.mul? c = some ⟨.integer (-1), ⟨[⟨"x", 2⟩, ⟨"y", 5⟩]⟩⟩ := by decide
  have hy : b.mul? c = some ⟨.integer 5, ⟨[⟨"x", 2⟩, ⟨"y", 4⟩, ⟨"z", 3⟩]⟩⟩ := by decide
  have hbelow : ∀ other < "y", a.monomial.exponent other = b.monomial.exponent other := by
    intro other hother
    have hy : "y" ≠ other := hother.ne'
    have hz : "z" ≠ other := (hother.trans (by decide)).ne'
    simp [a, b, Monomial.exponent, hy, hz]
  obtain ⟨hlt, -, -, -, -, hmul⟩ := compare_isMonomialOrder ha hb hne
  have hab : a.compare b = .lt := hlt.2 ⟨"y", hbelow, by decide⟩
  exact ⟨a, b, c, _, _, ⟨ha, hb, hne, hx, hy⟩, hab, (hmul c _ _ hx hy).2.trans hab⟩

end Term

end SchoolAlgebra
