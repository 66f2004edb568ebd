import Mathlib
import SchoolAlgebra.Proofs.Number.ExactValue

/-!
# Kinds of results

The kind of an exact result is decided by its value and by the kinds of the operands alone. Two
integers give an integer where a signed word holds the result. With a fraction among the operands
the result is a fraction where unsigned words hold the parts of its reduced mixed number. Elsewhere
it is a double, except that a quotient of two integers that is no integer is always a fraction. An
exact result is never another value than that of the operation.
-/

namespace SchoolAlgebra

/-- Whether a signed word holds the integer. -/
def Word.IsInt64 (z : ℤ) : Prop := Int64.minValue.toInt ≤ z ∧ z ≤ Int64.maxValue.toInt

instance (z : ℤ) : Decidable (Word.IsInt64 z) := inferInstanceAs (Decidable (_ ∧ _))

theorem Word.isInt64_toInt (v : Int64) : IsInt64 v.toInt := ⟨v.minValue_le_toInt, v.toInt_le⟩

theorem Word.int64?_eq_none_iff {z : ℤ} : int64? z = none ↔ ¬IsInt64 z := by
  unfold int64? IsInt64
  split
  · rename_i h
    exact iff_of_false (Option.some_ne_none _) (not_not_intro h)
  · rename_i h
    exact iff_of_true rfl h

theorem Word.IsInt64.exists_int64? {z : ℤ} (h : IsInt64 z) : ∃ v, int64? z = some v :=
  Option.ne_none_iff_exists'.1 fun hnone ↦ int64?_eq_none_iff.1 hnone h

namespace Number

/-- Whether the rational is whole and a signed word holds it. -/
def FitsInteger (q : ℚ) : Prop := q.den = 1 ∧ Word.IsInt64 q.num

/-- Whether unsigned words hold the whole part and the denominator of the reduced mixed number. -/
def FitsFraction (q : ℚ) : Prop := q.num.natAbs / q.den < UInt64.size ∧ q.den < UInt64.size

instance (q : ℚ) : Decidable (FitsInteger q) := inferInstanceAs (Decidable (_ ∧ _))

instance (q : ℚ) : Decidable (FitsFraction q) := inferInstanceAs (Decidable (_ ∧ _))

@[simp] theorem fitsInteger_intCast {z : ℤ} : FitsInteger z ↔ Word.IsInt64 z := by
  simp [FitsInteger]

theorem FitsInteger.fitsFraction {q : ℚ} (h : FitsInteger q) : FitsFraction q := by
  obtain ⟨hden, hmin, hmax⟩ := h
  have hlo : Int64.minValue.toInt = -9223372036854775808 := rfl
  have hhi : Int64.maxValue.toInt = 9223372036854775807 := rfl
  have hsize : UInt64.size = 18446744073709551616 := rfl
  rw [FitsFraction, hden]
  omega

theorem fitsFraction_iff {q : ℚ} :
    FitsFraction q ↔ |q| < UInt64.size ∧ q.den < UInt64.size := by
  have hden : (0 : ℚ) < q.den := by exact_mod_cast q.den_pos
  have hnum : (q.num.natAbs : ℚ) = |q| * q.den := by
    rw [Nat.cast_natAbs, Int.cast_abs, ← Rat.mul_den_eq_num, abs_mul, Nat.abs_cast]
  rw [FitsFraction, Nat.div_lt_iff_lt_mul q.den_pos, ← mul_lt_mul_iff_left₀ hden, ← hnum]
  norm_cast

theorem ofRat?_eq_none_iff {q : ℚ} : Fraction.ofRat? q = none ↔ ¬FitsFraction q := by
  unfold Fraction.ofRat? FitsFraction
  split
  · rename_i h
    exact iff_of_false (Option.some_ne_none _) (not_not_intro h)
  · rename_i h
    exact iff_of_true rfl h

theorem FitsFraction.exists_ofRat? {q : ℚ} (h : FitsFraction q) :
    ∃ f, Fraction.ofRat? q = some f :=
  Option.ne_none_iff_exists'.1 fun hnone ↦ ofRat?_eq_none_iff.1 hnone h

/-! ## Kinds of results -/

/-- The three kinds of numbers. -/
inductive Kind where
  | integer
  | fraction
  | float
deriving DecidableEq

def kind : Number → Kind
  | integer _ => .integer
  | fraction _ => .fraction
  | float _ => .float

/-- The kind of a sum, a difference or a product of value `q`. -/
def resultKind (a b : Number) (q : ℚ) : Kind :=
  match a, b with
  | integer _, integer _ => if FitsInteger q then .integer else .float
  | _, _ => if FitsFraction q then .fraction else .float

/-- The kind of a negation of value `q`. -/
def negationKind (a : Number) (q : ℚ) : Kind :=
  match a with
  | integer _ => if FitsInteger q then .integer else .float
  | _ => .fraction

/-- The kind of a quotient of value `q`. -/
def quotientKind (a b : Number) (q : ℚ) : Kind :=
  match a, b with
  | integer _, integer _ => if FitsInteger q then .integer else .fraction
  | _, _ => if FitsFraction q then .fraction else .float

/-- Whether a number is of the given kind and, where it is exact, of the given value. -/
structure IsResult (q : ℚ) (k : Kind) (c : Number) : Prop where
  kind_eq : c.kind = k
  toRat?_eq : c.isExact = true → c.toRat? = some q

/-- A result is exact exactly if it should not be a double. -/
theorem IsResult.toRat?_eq_iff {q : ℚ} {k : Kind} {c : Number} (h : IsResult q k c) :
    c.toRat? = some q ↔ k ≠ .float := by
  rw [← h.kind_eq]
  cases c with
  | integer v => exact iff_of_true (h.toRat?_eq rfl) nofun
  | fraction f => exact iff_of_true (h.toRat?_eq rfl) nofun
  | float x => exact iff_of_false nofun (not_not_intro rfl)

theorem isResult_integer (z : ℤ) (x : Float) :
    IsResult z (if FitsInteger z then .integer else .float)
      (((Word.int64? z).map integer).getD (float x)) := by
  by_cases hfits : Word.IsInt64 z
  · obtain ⟨v, hv⟩ := hfits.exists_int64?
    rw [if_pos (fitsInteger_intCast.2 hfits), hv]
    exact ⟨rfl, fun _ ↦ by rw [← Word.int64?_eq_some_iff.1 hv]; rfl⟩
  · rw [if_neg (mt fitsInteger_intCast.1 hfits), Word.int64?_eq_none_iff.2 hfits]
    exact ⟨rfl, nofun⟩

theorem isResult_fraction (q : ℚ) (x : Float) :
    IsResult q (if FitsFraction q then .fraction else .float)
      (((Fraction.ofRat? q).map fraction).getD (float x)) := by
  by_cases hfits : FitsFraction q
  · obtain ⟨f, hf⟩ := hfits.exists_ofRat?
    rw [if_pos hfits, hf]
    exact ⟨rfl, fun _ ↦ congrArg some (Fraction.toRat_of_ofRat? hf)⟩
  · rw [if_neg hfits, ofRat?_eq_none_iff.2 hfits]
    exact ⟨rfl, nofun⟩

variable {a b : Number} {x y : ℚ}

section exactResult

variable {onIntegers : ℤ → ℤ → ℤ} {onFractions : Fraction → Fraction → Option Fraction}
  {op : ℚ → ℚ → ℚ}

/--
Where an operation has its own value on integers and on fractions, its exact result, or the double
in its place, is the result of the operation.
-/
theorem isResult_exactResult? (hint : ∀ v w : ℤ, (onIntegers v w : ℚ) = op v w)
    (hfrac : ∀ f g, onFractions f g = Fraction.ofRat? (op f.toRat g.toRat))
    (ha : a.toRat? = some x) (hb : b.toRat? = some y) (z : Float) :
    IsResult (op x y) (resultKind a b (op x y))
      ((exactResult? onIntegers onFractions a b).getD (float z)) := by
  have hfractions (f g : Fraction) :=
    hfrac f g ▸ isResult_fraction (op f.toRat g.toRat) z
  cases a with
  | float u => simp at ha
  | integer v =>
    cases b with
    | float u => simp at hb
    | integer w =>
      rw [← Option.some.inj ha, ← Option.some.inj hb, ← hint]
      exact isResult_integer _ z
    | fraction g =>
      rw [← Option.some.inj ha, ← Option.some.inj hb, ← Fraction.toRat_ofInt64]
      exact hfractions (.ofInt64 v) g
  | fraction f =>
    cases b with
    | float u => simp at hb
    | integer w =>
      rw [← Option.some.inj ha, ← Option.some.inj hb, ← Fraction.toRat_ofInt64]
      exact hfractions f (.ofInt64 w)
    | fraction g =>
      rw [← Option.some.inj ha, ← Option.some.inj hb]
      exact hfractions f g

end exactResult

theorem isResult_neg (ha : a.toRat? = some x) : IsResult (-x) (negationKind a (-x)) (-a) := by
  cases a with
  | float u => simp at ha
  | integer v =>
    rw [← Option.some.inj ha, ← Int.cast_neg]
    exact isResult_integer _ _
  | fraction f =>
    rw [← Option.some.inj ha]
    exact ⟨rfl, fun _ ↦ congrArg some f.toRat_negated⟩

/-- A quotient of integers is a word exactly if the division leaves nothing and its result fits. -/
theorem fitsInteger_div_iff {v w : ℤ} (hw : w ≠ 0) :
    FitsInteger ((v : ℚ) / w) ↔ w ∣ v ∧ Word.IsInt64 (v / w) := by
  have hw' : (w : ℚ) ≠ 0 := Int.cast_ne_zero.2 hw
  constructor
  · rintro ⟨hden, hword⟩
    have hvalue := Rat.coe_int_num_of_den_eq_one hden
    rw [eq_div_iff hw'] at hvalue
    have hproduct : ((v : ℚ) / w).num * w = v := by exact_mod_cast hvalue
    refine ⟨Dvd.intro_left _ hproduct, ?_⟩
    rwa [← hproduct, Int.mul_ediv_cancel _ hw]
  · rintro ⟨hdvd, hword⟩
    rw [← Int.cast_div hdvd hw']
    exact fitsInteger_intCast.2 hword

theorem isResult_divIntegers (v w : Int64) (hw : w ≠ 0) :
    IsResult ((v.toInt : ℚ) / w.toInt)
      (if FitsInteger ((v.toInt : ℚ) / w.toInt) then .integer else .fraction)
      (divIntegers v w hw) := by
  have hw' : w.toInt ≠ 0 := fun h ↦ hw (Int64.toInt_inj.1 h)
  refine ⟨?_, fun _ ↦ toRat?_divIntegers v w hw⟩
  unfold divIntegers
  by_cases hfits : FitsInteger ((v.toInt : ℚ) / w.toInt)
  · obtain ⟨hdvd, hword⟩ := (fitsInteger_div_iff hw').1 hfits
    obtain ⟨u, hu⟩ := hword.exists_int64?
    rw [if_pos hfits, if_pos hdvd, Int.tdiv_eq_ediv_of_dvd hdvd, hu]
    rfl
  · rw [if_neg hfits]
    split
    · rename_i u hu
      obtain ⟨hdvd, hu⟩ := Option.ite_none_right_eq_some.1 hu
      rw [Int.tdiv_eq_ediv_of_dvd hdvd] at hu
      have hword := Word.int64?_eq_some_iff.1 hu ▸ Word.isInt64_toInt u
      exact absurd ((fitsInteger_div_iff hw').2 ⟨hdvd, hword⟩) hfits
    · rfl

theorem isResult_div?_fractions (f g : Fraction) (hg : g.toRat ≠ 0) (z : Float) :
    IsResult (f.toRat / g.toRat)
      (if FitsFraction (f.toRat / g.toRat) then .fraction else .float)
      (((f.div? g).map fraction).getD (float z)) := by
  rw [Fraction.div?, if_neg (mt g.isZero_iff.1 hg)]
  exact isResult_fraction _ z

theorem isResult_of_div? {c : Number} (ha : a.toRat? = some x) (hb : b.toRat? = some y)
    (h : a.div? b = some c) : IsResult (x / y) (quotientKind a b (x / y)) c := by
  have hy : y ≠ 0 := fun hzero ↦ by simp [div?_eq_none_iff.2 (hzero ▸ hb)] at h
  obtain ⟨_, hc⟩ := Option.ite_none_left_eq_some.1 h
  rw [← Option.some.inj hc]
  cases a with
  | float u => simp at ha
  | integer v =>
    rw [← Option.some.inj ha]
    cases b with
    | float u => simp at hb
    | integer w =>
      rw [← Option.some.inj hb] at hy ⊢
      have hw : w ≠ 0 := fun hzero ↦ hy (by rw [hzero]; rfl)
      rw [exactQuotient?, dif_pos hw]
      exact isResult_divIntegers v w hw
    | fraction g =>
      rw [← Option.some.inj hb] at hy ⊢
      rw [← Fraction.toRat_ofInt64]
      exact isResult_div?_fractions (.ofInt64 v) g hy _
  | fraction f =>
    rw [← Option.some.inj ha]
    cases b with
    | float u => simp at hb
    | integer w =>
      rw [← Option.some.inj hb, ← Fraction.toRat_ofInt64] at hy ⊢
      exact isResult_div?_fractions f (.ofInt64 w) hy _
    | fraction g =>
      rw [← Option.some.inj hb] at hy ⊢
      exact isResult_div?_fractions f g hy _

/--
For exact numbers, sums, differences, products, negations and quotients are results of the value
and of the kind that they should have, and only a quotient by zero is absent.
-/
theorem isResult_arithmetic (ha : a.toRat? = some x) (hb : b.toRat? = some y) :
    IsResult (x + y) (resultKind a b (x + y)) (a + b) ∧
      IsResult (x - y) (resultKind a b (x - y)) (a - b) ∧
      IsResult (x * y) (resultKind a b (x * y)) (a * b) ∧
      IsResult (-x) (negationKind a (-x)) (-a) ∧
      (a.div? b = none ↔ y = 0) ∧
      ∀ c, a.div? b = some c → IsResult (x / y) (quotientKind a b (x / y)) c := by
  refine ⟨?_, ?_, ?_, isResult_neg ha, ?_, fun c hc ↦ isResult_of_div? ha hb hc⟩
  · exact isResult_exactResult? Int.cast_add (fun _ _ ↦ rfl) ha hb _
  · exact isResult_exactResult? Int.cast_sub (fun _ _ ↦ rfl) ha hb _
  · exact isResult_exactResult? Int.cast_mul (fun _ _ ↦ rfl) ha hb _
  · rw [div?_eq_none_iff, hb, Option.some.injEq]

/--
With the least word and minus one, the difference is an integer, the sum, the product and the
negation are doubles, and the quotient is the fraction of value `2 ^ 63`.
-/
theorem isResult_arithmetic_minValue :
    (integer Int64.minValue).toRat? = some (-2 ^ 63) ∧ (integer (-1)).toRat? = some (-1) ∧
      IsResult (-2 ^ 63 + -1) .float (integer Int64.minValue + integer (-1)) ∧
      IsResult (-2 ^ 63 - -1) .integer (integer Int64.minValue - integer (-1)) ∧
      IsResult (-2 ^ 63 * -1) .float (integer Int64.minValue * integer (-1)) ∧
      IsResult (-(-2 ^ 63)) .float (-integer Int64.minValue) ∧
      (integer Int64.minValue).div? (integer (-1)) =
        some (fraction ⟨false, 2 ^ 63, 0, 1, by decide⟩) ∧
      IsResult (-2 ^ 63 / -1) .fraction (fraction ⟨false, 2 ^ 63, 0, 1, by decide⟩) := by
  have ha : (integer Int64.minValue).toRat? = some (-2 ^ 63) := by decide +kernel
  have hb : (integer (-1)).toRat? = some (-1) := by decide +kernel
  have hquotient : (integer Int64.minValue).div? (integer (-1)) =
      some (fraction ⟨false, 2 ^ 63, 0, 1, by decide⟩) := by decide +kernel
  have hkinds : resultKind (integer Int64.minValue) (integer (-1)) (-2 ^ 63 + -1) = .float ∧
      resultKind (integer Int64.minValue) (integer (-1)) (-2 ^ 63 - -1) = .integer ∧
      resultKind (integer Int64.minValue) (integer (-1)) (-2 ^ 63 * -1) = .float ∧
      negationKind (integer Int64.minValue) (-(-2 ^ 63)) = .float ∧
      quotientKind (integer Int64.minValue) (integer (-1)) (-2 ^ 63 / -1) = .fraction := by
    decide +kernel
  obtain ⟨hadd, hsub, hmul, hneg, _, hdiv⟩ := isResult_arithmetic ha hb
  obtain ⟨kadd, ksub, kmul, kneg, kdiv⟩ := hkinds
  rw [kadd] at hadd
  rw [ksub] at hsub
  rw [kmul] at hmul
  rw [kneg] at hneg
  rw [kdiv] at hdiv
  exact ⟨ha, hb, hadd, hsub, hmul, hneg, hquotient, hdiv _ hquotient⟩

end Number

end SchoolAlgebra
