import Mathlib
import SchoolAlgebra.Number.Power
import SchoolAlgebra.Proofs.Number.ExactValue

/-!
# Fractions in lowest terms

A fraction in lowest terms is the reduced mixed number of its value, so the value determines all of
its parts. Every operation on numbers answers with an integer, a double or a fraction in lowest
terms. Where a fraction of whole value is written as an integer as well, the value determines the
number.
-/

namespace SchoolAlgebra

namespace Number

/-- Whether sums, products and whole powers, where they are exact, pass a property on. -/
structure IsRingClosed (Q : Number → Prop) : Prop where
  integer (v : Int64) : Q (integer v)
  neg {a : Number} (ha : Q a) (hexact : (-a).isExact = true) : Q (-a)
  add {a b : Number} (ha : Q a) (hb : Q b) (hexact : (a + b).isExact = true) : Q (a + b)
  mul {a b : Number} (ha : Q a) (hb : Q b) (hexact : (a * b).isExact = true) : Q (a * b)
  powWhole? {a c : Number} {n : ℕ} (h : a.powWhole? n = some c) (ha : Q a)
    (hexact : c.isExact = true) : Q c
  simplified {a : Number} (ha : Q a) : Q a.simplified

/-- Whether all operations, where they are exact, pass a property on. -/
structure IsClosed (Q : Number → Prop) : Prop extends IsRingClosed Q where
  div? {a b c : Number} (h : a.div? b = some c) (ha : Q a) (hb : Q b) (hexact : c.isExact = true) :
    Q c
  pow? {a b c : Number} (h : a.pow? b = some c) (ha : Q a) (hexact : c.isExact = true) : Q c

theorem isClosed_true : IsClosed fun _ ↦ True := by
  constructor
  · constructor <;> intros <;> trivial
  · intros
    trivial
  · intros
    trivial

end Number

namespace Fraction

variable {f g : Fraction}

/--
Whether the proper part lies below one, the improper numerator and the denominator are coprime, and
zero has no sign.
-/
structure IsLowest (f : Fraction) : Prop where
  numerator_lt : f.numerator.toNat < f.denominator.toNat
  coprime : f.improperNumerator.Coprime f.denominator.toNat
  ne_zero : f.negative = true → f.improperNumerator ≠ 0

theorem IsLowest.toRat_eq (hf : f.IsLowest) :
    f.toRat.num = (if f.negative then -(f.improperNumerator : ℤ) else f.improperNumerator) ∧
      f.toRat.den = f.denominator.toNat := by
  have hpos : (0 : ℤ) < f.denominator.toNat := by
    exact_mod_cast Nat.pos_of_ne_zero f.denominator_toNat_ne_zero
  have hvalue : f.toRat =
      ((if f.negative then -(f.improperNumerator : ℤ) else f.improperNumerator : ℤ) : ℚ) /
        ((f.denominator.toNat : ℤ) : ℚ) := by
    rw [toRat_eq_signed]
    cases f.negative <;> simp [neg_div]
  have hcoprime : Nat.Coprime
      (if f.negative then -(f.improperNumerator : ℤ) else f.improperNumerator : ℤ).natAbs
      (f.denominator.toNat : ℤ).natAbs := by
    cases f.negative <;> simpa using hf.coprime
  rw [hvalue]
  refine ⟨Rat.num_div_eq_of_coprime hpos hcoprime, ?_⟩
  exact_mod_cast Rat.den_div_eq_of_coprime hpos hcoprime

theorem IsLowest.natAbs_num_toRat (hf : f.IsLowest) :
    f.toRat.num.natAbs = f.improperNumerator := by
  rw [hf.toRat_eq.1]
  cases f.negative <;> simp

/-- A fraction in lowest terms is the reduced mixed number of its value. -/
theorem IsLowest.ofRat?_toRat (hf : f.IsLowest) : ofRat? f.toRat = some f := by
  obtain ⟨hnum, hden⟩ := hf.toRat_eq
  have hnatAbs : f.toRat.num.natAbs = f.whole.toNat * f.denominator.toNat + f.numerator.toNat :=
    hf.natAbs_num_toRat
  have hwhole : f.toRat.num.natAbs / f.toRat.den = f.whole.toNat := by
    rw [hnatAbs, hden, Nat.mul_comm, Nat.mul_add_div (Nat.pos_of_ne_zero
      f.denominator_toNat_ne_zero), Nat.div_eq_of_lt hf.numerator_lt, Nat.add_zero]
  have hnumerator : f.toRat.num.natAbs % f.toRat.den = f.numerator.toNat := by
    rw [hnatAbs, hden, Nat.mul_add_mod_self_right, Nat.mod_eq_of_lt hf.numerator_lt]
  have hnegative : decide (f.toRat.num < 0) = f.negative := by
    rw [hnum]
    cases hneg : f.negative with
    | true =>
      have hpos := Nat.pos_of_ne_zero (hf.ne_zero hneg)
      simpa using hpos
    | false => simp
  unfold ofRat?
  rw [dif_pos (by rw [hwhole, hden]; exact ⟨f.whole.toNat_lt_size, f.denominator.toNat_lt_size⟩),
    Option.some.injEq]
  cases f
  simp only [mk.injEq]
  refine ⟨hnegative, ?_, ?_, ?_⟩
  · rw [hwhole, UInt64.ofNat_toNat]
  · rw [hnumerator, UInt64.ofNat_toNat]
  · rw [hden, UInt64.ofNat_toNat]

/-- Of the fractions of one value, one is in lowest terms. -/
theorem IsLowest.eq_of_toRat_eq (hf : f.IsLowest) (hg : g.IsLowest) (h : f.toRat = g.toRat) :
    f = g :=
  Option.some.inj (hf.ofRat?_toRat.symm.trans (h ▸ hg.ofRat?_toRat))

theorem isLowest_of_ofRat? {q : ℚ} (h : ofRat? q = some f) : f.IsLowest := by
  obtain ⟨hnegative, himproper, hnumerator, hdenominator⟩ := parts_of_ofRat? h
  constructor
  · rw [hnumerator, hdenominator]
    exact Nat.mod_lt _ q.den_pos
  · rw [himproper, hdenominator]
    exact q.reduced
  · intro hsign
    rw [hnegative, decide_eq_true_eq] at hsign
    rw [himproper]
    omega

theorem isLowest_ofInt64 (n : Int64) : (ofInt64 n).IsLowest := by
  refine ⟨one_pos, Nat.coprime_one_right _, fun hnegative ↦ ?_⟩
  have hlt := Int64.lt_iff_toInt_lt.1 (of_decide_eq_true hnegative)
  have hsize := natAbs_toInt_lt_size n
  rw [improperNumerator]
  simp only [ofInt64, UInt64.toNat_ofNat_of_lt' hsize]
  rw [Int64.toInt_zero] at hlt
  simp
  omega

theorem isLowest_quotient (n d : Int64) (hd : d ≠ 0) : (quotient n d hd).IsLowest := by
  obtain ⟨himproper, hdenominator, hnumerator⟩ := parts_quotient n d hd
  constructor
  · rw [hnumerator]
    exact Nat.mod_lt _ (Nat.pos_of_ne_zero (denominator_toNat_ne_zero _))
  · rw [himproper, hdenominator]
    exact Nat.coprime_div_gcd_div_gcd (Nat.gcd_pos_of_pos_right _ (natAbs_toInt_pos hd))
  · intro hnegative
    rw [himproper]
    exact bne_iff_ne.1 (Bool.and_eq_true_iff.1 hnegative).2

theorem IsLowest.negated (hf : f.IsLowest) : f.negated.IsLowest := by
  refine ⟨hf.numerator_lt, hf.coprime, fun hnegative hzero ↦ ?_⟩
  have hisZero : f.isZero = true := by
    rw [isZero_iff, toRat_eq_signed]
    change f.improperNumerator = 0 at hzero
    simp [hzero]
  have hnonzero := (Bool.and_eq_true_iff.1 hnegative).2
  rw [hisZero] at hnonzero
  exact absurd hnonzero Bool.false_ne_true

theorem isLowest_of_div? {h : Fraction} (hquotient : f.div? g = some h) : h.IsLowest :=
  isLowest_of_ofRat? (Option.ite_none_left_eq_some.1 hquotient).2

theorem isLowest_of_pow? {n : ℤ} (h : f.pow? n = some g) : g.IsLowest := by
  unfold pow? at h
  dsimp only at h
  split at h
  · obtain ⟨_, hg⟩ := Option.ite_none_left_eq_some.1 h
    rw [← Option.some.inj hg]
    exact isLowest_ofInt64 _
  · split at h
    · rw [← Option.some.inj h]
      exact isLowest_ofInt64 _
    · exact isLowest_of_ofRat? (Option.ite_none_right_eq_some.1 h).2

end Fraction

namespace Number

/-! ## Numbers in lowest terms -/

/-- Whether the number, if it is a fraction, is one in lowest terms. -/
def IsLowest : Number → Prop
  | fraction f => f.IsLowest
  | _ => True

theorem isLowest_getD_float {result : Option Number} {x : Float}
    (h : ∀ c, result = some c → c.IsLowest) : (result.getD (float x)).IsLowest := by
  cases result with
  | none => trivial
  | some c => exact h c rfl

theorem isLowest_map_fraction {result : Option Fraction} {c : Number}
    (hresult : ∀ f, result = some f → f.IsLowest) (h : result.map fraction = some c) :
    c.IsLowest := by
  obtain ⟨f, hf, hc⟩ := Option.map_eq_some_iff.1 h
  rw [← hc]
  exact hresult f hf

theorem isLowest_map_integer {result : Option Int64} {c : Number}
    (h : result.map integer = some c) : c.IsLowest := by
  obtain ⟨v, _, hc⟩ := Option.map_eq_some_iff.1 h
  rw [← hc]
  trivial

theorem isLowest_exactResult? {onIntegers : ℤ → ℤ → ℤ}
    {onFractions : Fraction → Fraction → Option Fraction}
    (hfractions : ∀ f g h, onFractions f g = some h → h.IsLowest) {a b c : Number}
    (h : exactResult? onIntegers onFractions a b = some c) : c.IsLowest := by
  unfold exactResult? at h
  split at h
  · exact isLowest_map_integer h
  · simp only [Option.bind_eq_bind, Option.bind_eq_some_iff] at h
    obtain ⟨f, _, g, _, hc⟩ := h
    exact isLowest_map_fraction (fun r ↦ hfractions f g r) hc

theorem isLowest_add (a b : Number) : (a + b).IsLowest :=
  isLowest_getD_float fun _ ↦ isLowest_exactResult? fun _ _ _ ↦ Fraction.isLowest_of_ofRat?

theorem isLowest_mul (a b : Number) : (a * b).IsLowest :=
  isLowest_getD_float fun _ ↦ isLowest_exactResult? fun _ _ _ ↦ Fraction.isLowest_of_ofRat?

theorem isLowest_divIntegers (a b : Int64) (hb : b ≠ 0) : (divIntegers a b hb).IsLowest := by
  unfold divIntegers
  split
  · trivial
  · exact Fraction.isLowest_quotient a b hb

theorem isLowest_exactQuotient? {a b c : Number} (h : exactQuotient? a b = some c) :
    c.IsLowest := by
  unfold exactQuotient? at h
  split at h
  · split at h
    · rw [← Option.some.inj h]
      exact isLowest_divIntegers _ _ _
    · simp at h
  · simp only [Option.bind_eq_bind, Option.bind_eq_some_iff] at h
    obtain ⟨f, _, g, _, hc⟩ := h
    exact isLowest_map_fraction (fun r ↦ Fraction.isLowest_of_div?) hc

theorem isLowest_ofRat (preferInteger : Bool) (q : ℚ) : (ofRat preferInteger q).IsLowest := by
  apply isLowest_getD_float
  intro c hc
  unfold ofRat? at hc
  split at hc
  · rw [← Option.some.inj hc]
    trivial
  · exact isLowest_map_fraction (fun f ↦ Fraction.isLowest_of_ofRat?) hc

theorem isLowest_powFraction (f : Fraction) (n : ℤ) : (powFraction f n).IsLowest :=
  isLowest_getD_float fun _ ↦ isLowest_map_fraction fun _ ↦ Fraction.isLowest_of_pow?

theorem isLowest_of_powWhole? {a c : Number} {n : ℤ} (h : a.powWhole? n = some c) :
    c.IsLowest := by
  unfold powWhole? at h
  split at h
  · split at h
    · rw [← Option.some.inj h]
      exact isLowest_getD_float fun _ ↦ isLowest_map_integer
    · obtain ⟨_, hc⟩ := Option.ite_none_left_eq_some.1 h
      rw [← Option.some.inj hc]
      exact isLowest_powFraction _ _
  · obtain ⟨_, hc⟩ := Option.ite_none_left_eq_some.1 h
    rw [← Option.some.inj hc]
    exact isLowest_powFraction _ _
  · rw [← Option.some.inj h]
    trivial

theorem isLowest_of_powRational? {preferInteger : Bool} {base : ℚ} {p : ℤ} {q : ℕ} {c : Number}
    (h : powRational? preferInteger base p q = some c) : c.IsLowest := by
  unfold powRational? at h
  obtain ⟨_, h⟩ := Option.ite_none_left_eq_some.1 h
  obtain ⟨_, h⟩ := Option.ite_none_left_eq_some.1 h
  split at h
  · rw [← Option.some.inj h]
    exact isLowest_ofRat _ _
  · rw [← Option.some.inj h]
    trivial

theorem isLowest_of_powFraction? {a c : Number} {f : Fraction}
    (h : a.powFraction? f = some c) : c.IsLowest := by
  unfold powFraction? at h
  split at h
  · split at h
    · exact isLowest_of_powWhole? h
    · split at h
      · exact isLowest_of_powRational? h
      · exact isLowest_of_powRational? h
      · rw [← Option.some.inj h]
        trivial
  · rw [← Option.some.inj h]
    trivial

theorem isLowest_simplified {a : Number} (ha : a.IsLowest) : a.simplified.IsLowest := by
  unfold simplified
  split
  · cases h : (fraction _).toInt64? with
    | none => exact ha
    | some v => trivial
  · exact ha

theorem isLowest_of_pow? {a b c : Number} (h : a.pow? b = some c) : c.IsLowest := by
  cases b with
  | integer n => exact isLowest_of_powWhole? h
  | fraction f => exact isLowest_of_powFraction? h
  | float x =>
    rw [← Option.some.inj h]
    trivial

theorem isLowest_of_div? {a b c : Number} (h : a.div? b = some c) : c.IsLowest := by
  obtain ⟨_, hc⟩ := Option.ite_none_left_eq_some.1 h
  rw [← Option.some.inj hc]
  exact isLowest_getD_float fun _ ↦ isLowest_exactQuotient?

theorem isClosed_isLowest : IsClosed IsLowest where
  integer _ := trivial
  neg {a} ha _ := by
    cases a with
    | integer v => exact isLowest_getD_float fun _ ↦ isLowest_map_integer
    | fraction f => exact Fraction.IsLowest.negated ha
    | float x => trivial
  add _ _ _ := isLowest_add _ _
  mul _ _ _ := isLowest_mul _ _
  powWhole? h _ _ := isLowest_of_powWhole? h
  simplified ha := isLowest_simplified ha
  div? h _ _ _ := isLowest_of_div? h
  pow? h _ _ := isLowest_of_pow? h

/-- Whether the number is in lowest terms and simplified. -/
structure IsReduced (a : Number) : Prop where
  isLowest : a.IsLowest
  simplified_eq : a.simplified = a

@[simp] theorem simplified_simplified (a : Number) : a.simplified.simplified = a.simplified := by
  cases a with
  | integer v => rfl
  | float x => rfl
  | fraction f =>
    cases h : (fraction f).toInt64? with
    | none => simp [simplified, h]
    | some v => simp [simplified, h]

theorem isReduced_simplified {a : Number} (ha : a.IsLowest) : a.simplified.IsReduced :=
  ⟨isLowest_simplified ha, a.simplified_simplified⟩

/-- A reduced fraction has no value that an integer has. -/
theorem IsReduced.toRat_ne {f : Fraction} (h : (fraction f).IsReduced) (v : Int64) :
    f.toRat ≠ v.toInt := by
  intro hvalue
  have hinteger : (fraction f).toInt64? = some v := by
    rw [toInt64?, if_pos (by rw [hvalue, Rat.den_intCast]), hvalue, Rat.num_intCast,
      Word.int64?_eq_some_iff]
  have hsimplified := h.simplified_eq
  simp [simplified, hinteger] at hsimplified

/-- Of the exact numbers of one value, one is reduced. -/
theorem IsReduced.eq_of_toRat?_eq {a b : Number} {x : ℚ} (ha : a.IsReduced) (hb : b.IsReduced)
    (hax : a.toRat? = some x) (hbx : b.toRat? = some x) : a = b := by
  cases a with
  | float y => simp at hax
  | integer v =>
    rw [toRat?_integer, Option.some.injEq] at hax
    cases b with
    | float y => simp at hbx
    | integer w =>
      rw [toRat?_integer, Option.some.injEq, ← hax, Int.cast_inj] at hbx
      rw [Int64.toInt_inj.1 hbx]
    | fraction g =>
      rw [toRat?_fraction, Option.some.injEq, ← hax] at hbx
      exact absurd hbx (hb.toRat_ne v)
  | fraction f =>
    rw [toRat?_fraction, Option.some.injEq] at hax
    cases b with
    | float y => simp at hbx
    | integer w =>
      rw [toRat?_integer, Option.some.injEq, ← hax] at hbx
      exact absurd hbx.symm (ha.toRat_ne w)
    | fraction g =>
      rw [toRat?_fraction, Option.some.injEq, ← hax] at hbx
      rw [Fraction.IsLowest.eq_of_toRat_eq ha.isLowest hb.isLowest hbx.symm]

end Number

end SchoolAlgebra
