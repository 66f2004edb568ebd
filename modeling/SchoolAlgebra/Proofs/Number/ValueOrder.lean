import Mathlib
import SchoolAlgebra.Proofs.Number.ExactValue
import SchoolAlgebra.Proofs.Number.Rounding

/-!
# The order of numbers by value

Two exact numbers are compared by their values, and any other two by their doubles. Each of
the two orders is total, but together they are transitive on a set of numbers only if no double of
the set disturbs the order of its exact numbers. The first integer without a double of its own is
such a case; below it integers and doubles fit together.
-/

namespace SchoolAlgebra

namespace Binary64

/-- A natural number that fits the mantissa is aligned to it. -/
theorem aligned_lt {n : ℕ} (hpos : 0 < n) (hn : n < 2 ^ 53) :
    2 ^ 52 ≤ n * 2 ^ (52 - n.log2) ∧ n * 2 ^ (52 - n.log2) < 2 ^ 53 := by
  have hlog : n.log2 < 53 := (Nat.log2_lt hpos.ne').2 hn
  constructor
  · calc 2 ^ 52 = 2 ^ n.log2 * 2 ^ (52 - n.log2) := by
          rw [← pow_add]
          congr 1
          omega
      _ ≤ n * 2 ^ (52 - n.log2) := Nat.mul_le_mul_right _ (Nat.log2_self_le hpos.ne')
  · calc n * 2 ^ (52 - n.log2) < 2 ^ (n.log2 + 1) * 2 ^ (52 - n.log2) :=
          Nat.mul_lt_mul_of_pos_right Nat.lt_log2_self (Nat.two_pow_pos _)
      _ = 2 ^ 53 := by
          rw [← pow_add]
          congr 1
          omega

/-- The pattern of a natural number that fits the mantissa is exact. -/
theorem magnitudePattern_shiftLeft {n k : ℕ} (hpos : 0 < n) (hn : n < 2 ^ 53) (hk : 52 ≤ k)
    (hfinite : k < 1900) :
    magnitudePattern (n <<< k) 1 =
      (n.log2 + (k - 52)) * binade + n * 2 ^ (52 - n.log2) := by
  have hlog : n.log2 < 53 := (Nat.log2_lt hpos.ne').2 hn
  have hexact : n <<< k = (n * 2 ^ (52 - n.log2)) <<< (n.log2 + (k - 52)) := by
    have hexponent : k = 52 - n.log2 + (n.log2 + (k - 52)) := by omega
    rw [Nat.shiftLeft_eq, Nat.shiftLeft_eq, mul_assoc, ← pow_add, ← hexponent]
  obtain ⟨hlow, hhigh⟩ := aligned_lt hpos hn
  rw [hexact, magnitudePattern_mantissa hlow hhigh]
  apply min_eq_right
  unfold infinityPattern
  have hbinade : 2 ^ 53 = 2 * binade := rfl
  rw [hbinade] at hhigh
  have hexponent : (n.log2 + (k - 52)) * binade ≤ 1900 * binade :=
    Nat.mul_le_mul_right _ (by omega)
  omega

/-- Natural numbers up to the first one that is rounded have patterns of their own. -/
theorem magnitudePattern_shiftLeft_lt {a b k : ℕ} (h : a < b) (hb : b < 2 ^ 53) (hk : 52 ≤ k)
    (hfinite : k < 1900) :
    magnitudePattern (a <<< k) 1 < magnitudePattern (b <<< k) 1 := by
  have hbaligned := aligned_lt (by omega) hb
  rw [magnitudePattern_shiftLeft (by omega) hb hk hfinite]
  rcases Nat.eq_zero_or_pos a with rfl | hpos
  · rw [Nat.zero_shiftLeft]
    have hzero : magnitudePattern 0 1 = 0 := rfl
    omega
  · have haligned := aligned_lt hpos (h.trans hb)
    rw [magnitudePattern_shiftLeft hpos (h.trans hb) hk hfinite]
    have hle : a.log2 ≤ b.log2 := by
      rw [Nat.log2_eq_log_two, Nat.log2_eq_log_two]
      exact Nat.log_mono_right h.le
    rcases hle.eq_or_lt with hlog | hlog
    · rw [hlog]
      have hlt := Nat.mul_lt_mul_of_pos_right h (Nat.two_pow_pos (52 - b.log2))
      omega
    · have hbinade : 2 ^ 52 = binade := rfl
      have hnext : (a.log2 + (k - 52) + 1) * binade ≤ (b.log2 + (k - 52)) * binade :=
        Nat.mul_le_mul_right _ (by omega)
      rw [Nat.succ_mul] at hnext
      omega

theorem magnitudePattern_natCast_lt {a b : ℕ} (h : a < b) (hb : b ≤ 2 ^ 53) :
    magnitudePattern (a <<< 1074) 1 < magnitudePattern (b <<< 1074) 1 := by
  rcases hb.eq_or_lt with hlast | hlt
  · have hstep : magnitudePattern ((2 ^ 53 - 1) <<< 1074) 1 <
        magnitudePattern ((2 ^ 53) <<< 1074) 1 := by decide +kernel
    rw [hlast] at h ⊢
    exact (magnitudePattern_natCast_mono (Nat.le_sub_one_of_lt h)).trans_lt hstep
  · exact magnitudePattern_shiftLeft_lt h hlt (by decide) (by decide)

/-- Up to the first one that is rounded, integers have doubles in their own order. -/
theorem rank_ofInt_lt {i j : ℤ} (h : i < j) (hi : i.natAbs ≤ 2 ^ 53) (hj : j.natAbs ≤ 2 ^ 53) :
    rank (ofInt i) < rank (ofInt j) := by
  unfold ofInt
  rw [rank_ofQuotient, rank_ofQuotient]
  by_cases hineg : i < 0
  · by_cases hjneg : j < 0
    · have hlt := magnitudePattern_natCast_lt (show j.natAbs < i.natAbs by omega) hi
      simp only [hineg, hjneg, decide_true, if_true]
      omega
    · simp only [hineg, hjneg, decide_true, decide_false, if_true, Bool.false_eq_true, if_false]
      omega
  · have hjneg : ¬j < 0 := by omega
    have hlt := magnitudePattern_natCast_lt (show i.natAbs < j.natAbs by omega) hj
    simp only [hineg, hjneg, decide_false, Bool.false_eq_true, if_false]
    omega

end Binary64

namespace Number

/-- The place of the double of the number in the total order. -/
def rank (a : Number) : ℤ := Binary64.rank a.toFloat

variable {a b c : Number} {p q r : ℚ}

theorem compareRat_eq (p q : ℚ) : compareRat p q = Ord.compare p q := by
  rw [compareRat]
  rcases lt_trichotomy p q with hlt | heq | hgt
  · rw [compare_lt_iff_lt.2 hlt, compare_lt_iff_lt.2 ((Rat.lt_iff p q).1 hlt)]
  · rw [heq, compare_eq_iff_eq.2 rfl, compare_eq_iff_eq.2 rfl]
  · rw [compare_gt_iff_gt.2 hgt, compare_gt_iff_gt.2 ((Rat.lt_iff q p).1 hgt)]

/-- Exact numbers stand in the order of their values. -/
theorem compare_of_toRat? (ha : a.toRat? = some p) (hb : b.toRat? = some q) :
    a.compare b = Ord.compare p q := by
  rw [Number.compare, ha, hb]
  exact compareRat_eq p q

/-- A double and any number stand in the order of their doubles. -/
theorem compare_of_toRat?_eq_none (h : a.toRat? = none ∨ b.toRat? = none) :
    a.compare b = Ord.compare a.rank b.rank := by
  rcases h with ha | hb
  · rw [Number.compare, ha]
    rfl
  · rw [Number.compare, hb]
    cases a.toRat? <;> rfl

/-- Numbers that change places are compared the other way around. -/
theorem compare_swap (a b : Number) : (a.compare b).swap = b.compare a := by
  cases ha : a.toRat? with
  | none =>
    rw [compare_of_toRat?_eq_none (.inl ha), compare_of_toRat?_eq_none (.inr ha),
      ← Std.OrientedOrd.eq_swap]
  | some p =>
    cases hb : b.toRat? with
    | none =>
      rw [compare_of_toRat?_eq_none (.inr hb), compare_of_toRat?_eq_none (.inl hb),
        ← Std.OrientedOrd.eq_swap]
    | some q => rw [compare_of_toRat? ha hb, compare_of_toRat? hb ha, ← Std.OrientedOrd.eq_swap]

theorem compare_ne_gt_iff_of_toRat? (ha : a.toRat? = some p) (hb : b.toRat? = some q) :
    a.compare b ≠ .gt ↔ p ≤ q := by
  rw [compare_of_toRat? ha hb, compare_le_iff_le]

theorem compare_ne_gt_iff_of_none (h : a.toRat? = none ∨ b.toRat? = none) :
    a.compare b ≠ .gt ↔ a.rank ≤ b.rank := by
  rw [compare_of_toRat?_eq_none h, compare_le_iff_le]

/--
Whether no double of the set disturbs the order of its exact numbers: where one stands between the
double of a number and the double of a number that is not greater, these two have the same value and
the same double.
-/
def HasFaithfulDoubles (S : Set Number) : Prop :=
  ∀ a ∈ S, ∀ b ∈ S, ∀ c ∈ S, ∀ p q : ℚ, a.toRat? = some p → b.toRat? = some q →
    c.toRat? = none → p ≤ q → b.rank ≤ c.rank → c.rank ≤ a.rank → p = q ∧ a.rank = b.rank

/-- Whether the order of the numbers of the set is transitive. -/
def IsTransitivelyOrdered (S : Set Number) : Prop :=
  ∀ a ∈ S, ∀ b ∈ S, ∀ c ∈ S, a.compare b ≠ .gt → b.compare c ≠ .gt → a.compare c ≠ .gt

variable {S : Set Number}

/-- Only triples of two exact numbers and one double mix the two orders. -/
theorem HasFaithfulDoubles.isTransitivelyOrdered (h : HasFaithfulDoubles S) :
    IsTransitivelyOrdered S := by
  intro a ha b hb c hc hab hbc
  cases hap : a.toRat? with
  | none =>
    rw [compare_ne_gt_iff_of_none (.inl hap)] at hab ⊢
    cases hbq : b.toRat? with
    | none =>
      rw [compare_ne_gt_iff_of_none (.inl hbq)] at hbc
      exact hab.trans hbc
    | some q =>
      cases hcr : c.toRat? with
      | none =>
        rw [compare_ne_gt_iff_of_none (.inr hcr)] at hbc
        exact hab.trans hbc
      | some r =>
        rw [compare_ne_gt_iff_of_toRat? hbq hcr] at hbc
        by_contra hlt
        obtain ⟨_, hrank⟩ := h b hb c hc a ha q r hbq hcr hap hbc (le_of_not_ge hlt) hab
        exact hlt (hrank ▸ hab)
  | some p =>
    cases hcr : c.toRat? with
    | none =>
      rw [compare_ne_gt_iff_of_none (.inr hcr)] at hbc ⊢
      cases hbq : b.toRat? with
      | none =>
        rw [compare_ne_gt_iff_of_none (.inr hbq)] at hab
        exact hab.trans hbc
      | some q =>
        rw [compare_ne_gt_iff_of_toRat? hap hbq] at hab
        by_contra hlt
        obtain ⟨_, hrank⟩ := h a ha b hb c hc p q hap hbq hcr hab hbc (le_of_not_ge hlt)
        exact hlt (hrank ▸ hbc)
    | some r =>
      rw [compare_ne_gt_iff_of_toRat? hap hcr]
      cases hbq : b.toRat? with
      | none =>
        rw [compare_ne_gt_iff_of_none (.inr hbq)] at hab
        rw [compare_ne_gt_iff_of_none (.inl hbq)] at hbc
        by_contra hlt
        obtain ⟨hvalue, _⟩ := h c hc a ha b hb r p hcr hap hbq (le_of_not_ge hlt) hab hbc
        exact hlt hvalue.ge
      | some q =>
        rw [compare_ne_gt_iff_of_toRat? hap hbq] at hab
        rw [compare_ne_gt_iff_of_toRat? hbq hcr] at hbc
        exact hab.trans hbc

theorem IsTransitivelyOrdered.hasFaithfulDoubles (h : IsTransitivelyOrdered S) :
    HasFaithfulDoubles S := by
  intro a ha b hb c hc p q hap hbq hcnone hle hbc hca
  have hab := (compare_ne_gt_iff_of_toRat? hap hbq).2 hle
  have hbc' := (compare_ne_gt_iff_of_none (.inr hcnone)).2 hbc
  have hca' := (compare_ne_gt_iff_of_none (.inl hcnone)).2 hca
  have hba := h b hb c hc a ha hbc' hca'
  have hac := h a ha b hb c hc hab hbc'
  have hcb := h c hc a ha b hb hca' hab
  rw [compare_ne_gt_iff_of_toRat? hbq hap] at hba
  rw [compare_ne_gt_iff_of_none (.inr hcnone)] at hac
  rw [compare_ne_gt_iff_of_none (.inl hcnone)] at hcb
  exact ⟨hle.antisymm hba, (hac.trans hcb).antisymm (hbc.trans hca)⟩

/-- Exact numbers alone have no doubles among them. -/
theorem hasFaithfulDoubles_of_isExact (h : ∀ a ∈ S, a.isExact = true) : HasFaithfulDoubles S := by
  intro a _ b _ c hc p q _ _ hcnone
  obtain ⟨r, hr⟩ := isExact_iff.1 (h c hc)
  rw [hr] at hcnone
  cases hcnone

/-- Whether the number is a double or an integer up to the first one that is rounded. -/
def IsUnrounded (a : Number) : Prop :=
  ∀ p, a.toRat? = some p → ∃ v, a = integer v ∧ v.toInt.natAbs ≤ 2 ^ 53

theorem hasFaithfulDoubles_of_isUnrounded (h : ∀ a ∈ S, a.IsUnrounded) : HasFaithfulDoubles S := by
  intro a ha b hb c hc p q hap hbq hcnone hle hbc hca
  obtain ⟨v, rfl, hv⟩ := h a ha p hap
  obtain ⟨w, rfl, hw⟩ := h b hb q hbq
  rw [toRat?_integer, Option.some.injEq] at hap hbq
  have hvw : v.toInt ≤ w.toInt := by
    rw [← hap, ← hbq] at hle
    exact_mod_cast hle
  rcases hvw.eq_or_lt with heq | hlt
  · rw [Int64.toInt_inj.1 heq] at hap ⊢
    exact ⟨hap.symm.trans hbq, rfl⟩
  · exact absurd (hbc.trans hca) (not_le.2 (Binary64.rank_ofInt_lt hlt hv hw))

/--
Numbers that change places are compared the other way around, and exact numbers stand in the order
of their values. The order is transitive on a set of numbers exactly if no double of the set
disturbs the order of its exact numbers; so it is on exact numbers, and on doubles together with
integers up to the first one that is rounded.
-/
theorem compare_isPreorder_iff (S : Set Number) :
    (∀ a b : Number, b.compare a = (a.compare b).swap) ∧
      (∀ (a b : Number) (p q : ℚ), a.toRat? = some p → b.toRat? = some q →
        a.compare b = Ord.compare p q) ∧
      (IsTransitivelyOrdered S ↔ HasFaithfulDoubles S) ∧
      ((∀ a ∈ S, a.isExact = true) → IsTransitivelyOrdered S) ∧
      ((∀ a ∈ S, a.IsUnrounded) → IsTransitivelyOrdered S) := by
  refine ⟨fun a b ↦ (compare_swap a b).symm, fun _ _ _ _ ↦ compare_of_toRat?, ?_, ?_, ?_⟩
  · exact ⟨IsTransitivelyOrdered.hasFaithfulDoubles, HasFaithfulDoubles.isTransitivelyOrdered⟩
  · exact fun hexact ↦ (hasFaithfulDoubles_of_isExact hexact).isTransitivelyOrdered
  · exact fun hunrounded ↦ (hasFaithfulDoubles_of_isUnrounded hunrounded).isTransitivelyOrdered

/-- The double of `2 ^ 53` counts as equal to `2 ^ 53` and to `2 ^ 53 + 1`, which are not equal. -/
theorem exists_compare_not_transitive :
    ∃ a b c : Number, a.compare b ≠ .gt ∧ b.compare c ≠ .gt ∧ a.compare c = .gt :=
  ⟨integer 9007199254740993, float 9007199254740992, integer 9007199254740992, by decide +kernel,
    by decide +kernel, by decide +kernel⟩

end Number

end SchoolAlgebra
