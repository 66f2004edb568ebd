import Mathlib
import SchoolAlgebra.Proofs.Number.LargeValue
import SchoolAlgebra.Number.Decimal

/-!
# Doubles and their units

A finite double without a sign bit is determined by its number of units of `2 ^ -1074`: rounding
this number gives back its pattern. It is an integer if `2 ^ 1074` divides the number. Two such
doubles that compare equal are the same.
-/

namespace SchoolAlgebra.Binary64

open Float.Model (Format UnpackedFloat)
open Float.Model.UnpackedFloat

variable {x y : Float} {m p : ℕ}

/-- Whether the double is finite and its sign bit is clear. -/
def IsFiniteUnsigned (x : Float) : Prop := x.toBits.toNat < infinityPattern

theorem IsFiniteUnsigned.pattern_eq (h : IsFiniteUnsigned x) : pattern x = x.toBits.toNat :=
  Nat.mod_eq_of_lt (h.trans (by decide))

theorem IsFiniteUnsigned.hasSignBit (h : IsFiniteUnsigned x) : hasSignBit x = false :=
  decide_eq_false (not_le.2 (h.trans (by decide)))

/-- The number of units determines the pattern. -/
theorem IsFiniteUnsigned.magnitudePattern_units (h : IsFiniteUnsigned x) :
    magnitudePattern (units x) 1 = x.toBits.toNat := by
  have hlt : pattern x < infinityPattern := h.pattern_eq ▸ h
  rw [← h.pattern_eq]
  have hsplit := Nat.div_add_mod (pattern x) binade
  have hmod : pattern x % binade < binade := Nat.mod_lt _ (by decide)
  have hbinade : binade = 2 ^ 52 := rfl
  unfold units
  dsimp only
  split
  · rename_i hzero
    rw [hzero] at hsplit
    rw [magnitudePattern_of_lt (hbinade ▸ hmod)]
    omega
  · rename_i hpos
    obtain ⟨e, he⟩ := Nat.exists_eq_add_one_of_ne_zero hpos
    rw [he] at hsplit ⊢
    have hplaces : e * binade + (binade + pattern x % binade) = pattern x := by
      rw [mul_comm, Nat.succ_mul] at hsplit
      omega
    rw [Nat.add_sub_cancel, magnitudePattern_mantissa (by omega) (by omega), hplaces,
      min_eq_right hlt.le]

/-- The double is the quotient of its units. -/
theorem IsFiniteUnsigned.ofQuotient_eq (h : IsFiniteUnsigned x) {a d : ℕ} (hd : 0 < d)
    (hunits : a <<< 1074 = units x * d) : ofQuotient false a d = x := by
  apply eq_of_toBits_eq
  rw [toBits_ofQuotient, if_neg Bool.false_ne_true, zero_add, ← h.magnitudePattern_units]
  exact magnitudePattern_congr hd one_pos ((mul_one _).trans hunits)

/-- Whether the double is an integer. -/
def IsWhole (x : Float) : Prop := 2 ^ 1074 ∣ units x

instance : DecidablePred IsWhole := fun x ↦ inferInstanceAs (Decidable (2 ^ 1074 ∣ units x))

/-- A mantissa of 53 digits, or the next power of two, and its place are the number of units. -/
theorem units_of_pattern (hlow : 2 ^ 52 ≤ m) (hhigh : m ≤ 2 ^ 53)
    (hpattern : pattern x = p * binade + m) : units x = m * 2 ^ p := by
  have hbinade : binade = 2 ^ 52 := rfl
  unfold units
  dsimp only
  rw [hpattern]
  rcases hhigh.eq_or_lt with rfl | hlt
  · have hdiv : (p * binade + 2 ^ 53) / binade = p + 2 := by
      rw [hbinade]
      omega
    have hmod : (p * binade + 2 ^ 53) % binade = 0 := by
      rw [hbinade]
      omega
    rw [hdiv, hmod, if_neg (by omega), Nat.shiftLeft_eq, hbinade]
    have hexponent : p + 2 - 1 = p + 1 := by omega
    rw [hexponent]
    ring
  · have hdiv : (p * binade + m) / binade = p + 1 := by
      rw [hbinade]
      omega
    have hmod : binade + (p * binade + m) % binade = m := by
      rw [hbinade]
      omega
    rw [hdiv, hmod, if_neg (by omega), Nat.shiftLeft_eq, Nat.add_sub_cancel]

/-- An integer rounded at a place above its lowest one is a multiple of the lowest one. -/
theorem two_pow_dvd_rounded (n k p : ℕ) :
    2 ^ k ∣ roundHalfEven (n <<< k) (1 <<< p) * 2 ^ p := by
  rcases Nat.lt_or_ge p k with hlt | hge
  · obtain ⟨j, rfl⟩ := Nat.exists_eq_add_of_lt hlt
    have hexact : n <<< (p + j + 1) = n * 2 ^ (j + 1) * 2 ^ p := by
      rw [Nat.shiftLeft_eq]
      ring
    rw [hexact, Nat.shiftLeft_eq, one_mul, roundHalfEven_mul_self (Nat.two_pow_pos p), ← hexact,
      Nat.shiftLeft_eq]
    exact Nat.dvd_mul_left _ _
  · exact Dvd.dvd.mul_left (pow_dvd_pow 2 hge) _

/-- The double nearest to a natural number is whole, if it is finite. -/
theorem isWhole_ofInt {n : ℕ} (h : IsFiniteUnsigned (ofInt n)) : IsWhole (ofInt n) := by
  rcases Nat.eq_zero_or_pos n with rfl | hpos
  · exact (by decide +kernel : IsWhole (ofInt 0))
  have hspacing : spacing (n <<< 1074) 1 ≠ 0 := by
    rw [spacing, Nat.div_one, log2_shiftLeft hpos.ne']
    omega
  have hplace : 0 < 1 <<< spacing (n <<< 1074) 1 := by
    rw [Nat.shiftLeft_eq, one_mul]
    exact Nat.two_pow_pos _
  have hlow := le_roundHalfEven hplace (le_of_spacing one_pos hspacing)
  have hhigh := roundHalfEven_le hplace (lt_of_spacing one_pos).le
  have hfinite : magnitudePattern (n <<< 1074) 1 < infinityPattern :=
    (toBits_ofInt_natCast n).symm.trans_lt h
  have hpattern := h.pattern_eq.trans (toBits_ofInt_natCast n)
  unfold magnitudePattern at hfinite hpattern
  rw [min_eq_right ((min_lt_iff.1 hfinite).resolve_left (lt_irrefl _)).le] at hpattern
  rw [IsWhole, units_of_pattern hlow hhigh hpattern]
  exact two_pow_dvd_rounded n 1074 _

/-- A whole double is the double of its units, taken as an integer. -/
theorem IsFiniteUnsigned.eq_ofInt (h : IsFiniteUnsigned x) (hwhole : IsWhole x) :
    ∃ n : ℕ, units x = n <<< 1074 ∧ x = ofInt n := by
  obtain ⟨n, hn⟩ := hwhole
  have hunits : units x = n <<< 1074 := by rw [hn, Nat.shiftLeft_eq, mul_comm]
  refine ⟨n, hunits, ?_⟩
  rw [ofInt_natCast]
  exact (h.ofQuotient_eq one_pos (by rw [mul_one, hunits])).symm

/-- The whole doubles are those of integers. -/
theorem IsFiniteUnsigned.isWhole_iff (h : IsFiniteUnsigned x) :
    IsWhole x ↔ ∃ n : ℕ, x = ofInt n := by
  constructor
  · intro hwhole
    obtain ⟨n, -, hn⟩ := h.eq_ofInt hwhole
    exact ⟨n, hn⟩
  · rintro ⟨n, rfl⟩
    exact isWhole_ofInt h

theorem IsFiniteUnsigned.isBelow (h : IsFiniteUnsigned x) : IsBelow 1024 (unpacked x) := by
  have hexponent : (unpackExponent (bits x)).toNat ≤ 2046 := by
    rw [unpackExponent_eq]
    unfold IsFiniteUnsigned infinityPattern at h
    have hlt := (Nat.div_lt_iff_lt_mul (by decide : 0 < binade)).2 h
    exact (Nat.mod_le _ _).trans (Nat.le_of_lt_succ hlt)
  exact isBelow_unpack hexponent (by decide) (by decide)

/-- A finite double that is not zero has a mantissa. -/
theorem IsFiniteUnsigned.exists_unpacked (h : IsFiniteUnsigned x) (hne : units x ≠ 0) :
    ∃ s m e hm, unpacked x = .finite s m e hm := by
  have hbelow := h.isBelow
  have hpack := pack_unpacked (unpackExponent_lt hbelow)
  cases hu : unpacked x with
  | finite s m e hm => exact ⟨s, m, e, hm, rfl⟩
  | zero s =>
    rw [hu] at hpack
    have hpattern : pattern x = 0 := by
      rw [pattern, ← toNat_bits, ← hpack]
      cases s <;> rfl
    exact absurd (by rw [units, hpattern]; rfl) hne
  | infinity => exact (hu ▸ hbelow : IsBelow 1024 (.infinity _)).elim
  | notANumber => exact (hu ▸ hbelow : IsBelow 1024 .notANumber).elim

theorem eq_of_compare_finite {s : Sign} {e : ℤ} {hm : 0 < m} {v : UnpackedFloat}
    (h : v.compare (.finite s m e hm) = some .eq) : v = .finite s m e hm := by
  match v, s, h with
  | .finite .positive n f hn, .positive, h | .finite .negative n f hn, .negative, h =>
    simp only [UnpackedFloat.compare, Option.some.injEq, Ordering.swap_eq_eq,
      Ordering.then_eq_eq, compare_eq_iff_eq] at h
    obtain ⟨rfl, rfl⟩ := h
    rfl

theorem compare_self_finite (s : Sign) (m : ℕ) (e : ℤ) (hm : 0 < m) :
    (UnpackedFloat.finite s m e hm).compare (.finite s m e hm) = some .eq := by
  cases s <;> simp [UnpackedFloat.compare]

theorem beq_iff_compare : (y == x) = true ↔ (unpacked y).compare (unpacked x) = some .eq := by
  change ((unpacked y).compare (unpacked x) == some .eq) = true ↔ _
  exact beq_iff_eq

theorem beq_self {s : Sign} {e : ℤ} {hm : 0 < m} (hx : unpacked x = .finite s m e hm) :
    (x == x) = true := by
  rw [beq_iff_compare, hx]
  exact compare_self_finite s m e hm

/-- A double that compares equal to one with a mantissa is the same. -/
theorem eq_of_beq {s : Sign} {e : ℤ} {hm : 0 < m} (hx : unpacked x = .finite s m e hm)
    (h : (y == x) = true) : y = x := by
  have hcompare := beq_iff_compare.1 h
  have hy : unpacked y = unpacked x := by
    rw [hx] at hcompare ⊢
    exact eq_of_compare_finite hcompare
  have hbelow : IsBelow (Float.Model.totalExponent m e) (unpacked x) := by
    rw [hx]
    exact le_rfl
  apply eq_of_toBits_eq
  rw [← toNat_bits, ← toNat_bits, ← pack_unpacked (unpackExponent_lt hbelow), ← hy,
    pack_unpacked (unpackExponent_lt (hy ▸ hbelow))]

theorem IsFiniteUnsigned.not_lt_zero (h : IsFiniteUnsigned x) : ¬x < 0 := by
  have hnonnegative := isNonnegative_unpacked (h.trans (by decide)) (unpackExponent_lt h.isBelow)
  have hzero : unpacked 0 = .zero .positive := rfl
  rw [lt_iff, hzero]
  match unpacked x, hnonnegative with
  | .zero _, _ | .infinity .positive, _ | .finite .positive .., _ => exact Bool.false_ne_true

/-- A finite double is neither NaN nor infinite. -/
theorem IsFiniteUnsigned.status (h : IsFiniteUnsigned x) :
    x.isNaN = false ∧ x.isInf = false := by
  have hbelow := h.isBelow
  change (unpacked x).isNaN = false ∧ (unpacked x).isInf = false
  cases hu : unpacked x with
  | finite | zero => exact ⟨rfl, rfl⟩
  | infinity => exact (hu ▸ hbelow : IsBelow 1024 (.infinity _)).elim
  | notANumber => exact (hu ▸ hbelow : IsBelow 1024 .notANumber).elim

end SchoolAlgebra.Binary64
