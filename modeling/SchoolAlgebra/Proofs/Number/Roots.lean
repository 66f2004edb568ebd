import Mathlib
import SchoolAlgebra.Proofs.Number.ExactPower

/-!
# Perfect powers have their roots

The search for a root goes from the highest bit down and keeps the root between two bounds, which
differ by the power of two that the bits to come can still make up. So it ends at the floor of the
root, and a perfect power has the root that it is a power of. The parts of a rational in lowest
terms are perfect powers if the rational is one.
-/

namespace SchoolAlgebra

namespace Root

/-- The bits still to come decide a root between a bound and that bound plus their greatest sum. -/
theorem extend_spec {n x : ℕ} {bits r : ℕ} (hlower : r ^ n ≤ x)
    (hupper : x < (r + 2 ^ bits) ^ n) :
    extend n x bits r ^ n ≤ x ∧ x < (extend n x bits r + 1) ^ n := by
  induction bits generalizing r with
  | zero => exact ⟨hlower, hupper⟩
  | succ bits ih =>
    have hdouble : 2 ^ (bits + 1) = 2 ^ bits + 2 ^ bits := by rw [pow_succ, mul_two]
    simp only [extend, Nat.pow_eq, Nat.shiftLeft_eq, one_mul]
    split
    · rename_i hcandidate
      apply ih hcandidate
      rwa [add_assoc, ← hdouble]
    · rename_i hcandidate
      exact ih hlower (not_le.1 hcandidate)

/-- The floor of a root is the greatest number whose power is not greater. -/
theorem floor_spec {n x : ℕ} (hn : n ≠ 0) : floor n x ^ n ≤ x ∧ x < (floor n x + 1) ^ n := by
  apply extend_spec
  · rw [zero_pow hn]
    exact Nat.zero_le x
  · have hbits : x.log2 + 1 ≤ (x.log2 / n + 1) * n := by
      rw [mul_comm]
      exact Nat.lt_mul_div_succ x.log2 (Nat.pos_of_ne_zero hn)
    calc x < 2 ^ (x.log2 + 1) := Nat.lt_log2_self
      _ ≤ 2 ^ ((x.log2 / n + 1) * n) := Nat.pow_le_pow_right two_pos hbits
      _ = (0 + 2 ^ (x.log2 / n + 1)) ^ n := by rw [zero_add, pow_mul]

theorem floor_pow {n r : ℕ} (hn : n ≠ 0) : floor n (r ^ n) = r := by
  obtain ⟨hlower, hupper⟩ := floor_spec (x := r ^ n) hn
  have hle := (Nat.pow_le_pow_iff_left hn).1 hlower
  have hlt := (Nat.pow_lt_pow_iff_left hn).1 hupper
  omega

/-- A natural number has an exact root exactly if it is a power of it. -/
theorem ofNat?_eq_some_iff {n x r : ℕ} (hn : n ≠ 0) : ofNat? n x = some r ↔ r ^ n = x := by
  refine ⟨pow_of_ofNat? hn, ?_⟩
  rintro rfl
  unfold ofNat?
  split
  · rename_i hsmall
    have hr : r ≤ 1 := (pow_le_one_iff hn).1 hsmall
    have hcases : r = 0 ∨ r = 1 := by omega
    rcases hcases with rfl | rfl
    · rw [zero_pow hn]
    · rw [one_pow]
  · rename_i hlarge
    have hr : 2 ≤ r := by
      by_contra hlt
      exact hlarge ((pow_le_one_iff hn).2 (by omega))
    have horder : n ≤ (r ^ n).log2 := by
      rw [Nat.le_log2 (by omega)]
      exact Nat.pow_le_pow_left hr n
    rw [if_neg (Nat.not_lt.2 horder), floor_pow hn]
    exact if_pos rfl

/-- A rational, which has a sign only if the order is odd, is the root of its power. -/
theorem ofRat?_pow {n : ℕ} {r : ℚ} (hn : n ≠ 0) (hsign : Even n → 0 ≤ r) :
    ofRat? n (r ^ n) = some r := by
  have hnumerator : ofNat? n (r ^ n).num.natAbs = some r.num.natAbs := by
    rw [ofNat?_eq_some_iff hn, Rat.num_pow, Int.natAbs_pow]
  have hdenominator : ofNat? n (r ^ n).den = some r.den := by
    rw [ofNat?_eq_some_iff hn, Rat.den_pow]
  have hneg : (r ^ n).num < 0 ↔ r.num < 0 := by
    rw [Rat.num_neg, Rat.num_neg]
    rcases Nat.even_or_odd n with heven | hodd
    · exact iff_of_false (heven.pow_nonneg r).not_gt (hsign heven).not_gt
    · exact hodd.pow_neg_iff
  have hsigned : (if r.num < 0 then -(r.num.natAbs : ℤ) else r.num.natAbs) = r.num := by
    split <;> omega
  simp only [ofRat?, hnumerator, hdenominator, Option.bind_eq_bind, Option.bind_some, hneg,
    hsigned, Rat.mkRat_self]
  rfl

/--
Of a rational without a sign, and by an odd order of every rational, the root is the rational whose
power it is, and it has no sign that the rational does not have.
-/
theorem ofRat?_eq_some_iff {n : ℕ} {q r : ℚ} (hn : n ≠ 0) (hsign : 0 ≤ q ∨ Odd n) :
    ofRat? n q = some r ↔ r ^ n = q ∧ (0 ≤ q → 0 ≤ r) := by
  constructor
  · intro h
    rcases le_or_gt 0 q with hq | hq
    · obtain ⟨hr, hpow⟩ := pow_of_ofRat?_of_nonneg hn hq h
      exact ⟨hpow, fun _ ↦ hr⟩
    · have hodd : Odd n := hsign.resolve_left (not_le.2 hq)
      exact ⟨pow_of_ofRat?_of_neg hodd hq h, fun hq' ↦ absurd hq (not_lt.2 hq')⟩
  · rintro ⟨rfl, hr⟩
    exact ofRat?_pow hn fun heven ↦ hr (heven.pow_nonneg r)

/-- A rational that is a power is the power of a rational with no sign that it does not have. -/
theorem exists_pow_eq_of_nonneg {n : ℕ} {r : ℚ} : ∃ s : ℚ, s ^ n = r ^ n ∧ (0 ≤ r ^ n → 0 ≤ s) := by
  rcases Nat.even_or_odd n with heven | hodd
  · exact ⟨|r|, heven.pow_abs r, fun _ ↦ abs_nonneg r⟩
  · exact ⟨r, rfl, hodd.pow_nonneg_iff.1⟩

/--
The exact root is sound and complete. Of a rational without a sign, and by an odd order of every
rational, there is a root exactly if the rational is a power of that order, and the root then has
the rational as its power, and no sign unless the rational has one.
-/
theorem isSome_ofRat?_iff {n : ℕ} {q : ℚ} (hn : n ≠ 0) (hsign : 0 ≤ q ∨ Odd n) :
    ((ofRat? n q).isSome ↔ ∃ r : ℚ, r ^ n = q) ∧
      ∀ r, ofRat? n q = some r → r ^ n = q ∧ (0 ≤ q → 0 ≤ r) := by
  refine ⟨⟨fun h ↦ ?_, ?_⟩, fun r hr ↦ (ofRat?_eq_some_iff hn hsign).1 hr⟩
  · obtain ⟨r, hr⟩ := Option.isSome_iff_exists.1 h
    exact ⟨r, ((ofRat?_eq_some_iff hn hsign).1 hr).1⟩
  · rintro ⟨r, rfl⟩
    obtain ⟨s, hpow, hs⟩ := exists_pow_eq_of_nonneg (n := n) (r := r)
    rw [(ofRat?_eq_some_iff hn hsign).2 ⟨hpow, hs⟩]
    rfl

/-- The cube root of `-8 / 27` is `-2 / 3`. -/
theorem isSome_ofRat?_iff_cube : (3 ≠ 0 ∧ (0 ≤ (-8 / 27 : ℚ) ∨ Odd 3)) ∧
    (ofRat? 3 (-8 / 27)).isSome = true ∧
      ∀ r, ofRat? 3 (-8 / 27) = some r → r ^ 3 = -8 / 27 ∧ (0 ≤ (-8 / 27 : ℚ) → 0 ≤ r) := by
  have hodd : Odd 3 := by decide
  obtain ⟨hsome, hpower⟩ := isSome_ofRat?_iff (q := -8 / 27) three_ne_zero (.inr hodd)
  exact ⟨⟨three_ne_zero, .inr hodd⟩, hsome.2 ⟨-2 / 3, by norm_num⟩, hpower⟩

end Root

/--
A power with a rational exponent is a whole power of a root of its base, since the parts of the
exponent are coprime. The root has no sign if its order is even: the numerator is odd then, and the
value has the sign of the root.
-/
theorem IsPower.exists_root {base exponent value : ℚ} (h : IsPower base exponent value) :
    ∃ root : ℚ, root ^ exponent.den = base ∧ root ^ exponent.num = value ∧
      (Even exponent.den → 0 ≤ root) := by
  obtain ⟨hdefined, hvalue, hsign⟩ := h
  rcases eq_or_ne base 0 with rfl | hbase
  · have hnum : 0 ≤ exponent.num := Rat.num_nonneg.2 (hdefined rfl)
    refine ⟨0, zero_pow exponent.den_nz, ?_, fun _ ↦ le_rfl⟩
    rcases hnum.eq_or_lt' with hzero | hpos
    · have hden : exponent.den = 1 := by rw [Rat.num_eq_zero.1 hzero, Rat.den_zero]
      rwa [hden, pow_one, eq_comm] at hvalue
    · rw [zero_zpow _ hpos.ne'] at hvalue ⊢
      exact (eq_zero_of_pow_eq_zero hvalue).symm
  · obtain ⟨root, hroot, hpow⟩ : ∃ root : ℚ,
        root ^ exponent.den = base ∧ root ^ exponent.num = value := by
      rcases le_or_gt 0 exponent.num with hnum | hnum
      · have hcast : (exponent.num.natAbs : ℤ) = exponent.num := Int.natAbs_of_nonneg hnum
        rw [← hcast, zpow_natCast] at hvalue
        obtain ⟨root, hr, hb⟩ := (pow_eq_pow_iff_of_coprime exponent.reduced.symm).1 hvalue
        exact ⟨root, hb.symm, by rw [← hcast, zpow_natCast, hr]⟩
      · have hcast : (exponent.num.natAbs : ℤ) = -exponent.num := by omega
        rw [← inv_inv base, inv_zpow, ← zpow_neg, ← hcast, zpow_natCast] at hvalue
        obtain ⟨root, hr, hb⟩ := (pow_eq_pow_iff_of_coprime exponent.reduced.symm).1 hvalue
        refine ⟨root⁻¹, by rw [inv_pow, ← hb, inv_inv], ?_⟩
        rw [inv_zpow, ← zpow_neg, ← hcast, zpow_natCast, hr]
    refine ⟨root, hroot, hpow, fun heven ↦ not_lt.1 fun hneg ↦ ?_⟩
    have hodd : Odd exponent.num := odd_num_of_even_den heven
    exact absurd (hpow ▸ hodd.zpow_neg hneg) (hsign heven).not_gt

end SchoolAlgebra
