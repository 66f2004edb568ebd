import Mathlib
import SchoolAlgebra.Proofs.Number.Units
import SchoolAlgebra.Proofs.Token.Writing

/-!
# Shortest numerals

The text of a finite double without a sign shows digits that read back as the double. It has no
point exactly if the double is whole: then a neighbour without a fraction is found before any other,
or the zeros behind the point are dropped.
-/

namespace SchoolAlgebra

open Binary64 (IsFiniteUnsigned IsWhole ofQuotient ofQuotient_congr units)

namespace Decimal

theorem natOfDigits_append (as bs : List Char) :
    natOfDigits (as ++ bs) = 10 ^ bs.length * natOfDigits as + natOfDigits bs :=
  (Nat.ofDigitChars_append 0).trans Nat.ofDigitChars_eq_ofDigitChars_zero

theorem natOfDigits_replicate (k : ℕ) : natOfDigits (List.replicate k '0') = 0 :=
  (Nat.ofDigitChars_replicate_zero (b := 10)).trans (mul_zero _)

theorem natOfDigits_append_zeros (ds : List Char) (k : ℕ) :
    natOfDigits (ds ++ List.replicate k '0') = natOfDigits ds * 10 ^ k := by
  rw [natOfDigits_append, natOfDigits_replicate, List.length_replicate, add_zero, mul_comm]

theorem natOfDigits_zeros_append (k : ℕ) (ds : List Char) :
    natOfDigits (List.replicate k '0' ++ ds) = natOfDigits ds := by
  rw [natOfDigits_append, natOfDigits_replicate, mul_zero, zero_add]

theorem exists_trimZeros (ds : List Char) : ∃ k, ds = trimZeros ds ++ List.replicate k '0' := by
  refine ⟨(ds.reverse.takeWhile (· == '0')).length, ?_⟩
  have hzeros : ds.reverse.takeWhile (· == '0') =
      List.replicate (ds.reverse.takeWhile (· == '0')).length '0' :=
    List.eq_replicate_of_mem fun _ hc ↦
      beq_iff_eq.1 (List.mem_takeWhile_imp (p := (· == '0')) hc)
  rw [trimZeros, ← List.reverse_replicate, ← hzeros, ← List.reverse_append,
    List.takeWhile_append_dropWhile, List.reverse_reverse]

theorem mem_of_mem_trimZeros {ds : List Char} {c : Char} (h : c ∈ trimZeros ds) : c ∈ ds := by
  obtain ⟨k, hk⟩ := exists_trimZeros ds
  rw [hk]
  exact List.mem_append_left _ h

/-- Zeros that are dropped from the end of digits behind a point do not change the value. -/
theorem natOfDigits_cut {ds : List Char} {shift : ℕ} (h : shift ≤ ds.length) :
    natOfDigits (ds.take (ds.length - shift) ++ trimZeros (ds.drop (ds.length - shift))) *
        10 ^ shift =
      natOfDigits ds * 10 ^ (trimZeros (ds.drop (ds.length - shift))).length := by
  obtain ⟨k, hk⟩ := exists_trimZeros (ds.drop (ds.length - shift))
  have hkept : (trimZeros (ds.drop (ds.length - shift))).length + k = shift := by
    have htail := congrArg List.length hk
    rw [List.length_drop, List.length_append, List.length_replicate] at htail
    omega
  have hall : natOfDigits ds = natOfDigits
      (ds.take (ds.length - shift) ++ trimZeros (ds.drop (ds.length - shift))) * 10 ^ k := by
    conv_lhs =>
      rw [← List.take_append_drop (ds.length - shift) ds, hk, ← List.append_assoc,
        natOfDigits_append_zeros]
  rw [hall, mul_assoc, ← pow_add, add_comm k, hkept]

theorem ne_zero_of_getLast?_trimZeros {ds : List Char} {c : Char}
    (h : (trimZeros ds).getLast? = some c) : c ≠ '0' := by
  rw [trimZeros, List.getLast?_reverse] at h
  have hhead := List.head?_dropWhile_not (· == '0') ds.reverse
  rw [h] at hhead
  simpa using hhead

theorem digits_mul_ten_pow {n : ℕ} (hn : 0 < n) (k : ℕ) :
    digits (n * 10 ^ k) = digits n ++ List.replicate k '0' := by
  induction k with
  | zero => simp
  | succ k ih =>
    have happend := Nat.toDigits_append_toDigits (b := 10) (n := n * 10 ^ k) (d := 0) (by decide)
      (Nat.mul_pos hn (Nat.pow_pos (by decide))) (by decide)
    have hpower : n * 10 ^ (k + 1) = 10 * (n * 10 ^ k) + 0 := by ring
    rw [digits, hpower, ← happend, Nat.toDigits_zero]
    change digits (n * 10 ^ k) ++ _ = _
    rw [ih, List.append_assoc, ← List.replicate_succ']

theorem toFloat_eq (d : Decimal) (negative : Bool) :
    d.toFloat negative =
      ofQuotient negative (d.coefficient * 10 ^ d.exponent.toNat) (10 ^ (-d.exponent).toNat) := by
  unfold toFloat
  dsimp only
  split
  · rename_i hneg
    have hshift : d.exponent.natAbs = (-d.exponent).toNat := by omega
    have hzero : d.exponent.toNat = 0 := by omega
    rw [hshift, hzero, pow_zero, mul_one]
    rfl
  · rename_i hneg
    have hshift : d.exponent.natAbs = d.exponent.toNat := by omega
    have hzero : (-d.exponent).toNat = 0 := by omega
    rw [hshift, hzero, pow_zero]
    rfl

/-- Whether the value of the numeral is an integer. -/
def IsWhole (d : Decimal) : Prop := 10 ^ (-d.exponent).toNat ∣ d.coefficient

/-- A numeral without a point is read as the double nearest to its integer. -/
theorem toFloat_ofDigits_nil (ds : List Char) :
    (ofDigits ds []).toFloat false = Binary64.ofInt (natOfDigits ds) := by
  rw [toFloat_eq, Binary64.ofInt_natCast]
  simp [ofDigits]

theorem isWhole_of_exponent {d : Decimal} (h : 0 ≤ d.exponent) : d.IsWhole := by
  have hzero : (-d.exponent).toNat = 0 := by omega
  rw [IsWhole, hzero, pow_zero]
  exact one_dvd _

/-! ## Positional notation -/

/-- The digits before and after a point, which is left out if no digit is behind it. -/
def positional (whole fractional : List Char) : List Char :=
  if fractional = [] then whole else whole ++ '.' :: fractional

/-- Whether the numeral is written by the digits before and after the point. -/
structure IsWrittenBy (d : Decimal) (whole fractional : List Char) : Prop where
  whole_ne_nil : whole ≠ []
  isDigit_whole : ∀ c ∈ whole, isDigit c = true
  isDigit_fractional : ∀ c ∈ fractional, isDigit c = true
  trimmed : ∀ c, fractional.getLast? = some c → c ≠ '0'
  value : natOfDigits (whole ++ fractional) * 10 ^ (-d.exponent).toNat =
    d.coefficient * 10 ^ d.exponent.toNat * 10 ^ fractional.length

variable {d : Decimal} {whole fractional : List Char}

/-- A numeral with a point has its digits padded to one before the point at least. -/
theorem exists_isWrittenBy_of_neg (h : d.exponent < 0) : ∃ whole fractional,
    d.toText = String.ofList (positional whole fractional) ∧ d.IsWrittenBy whole fractional := by
  obtain ⟨shift, hshift⟩ : ∃ shift, shift = d.exponent.natAbs := ⟨_, rfl⟩
  have hpositive : (-d.exponent).toNat = shift := by omega
  have hzero : d.exponent.toNat = 0 := by omega
  obtain ⟨padding, hpadding⟩ : ∃ n, n = shift + 1 - (digits d.coefficient).length := ⟨_, rfl⟩
  obtain ⟨all, hall⟩ : ∃ all, all = List.replicate padding '0' ++ digits d.coefficient := ⟨_, rfl⟩
  have hlength : shift + 1 ≤ all.length := by
    rw [hall, List.length_append, List.length_replicate]
    omega
  have hdigits : ∀ c ∈ all, isDigit c = true := by
    intro c hc
    rw [hall, List.mem_append] at hc
    rcases hc with hc | hc
    · rw [List.eq_of_mem_replicate hc]
      rfl
    · exact isDigit_of_mem_digits hc
  refine ⟨all.take (all.length - shift), trimZeros (all.drop (all.length - shift)),
    ?_, ?_, ?_, ?_, fun c ↦ ne_zero_of_getLast?_trimZeros, ?_⟩
  · simp only [toText, ← hshift, if_pos h, ← hpadding, ← hall, positional, List.isEmpty_iff]
  · rw [← List.length_pos_iff, List.length_take]
    omega
  · exact fun c hc ↦ hdigits c (List.mem_of_mem_take hc)
  · exact fun c hc ↦ hdigits c (List.mem_of_mem_drop (mem_of_mem_trimZeros hc))
  · rw [hpositive, hzero, pow_zero, mul_one, natOfDigits_cut (by omega), hall,
      natOfDigits_zeros_append, natOfDigits_digits]

theorem exists_isWrittenBy (d : Decimal) : ∃ whole fractional,
    d.toText = String.ofList (positional whole fractional) ∧ d.IsWrittenBy whole fractional := by
  rcases lt_or_ge d.exponent 0 with hneg | hnonneg
  · exact exists_isWrittenBy_of_neg hneg
  · have hshift : d.exponent.natAbs = d.exponent.toNat := by omega
    have hzero : (-d.exponent).toNat = 0 := by omega
    refine ⟨digits d.coefficient ++ List.replicate d.exponent.toNat '0', [], ?_, ?_, ?_, ?_, ?_, ?_⟩
    · simp only [toText, hshift, if_neg (not_lt.2 hnonneg), positional, if_true]
    · exact List.append_ne_nil_of_left_ne_nil Nat.toDigits_ne_nil _
    · intro c hc
      rw [List.mem_append] at hc
      rcases hc with hc | hc
      · exact isDigit_of_mem_digits hc
      · rw [List.eq_of_mem_replicate hc]
        rfl
    · exact nofun
    · exact nofun
    · rw [List.append_nil, natOfDigits_append_zeros, natOfDigits_digits, hzero, pow_zero,
        List.length_nil, pow_zero]

/-- The digits of a numeral are read as the same double as the numeral. -/
theorem IsWrittenBy.toFloat_ofDigits (h : d.IsWrittenBy whole fractional) (negative : Bool) :
    (ofDigits whole fractional).toFloat negative = d.toFloat negative := by
  have hexponent : (-(fractional.length : ℤ)).toNat = 0 := by omega
  have hexponent' : (- -(fractional.length : ℤ)).toNat = fractional.length := by omega
  rw [toFloat_eq, toFloat_eq]
  refine ofQuotient_congr negative (Nat.pow_pos (by decide)) (Nat.pow_pos (by decide)) ?_
  simp only [ofDigits, hexponent, hexponent', pow_zero, mul_one]
  exact h.value

/-- The last digit behind the point of a numeral is not zero, so its value is no integer. -/
theorem IsWrittenBy.isWhole_iff (h : d.IsWrittenBy whole fractional) :
    d.IsWhole ↔ fractional = [] := by
  have hvalue := h.value
  constructor
  · rintro ⟨n, hn⟩
    rcases List.eq_nil_or_concat' fractional with hnil | ⟨others, last, rfl⟩
    · exact hnil
    · have hlast : last ≠ '0' := h.trimmed last (by rw [List.getLast?_concat])
      have hdigit := toNat_of_isDigit (h.isDigit_fractional last (by simp))
      have hpos : last.toNat ≠ 48 := fun heq ↦ hlast (Char.toNat_inj.1 heq)
      have hvalue' : natOfDigits (whole ++ (others ++ [last])) =
          n * 10 ^ d.exponent.toNat * 10 ^ others.length * 10 := by
        apply Nat.eq_of_mul_eq_mul_right (Nat.pow_pos (by decide) : 0 < 10 ^ (-d.exponent).toNat)
        rw [hvalue, hn, List.length_append, List.length_singleton, pow_succ]
        ring
      rw [← List.append_assoc, natOfDigits_append] at hvalue'
      have hone : natOfDigits [last] = last.toNat - 48 := by simp [natOfDigits]
      rw [hone, List.length_singleton, pow_one] at hvalue'
      omega
  · rintro rfl
    rw [List.append_nil, List.length_nil, pow_zero, mul_one] at hvalue
    rcases le_total 0 d.exponent with hnonneg | hneg
    · exact isWhole_of_exponent hnonneg
    · rw [Int.toNat_of_nonpos hneg, pow_zero, mul_one] at hvalue
      exact ⟨natOfDigits whole, by rw [← hvalue, mul_comm]⟩

/-! ## The shortest numeral -/

section shortest

variable {x : Float}

/-- Every numeral that is found reads back as the double. -/
theorem reads_of_roundTrip? {e : Decimal} {dropped : ℕ} (h : roundTrip? x d dropped = some e) :
    (e.toFloat (Binary64.hasSignBit x) == x) = true := by
  unfold roundTrip? at h
  dsimp only at h
  split at h
  · rename_i hbelow habove
    rw [← Option.some.inj h]
    split
    · exact habove
    · exact hbelow
  · rename_i hbelow _
    exact Option.some.inj h ▸ hbelow
  · rename_i _ habove
    exact Option.some.inj h ▸ habove
  · cases h

theorem exponent_of_roundTrip? {e : Decimal} {dropped : ℕ} (h : roundTrip? x d dropped = some e) :
    e.exponent = d.exponent + dropped := by
  unfold roundTrip? at h
  dsimp only at h
  split at h
  · rw [← Option.some.inj h]
    split <;> rfl
  · exact Option.some.inj h ▸ rfl
  · exact Option.some.inj h ▸ rfl
  · cases h

/-- The lower neighbour is found if it reads back as the double. -/
theorem roundTrip?_ne_none {dropped : ℕ}
    (h : ((d.neighbours dropped).1.toFloat (Binary64.hasSignBit x) == x) = true) :
    roundTrip? x d dropped ≠ none := by
  unfold roundTrip?
  dsimp only
  rw [h]
  split <;> simp_all

theorem mul_five_pow_shiftLeft (n k : ℕ) : (n * Nat.pow 5 k) <<< k = n * 10 ^ k := by
  rw [Nat.shiftLeft_eq, mul_assoc]
  congr 1
  exact (mul_pow 5 2 k).symm

theorem shiftLeft_mul_five_pow (n k : ℕ) : (n <<< k) * Nat.pow 5 k = n * 10 ^ k := by
  rw [Nat.shiftLeft_eq, mul_assoc]
  congr 1
  exact (mul_pow 2 5 k).symm

/-- The number of places is a variable, since its powers are too large to be computed. -/
theorem exists_exact_eq (x : Float) :
    ∃ k : ℕ, k = 1074 ∧ exact x = ⟨units x * Nat.pow 5 k, -k⟩ := by
  obtain ⟨k, hk⟩ : ∃ k, k = 1074 := ⟨_, rfl⟩
  have hexponent : -(k : ℤ) = -1074 := by omega
  refine ⟨k, hk, ?_⟩
  unfold exact
  rw [← hk, hexponent]

theorem toFloat_exact (h : IsFiniteUnsigned x) : (exact x).toFloat false = x := by
  obtain ⟨k, hk, hexact⟩ := exists_exact_eq x
  rw [toFloat_eq, hexact]
  apply h.ofQuotient_eq (Nat.pow_pos (by decide))
  rw [← hk]
  simp only [neg_neg, Int.toNat_natCast, Int.toNat_neg_natCast, pow_zero, mul_one]
  exact mul_five_pow_shiftLeft (units x) k

/-- The shortest numeral reads back as the double. -/
theorem toFloat_shortest (h : IsFiniteUnsigned x) (hne : units x ≠ 0) :
    (shortest x).toFloat false = x := by
  unfold shortest
  dsimp only
  cases hfound : (List.range 17).findSome? fun n ↦
      roundTrip? x (exact x) ((digits (exact x).coefficient).length - (n + 1)) with
  | none => exact toFloat_exact h
  | some e =>
    obtain ⟨n, -, hn⟩ := List.exists_of_findSome?_eq_some hfound
    have hreads := reads_of_roundTrip? hn
    rw [h.hasSignBit] at hreads
    obtain ⟨s, m, f, hm, hu⟩ := h.exists_unpacked hne
    exact Binary64.eq_of_beq hu hreads

/-- The exact numeral of a whole double shows an integer and zeros. -/
theorem exists_exact_of_isWhole (h : IsFiniteUnsigned x) (hne : units x ≠ 0)
    (hwhole : Binary64.IsWhole x) :
    ∃ n k : ℕ, 0 < n ∧ exact x = ⟨n * 10 ^ k, -k⟩ ∧ (⟨n, 0⟩ : Decimal).toFloat false = x := by
  obtain ⟨n, hn, rfl⟩ := h.eq_ofInt hwhole
  have hpos : 0 < n := by
    rcases Nat.eq_zero_or_pos n with rfl | hpos
    · exact absurd (hn.trans (Nat.zero_shiftLeft 1074)) hne
    · exact hpos
  obtain ⟨k, hk, hexact⟩ := exists_exact_eq (Binary64.ofInt n)
  rw [← hk] at hn
  refine ⟨n, k, hpos, ?_, ?_⟩
  · rw [hexact, hn, shiftLeft_mul_five_pow]
  · rw [toFloat_eq]
    apply h.ofQuotient_eq (Nat.pow_pos (by decide))
    rw [← hk, hn]
    simp

/-- What a search up to a place that has a result finds stands no later than this place. -/
theorem exists_le_of_findSome?_range {α : Type} {f : ℕ → Option α} {a : α} {m n : ℕ}
    (h : (List.range n).findSome? f = some a) (hm : m < n) (hfound : f m ≠ none) :
    ∃ i ≤ m, f i = some a := by
  obtain ⟨j, rfl⟩ := Nat.exists_eq_add_of_le (Nat.succ_le_of_lt hm)
  rw [List.range_add, List.findSome?_append] at h
  cases hfirst : (List.range (m + 1)).findSome? f with
  | none =>
    have hmem : m ∈ List.range (m + 1) := List.mem_range.2 (Nat.lt_succ_self m)
    exact absurd (List.findSome?_eq_none_iff.1 hfirst m hmem) hfound
  | some b =>
    rw [hfirst, Option.some_or, Option.some.injEq] at h
    obtain ⟨i, hi, hfi⟩ := List.exists_of_findSome?_eq_some hfirst
    exact ⟨i, Nat.le_of_lt_succ (List.mem_range.1 hi), h ▸ hfi⟩

/--
The shortest numeral of a whole double is whole. The integer itself is the lower neighbour with as
many digits as it has.
-/
theorem isWhole_shortest (h : IsFiniteUnsigned x) (hne : units x ≠ 0)
    (hwhole : Binary64.IsWhole x) : (shortest x).IsWhole := by
  obtain ⟨n, k, hpos, hexact, hreads⟩ := exists_exact_of_isWhole h hne hwhole
  have hlength : (digits (exact x).coefficient).length = (digits n).length + k := by
    rw [hexact, digits_mul_ten_pow hpos, List.length_append, List.length_replicate]
  unfold shortest
  dsimp only
  rw [hlength]
  cases hfound : (List.range 17).findSome? fun m ↦
      roundTrip? x (exact x) ((digits n).length + k - (m + 1)) with
  | none =>
    rw [Option.getD_none, hexact, IsWhole, neg_neg, Int.toNat_natCast]
    exact Nat.dvd_mul_left _ _
  | some e =>
    have hinteger : roundTrip? x (exact x) k ≠ none := by
      obtain ⟨s, m, f, hm, hu⟩ := h.exists_unpacked hne
      apply roundTrip?_ne_none
      have hbelow : ((exact x).neighbours k).1 = ⟨n, 0⟩ := by
        rw [hexact, neighbours]
        dsimp only
        rw [neg_add_cancel]
        congr 1
        exact Nat.mul_div_cancel n (Nat.pow_pos (by decide))
      rw [hbelow, h.hasSignBit, hreads]
      exact Binary64.beq_self hu
    have hplace : ∃ m < (digits n).length,
        roundTrip? x (exact x) ((digits n).length + k - (m + 1)) = some e := by
      have hdigits : 0 < (digits n).length := Nat.length_toDigits_pos
      rcases Nat.lt_or_ge ((digits n).length - 1) 17 with hlt | hge
      · have hlast : (digits n).length + k - ((digits n).length - 1 + 1) = k := by omega
        obtain ⟨m, hm, he⟩ := exists_le_of_findSome?_range hfound hlt (by rwa [hlast])
        exact ⟨m, by omega, he⟩
      · obtain ⟨m, hm, he⟩ := List.exists_of_findSome?_eq_some hfound
        have hlt := List.mem_range.1 hm
        exact ⟨m, by omega, he⟩
    obtain ⟨m, hm, he⟩ := hplace
    have hexponent := exponent_of_roundTrip? he
    rw [hexact] at hexponent
    dsimp only at hexponent
    exact isWhole_of_exponent (by rw [Option.getD_some, hexponent]; omega)

/--
The text of a finite double without a sign shows digits that are read as the double, and it shows no
digits behind a point exactly if the double is whole.
-/
theorem exists_digits_ofFloat (h : IsFiniteUnsigned x) : ∃ whole fractional,
    ofFloat x = String.ofList (positional whole fractional) ∧ whole ≠ [] ∧
      (∀ c ∈ whole, isDigit c = true) ∧ (∀ c ∈ fractional, isDigit c = true) ∧
      (ofDigits whole fractional).toFloat false = x ∧ (Binary64.IsWhole x ↔ fractional = []) := by
  have htext : ofFloat x = if units x = 0 then "0" else (shortest x).toText := by
    unfold ofFloat
    rw [h.status.1, h.status.2, h.hasSignBit]
    simp
  rw [htext]
  by_cases hzero : units x = 0
  · rw [if_pos hzero]
    refine ⟨['0'], [], rfl, List.cons_ne_nil _ _, by simp [isDigit], nofun, ?_, ?_⟩
    · have hdigit : natOfDigits ['0'] = 0 := rfl
      rw [toFloat_ofDigits_nil, Binary64.ofInt_natCast]
      exact h.ofQuotient_eq one_pos (by rw [hzero, hdigit, zero_mul, Nat.zero_shiftLeft])
    · exact iff_of_true (by rw [Binary64.IsWhole, hzero]; exact Nat.dvd_zero _) rfl
  · rw [if_neg hzero]
    obtain ⟨whole, fractional, htext, hwritten⟩ := exists_isWrittenBy (shortest x)
    have hreads := hwritten.toFloat_ofDigits false
    rw [toFloat_shortest h hzero] at hreads
    refine ⟨whole, fractional, htext, hwritten.whole_ne_nil, hwritten.isDigit_whole,
      hwritten.isDigit_fractional, hreads,
      fun hwhole ↦ hwritten.isWhole_iff.1 (isWhole_shortest h hzero hwhole), ?_⟩
    rintro rfl
    rw [toFloat_ofDigits_nil] at hreads
    exact h.isWhole_iff.2 ⟨_, hreads.symm⟩

end shortest

end Decimal

end SchoolAlgebra
