/-!
# Machine words as ranges of integers

Exact results are kept in fixed-width words: signed 64-bit integers, unsigned 64-bit parts of
fractions, unsigned 32-bit powers of variables. An integer is narrowed to a word only if it is the
value of that word; nothing here wraps. Each narrowing is characterised by the value that the word
denotes.
-/

namespace SchoolAlgebra.Word

/-- The signed 64-bit word of value `z`. -/
def int64? (z : Int) : Option Int64 :=
  if Int64.minValue.toInt ≤ z ∧ z ≤ Int64.maxValue.toInt then some (Int64.ofInt z) else none

/-- The unsigned 64-bit word of value `n`. -/
def uint64? (n : Nat) : Option UInt64 :=
  if n < UInt64.size then some (UInt64.ofNat n) else none

/-- The unsigned 32-bit word of value `n`. -/
def uint32? (n : Nat) : Option UInt32 :=
  if n < UInt32.size then some (UInt32.ofNat n) else none

theorem int64?_eq_some_iff {z : Int} {v : Int64} : int64? z = some v ↔ v.toInt = z := by
  have hmin : Int64.minValue.toInt = -9223372036854775808 := rfl
  have hmax : Int64.maxValue.toInt = 9223372036854775807 := rfl
  have hlo := v.minValue_le_toInt
  have hhi := v.toInt_le
  unfold int64?
  split
  · rename_i h
    rw [Option.some.injEq]
    constructor
    · rintro rfl
      exact Int64.toInt_ofInt_of_le (by omega) (by omega)
    · rintro rfl
      exact Int64.ofInt_toInt v
  · rename_i h
    constructor
    · simp
    · rintro rfl
      exact absurd ⟨hlo, hhi⟩ h

theorem uint64?_eq_some_iff {n : Nat} {v : UInt64} : uint64? n = some v ↔ v.toNat = n := by
  unfold uint64?
  split
  · rename_i h
    rw [Option.some.injEq]
    constructor
    · rintro rfl
      exact UInt64.toNat_ofNat_of_lt' h
    · rintro rfl
      exact UInt64.ofNat_toNat
  · rename_i h
    constructor
    · simp
    · rintro rfl
      exact absurd v.toNat_lt_size h

theorem uint32?_eq_some_iff {n : Nat} {v : UInt32} : uint32? n = some v ↔ v.toNat = n := by
  unfold uint32?
  split
  · rename_i h
    rw [Option.some.injEq]
    constructor
    · rintro rfl
      exact UInt32.toNat_ofNat_of_lt' h
    · rintro rfl
      exact UInt32.ofNat_toNat
  · rename_i h
    constructor
    · simp
    · rintro rfl
      exact absurd v.toNat_lt_size h

@[simp] theorem int64?_toInt (v : Int64) : int64? v.toInt = some v :=
  int64?_eq_some_iff.2 rfl

@[simp] theorem uint64?_toNat (v : UInt64) : uint64? v.toNat = some v :=
  uint64?_eq_some_iff.2 rfl

/--
The word of value `b ^ n`. A base of magnitude two or more leaves the words by its sixty-fourth
power, so no power beyond that is formed.
-/
def pow? (b : Int64) (n : Nat) : Option Int64 :=
  if n = 0 then some 1
  else if b.toInt.natAbs ≤ 1 then some (if n % 2 = 0 then b * b else b)
  else if n < 64 then
    let magnitude : Nat := Nat.pow b.toInt.natAbs n
    int64? (if b < 0 ∧ n % 2 = 1 then -(magnitude : Int) else magnitude)
  else none

end SchoolAlgebra.Word
