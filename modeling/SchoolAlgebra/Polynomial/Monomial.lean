import SchoolAlgebra.Number.Word
import SchoolAlgebra.Text.Names

/-!
# Monomials

A monomial is a product of powers of variables. In its canonical form the names ascend, each occurs
once, and no power is zero. Powers are 32-bit words, and an operation is absent where a power of its
result exceeds them.

Monomials are ordered lexicographically: an earlier name comes first, then a higher power of the
same name, and a monomial that ends comes after one that goes on.
-/

namespace SchoolAlgebra

/-- A power of a variable. -/
structure VariablePower where
  name : String
  power : UInt32
deriving DecidableEq, Repr

/-- A product of powers of variables. -/
structure Monomial where
  factors : List VariablePower
deriving DecidableEq, Repr

namespace Monomial

/-- The monomial without variables. -/
def one : Monomial := ⟨[]⟩

/-- A variable. -/
def ofName (name : String) : Monomial := ⟨[⟨name, 1⟩]⟩

/-- Whether there are no variables. -/
def isOne (m : Monomial) : Bool := m.factors.isEmpty

/-- The sum of the powers of one name in a list of factors. -/
def exponentIn (factors : List VariablePower) (name : String) : Nat :=
  factors.foldr (fun f n ↦ (if f.name = name then f.power.toNat else 0) + n) 0

/-- The exponent of a variable, which is zero if the variable does not occur. -/
def exponent (m : Monomial) (name : String) : Nat := exponentIn m.factors name

/-- The sum of all powers. -/
def degree (m : Monomial) : Nat := m.factors.foldr (fun f n ↦ f.power.toNat + n) 0

/-- The names of the variables. -/
def names (m : Monomial) : List String := m.factors.map (·.name)

@[simp] theorem exponentIn_nil (name : String) : exponentIn [] name = 0 := rfl

@[simp] theorem exponentIn_cons (f : VariablePower) (factors : List VariablePower)
    (name : String) :
    exponentIn (f :: factors) name =
      (if f.name = name then f.power.toNat else 0) + exponentIn factors name := rfl

@[simp] theorem exponentIn_append (as bs : List VariablePower) (name : String) :
    exponentIn (as ++ bs) name = exponentIn as name + exponentIn bs name := by
  induction as with
  | nil => simp
  | cons a as ih => simp [ih, Nat.add_assoc]

/-- The order of two lists of factors with ascending names. -/
def compareFactors : List VariablePower → List VariablePower → Ordering
  | [], [] => .eq
  | [], _ :: _ => .gt
  | _ :: _, [] => .lt
  | a :: as, b :: bs =>
    (Ord.compare a.name b.name).then
      ((Ord.compare b.power a.power).then (compareFactors as bs))

/-- The order of two monomials. -/
def compare (a b : Monomial) : Ordering := compareFactors a.factors b.factors

/-- The canonical monomial with the given exponents of the given names. -/
def ofExponents? (names : List String) (exponent : String → Nat) : Option Monomial := do
  let factors ← (Text.sortNames names).mapM fun name ↦
    (Word.uint32? (exponent name)).map (VariablePower.mk name)
  return ⟨factors.filter fun f ↦ f.power ≠ 0⟩

/-- The canonical monomial of a list of factors, in any order and with repetitions. -/
def ofFactors? (factors : List VariablePower) : Option Monomial :=
  ofExponents? (factors.map (·.name)) (exponentIn factors)

def mul? (a b : Monomial) : Option Monomial :=
  ofExponents? (a.names ++ b.names) fun name ↦ a.exponent name + b.exponent name

/-- The quotient, unless an exponent of the divisor is the greater one. -/
def div? (a b : Monomial) : Option Monomial :=
  if b.names.all fun name ↦ decide (b.exponent name ≤ a.exponent name) then
    ofExponents? a.names fun name ↦ a.exponent name - b.exponent name
  else none

/-- The power with a whole exponent. -/
def pow? (m : Monomial) (n : Nat) : Option Monomial :=
  ofExponents? m.names fun name ↦ m.exponent name * n

/-- The quotient of an exponent times `p` by `q`, if the product is a word and divides evenly. -/
def scaledExponent? (exponent : Nat) (p q : Int64) : Option Nat := do
  let scaled ← Word.int64? (exponent * p.toInt)
  if 0 ≤ scaled.toInt ∧ q.toInt ∣ scaled.toInt then some (scaled.toInt / q.toInt).toNat else none

/-- The power with the exponent `p / q`, if its exponents are whole. -/
def root? (m : Monomial) (p q : Int64) : Option Monomial :=
  if m.names.all fun name ↦ (scaledExponent? (m.exponent name) p q).isSome then
    ofExponents? m.names fun name ↦ (scaledExponent? (m.exponent name) p q).getD 0
  else none

end Monomial

end SchoolAlgebra
