/-!
# Exact roots

The floor of an `n`-th root is found bit by bit from the top. A natural number has an exact root if
the power of that floor gives it back, and a rational in lowest terms if both its parts have one.
-/

namespace SchoolAlgebra.Root

/--
The greatest number of the form `r + s` with `s < 2 ^ bits` whose `n`-th power is at most `x`,
provided that of `r` is.
-/
def extend (n x : Nat) : (bits r : Nat) → Nat
  | 0, r => r
  | bits + 1, r =>
    let candidate := r + 1 <<< bits
    extend n x bits (if Nat.pow candidate n ≤ x then candidate else r)

/-- The floor of the `n`-th root of `x`, for `n` at least one. -/
def floor (n x : Nat) : Nat := extend n x (x.log2 / n + 1) 0

/--
The natural number whose `n`-th power is `x`. Strictly between the powers of one and two there is
none, so a root of high order is never formed.
-/
def ofNat? (n x : Nat) : Option Nat :=
  if x ≤ 1 then some x
  else if x.log2 < n then none
  else
    let r := floor n x
    if Nat.pow r n = x then some r else none

/-- The rational of the sign of `q` whose `n`-th power is `q` up to sign. -/
def ofRat? (n : Nat) (q : Rat) : Option Rat := do
  let numerator ← ofNat? n q.num.natAbs
  let denominator ← ofNat? n q.den
  return mkRat (if q.num < 0 then -(numerator : Int) else numerator) denominator

end SchoolAlgebra.Root
