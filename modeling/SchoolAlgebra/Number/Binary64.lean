/-!
# Rounding to binary64 and the total order of its values

A finite double is an integer multiple of `2 ^ -1074`. The bit patterns of the non-negative doubles
stand in the order of their values, and the doubles of one binade stand at equal distances. So the
pattern nearest to a quotient is the number of patterns below its binade plus a rounded quotient,
and no case distinction between normal, subnormal and overflowing results is left.

Integers, fractions and decimals are all turned into doubles by `ofQuotient`.
-/

namespace SchoolAlgebra.Binary64

/-- The integer nearest to `a / d`; a half goes to the even neighbour. -/
def roundHalfEven (a d : Nat) : Nat :=
  let q := a / d
  let r := a % d
  if 2 * r < d then q
  else if d < 2 * r then q + 1
  else q + q % 2

/-- The number of patterns in a binade. -/
def binade : Nat := 0x10000000000000

/-- The pattern of positive infinity, just above the largest finite double. -/
def infinityPattern : Nat := 2047 * binade

/--
The exponent `p` for which doubles near `a / d` units stand `2 ^ p` units apart: the least one that
leaves the quotient below `2 ^ 53`.
-/
def spacing (a d : Nat) : Nat := (a / d).log2 - 52

/-- The pattern of the double nearest to `a / d` units of `2 ^ -1074`, ties to even. -/
def magnitudePattern (a d : Nat) : Nat :=
  let p := spacing a d
  min infinityPattern (p * binade + roundHalfEven a (d <<< p))

/-- The weight of the sign bit in a pattern. -/
def signWeight : Nat := 0x8000000000000000

/-- The double nearest to `a / d`, negated if `negative`. Past the largest double it is infinite. -/
def ofQuotient (negative : Bool) (a d : Nat) : Float :=
  let magnitude := magnitudePattern (a <<< 1074) d
  .ofBits (.ofNat (if negative then signWeight + magnitude else magnitude))

/-- The double nearest to a rational. -/
def ofRat (q : Rat) : Float :=
  ofQuotient (decide (q.num < 0)) q.num.natAbs q.den

/-- The double nearest to an integer. -/
def ofInt (z : Int) : Float :=
  ofQuotient (decide (z < 0)) z.natAbs 1

/-- The pattern of the magnitude of `x`. -/
def pattern (x : Float) : Nat := x.toBits.toNat % signWeight

/-- Whether the sign bit of `x` is set; negative zero has it set. -/
def hasSignBit (x : Float) : Bool := decide (signWeight ≤ x.toBits.toNat)

/-- The magnitude of a finite double in units of `2 ^ -1074`. -/
def units (x : Float) : Nat :=
  let e := pattern x / binade
  let f := pattern x % binade
  if e = 0 then f else (binade + f) <<< (e - 1)

/--
The place of `x` in the total order of doubles: negative zero stands just below zero, and NaN above
infinity. There is one NaN, without the sign bit. One with it, which would stand below minus
infinity, is not represented.
-/
def rank (x : Float) : Int :=
  if hasSignBit x then -(pattern x : Int) - 1 else pattern x

/-- The total order of doubles by `rank`. It separates all bit patterns. -/
def totalCompare (x y : Float) : Ordering := compare (rank x) (rank y)

/--
The power `x ^ n` by repeated squaring of `x`, from the lowest binary digit of `n` up. A negative
power is the reciprocal of the positive one.
-/
def powWhole (x : Float) (n : Int) : Float :=
  let magnitude := go 1 x n.natAbs
  if n < 0 then 1 / magnitude else magnitude
where
  /-- The product of `acc` and `x ^ n`. -/
  go (acc x : Float) (n : Nat) : Float :=
    let acc := if n % 2 = 1 then acc * x else acc
    if n / 2 = 0 then acc else go acc (x * x) (n / 2)

end SchoolAlgebra.Binary64
