/-!
# Blank characters and letters

The classes of characters on which the readers of this library agree. Blanks between tokens are the
characters with the property White_Space of Unicode. Letters of names are those of ASCII.
-/

namespace SchoolAlgebra.Text

/-- The code points with the property White_Space, as closed ranges. -/
def blankRanges : List (Nat × Nat) :=
  [(0x9, 0xD), (0x20, 0x20), (0x85, 0x85), (0xA0, 0xA0), (0x1680, 0x1680), (0x2000, 0x200A),
    (0x2028, 0x2029), (0x202F, 0x202F), (0x205F, 0x205F), (0x3000, 0x3000)]

/-- Whether the character is blank. -/
def isBlank (c : Char) : Bool :=
  blankRanges.any fun r ↦ decide (r.1 ≤ c.toNat ∧ c.toNat ≤ r.2)

/-- Whether the character is one of the ASCII letters. -/
def isLetter (c : Char) : Bool :=
  decide ('a' ≤ c ∧ c ≤ 'z' ∨ 'A' ≤ c ∧ c ≤ 'Z')

end SchoolAlgebra.Text
