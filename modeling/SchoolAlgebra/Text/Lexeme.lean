import SchoolAlgebra.Number.Decimal
import SchoolAlgebra.Text.Blank

/-!
# Lexemes

A text is cut into lexemes before any of them is given a meaning: a run of letters, a numeral, or a
single character. Blanks part lexemes and belong to none. Each lexeme knows the byte offset at which
it starts.
-/

namespace SchoolAlgebra

namespace Text

/-- The number of bytes of the characters in UTF-8. -/
def byteLength (cs : List Char) : Nat := cs.foldr (fun c n ↦ c.utf8Size + n) 0

@[simp] theorem byteLength_nil : byteLength [] = 0 := rfl

@[simp] theorem byteLength_cons (c : Char) (cs : List Char) :
    byteLength (c :: cs) = c.utf8Size + byteLength cs := rfl

@[simp] theorem byteLength_append (as bs : List Char) :
    byteLength (as ++ bs) = byteLength as + byteLength bs := by
  induction as with
  | nil => simp
  | cons a as ih => simp [ih, Nat.add_assoc]

end Text

/-- Characters that are read together, and the byte offset of the first. -/
structure Lexeme where
  start : Nat
  chars : List Char
deriving DecidableEq, Repr

namespace Lexeme

/--
The length of the numeral at the start of the text: digits, and a point with digits after it if one
follows.
-/
def numeralLength (cs : List Char) : Nat :=
  let whole := (cs.takeWhile Decimal.isDigit).length
  match cs.drop whole with
  | '.' :: rest =>
    let fractional := (rest.takeWhile Decimal.isDigit).length
    if fractional = 0 then whole else whole + 1 + fractional
  | _ => whole

/-- The length of the lexeme at the start of a text that does not start with a blank. -/
def extent : List Char → Nat
  | [] => 0
  | c :: rest =>
    if Text.isLetter c then ((c :: rest).takeWhile Text.isLetter).length
    else if Decimal.isDigit c then numeralLength (c :: rest)
    else 1

theorem extent_pos (c : Char) (rest : List Char) : 0 < extent (c :: rest) := by
  simp only [extent]
  split
  · rename_i h
    simp [h]
  · split
    · rename_i h
      have hwhole : 0 < ((c :: rest).takeWhile Decimal.isDigit).length := by
        simp [h]
      simp only [numeralLength]
      split
      · split <;> omega
      · exact hwhole
    · exact Nat.one_pos

/-- The lexemes of a text that starts at the given byte offset. -/
def scan (start : Nat) (cs : List Char) : List Lexeme :=
  match cs with
  | [] => []
  | c :: rest =>
    if Text.isBlank c then scan (start + c.utf8Size) rest
    else
      let chars := (c :: rest).take (extent (c :: rest))
      ⟨start, chars⟩ :: scan (start + Text.byteLength chars) ((c :: rest).drop (extent (c :: rest)))
termination_by cs.length
decreasing_by
  · simp
  · have := extent_pos c rest
    simp only [List.length_drop, List.length_cons]
    omega

end Lexeme

end SchoolAlgebra
