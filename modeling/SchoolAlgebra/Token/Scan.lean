import SchoolAlgebra.Number.Word
import SchoolAlgebra.Token.Basic

/-!
# From texts to tokens

A numeral or a symbol is one token. A run of letters is one if it is an allowed name as a whole;
otherwise names are peeled off its front, the name of the square root before any other and then the
longest allowed name. Letters from which no name can be peeled stay together, as the name of a
function if a parenthesis follows the run.
-/

namespace SchoolAlgebra.Token

/-- The name of the square root. -/
def rootName : String := "sqrt"

/-- The longest allowed name at the start of the letters; an empty name is none. -/
def longestName? (letters : List Char) : List String → Option String
  | [] => none
  | name :: others =>
    let best := longestName? letters others
    if name.toList.isPrefixOf letters && name != "" then
      match best with
      | some other => if name.length < other.length then best else some name
      | none => some name
    else best

theorem ne_empty_of_longestName? {letters : List Char} {allowed : List String} {name : String}
    (h : longestName? letters allowed = some name) : name ≠ "" := by
  induction allowed with
  | nil => simp [longestName?] at h
  | cons first others ih =>
    simp only [longestName?] at h
    split at h
    · rename_i hfirst
      have hne : first ≠ "" := by simpa using And.right (by simpa using hfirst)
      split at h
      · split at h
        · rename_i hbest _
          exact ih (hbest.trans (by simpa [hbest] using h))
        · exact Option.some.inj h ▸ hne
      · exact Option.some.inj h ▸ hne
    · exact ih h

/-- What the front of the letters stands for, and how many of them it takes. -/
def peel (allowed : List String) (beforeParen : Bool) (letters : List Char) : Kind × Nat :=
  if rootName.toList.isPrefixOf letters then (.function rootName, rootName.length)
  else
    match longestName? letters allowed with
    | some name => (.name name, name.length)
    | none =>
      let whole := String.ofList letters
      (if beforeParen then .function whole else .unresolved whole, letters.length)

theorem peel_pos (allowed : List String) (beforeParen : Bool) (c : Char) (rest : List Char) :
    0 < (peel allowed beforeParen (c :: rest)).2 := by
  unfold peel
  split
  · decide
  · split
    · rename_i hname
      have hne := ne_empty_of_longestName? hname
      simpa [Nat.pos_iff_ne_zero] using hne
    · simp

/-- The pieces of letters that are no name as a whole, peeled from the front. -/
def peelAll (allowed : List String) (beforeParen : Bool) (start : Nat) (letters : List Char) :
    List Token :=
  match letters with
  | [] => []
  | c :: rest =>
    let piece := peel allowed beforeParen (c :: rest)
    let chars := (c :: rest).take piece.2
    ⟨piece.1, start, chars⟩ ::
      peelAll allowed beforeParen (start + Text.byteLength chars) ((c :: rest).drop piece.2)
termination_by letters.length
decreasing_by
  have := peel_pos allowed beforeParen c rest
  simp only [List.length_drop, List.length_cons]
  omega

/-- The tokens of a run of letters. -/
def ofLetters (allowed : List String) (beforeParen : Bool) (run : Lexeme) : List Token :=
  let whole := String.ofList run.chars
  if whole ∈ allowed then [⟨.name whole, run.start, run.chars⟩]
  else peelAll allowed beforeParen run.start run.chars

/-- The kind of a numeral. One with a point is rounded; one without has to fit a word. -/
def kindOfNumeral (chars : List Char) : Kind :=
  match chars.dropWhile Decimal.isDigit with
  | _ :: fractional =>
    .real ((Decimal.ofDigits (chars.takeWhile Decimal.isDigit) fractional).toFloat false)
  | [] => ((Word.int64? (Decimal.natOfDigits chars)).map .integer).getD .integerTooLarge

/-- The tokens of a lexeme. -/
def ofLexeme (allowed : List String) (beforeParen : Bool) (lexeme : Lexeme) : List Token :=
  match lexeme.chars with
  | [] => []
  | c :: _ =>
    if Text.isLetter c then ofLetters allowed beforeParen lexeme
    else if Decimal.isDigit c then [⟨kindOfNumeral lexeme.chars, lexeme.start, lexeme.chars⟩]
    else [⟨(Kind.ofSymbol? c).getD (.invalid c), lexeme.start, lexeme.chars⟩]

/-- The tokens of a sequence of lexemes. -/
def ofLexemes (allowed : List String) : List Lexeme → List Token
  | [] => []
  | lexeme :: rest =>
    let beforeParen := (rest.head?.map (·.chars == ['('])).getD false
    ofLexeme allowed beforeParen lexeme ++ ofLexemes allowed rest

/-- The tokens of a text in which the allowed names are variables. -/
def scan (allowed : List String) (text : String) : List Token :=
  ofLexemes allowed (Lexeme.scan 0 text.toList)

end SchoolAlgebra.Token
