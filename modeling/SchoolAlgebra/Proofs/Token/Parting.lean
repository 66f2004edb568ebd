import Mathlib
import SchoolAlgebra.Proofs.Token.Front

/-!
# Texts in parts

A text may be cut where neither a run of letters nor a numeral goes on. The parts then have the
tokens that they have on their own, save that those of the second part start later. What follows the
first part makes no difference, unless it opens a parenthesis.
-/

namespace SchoolAlgebra

open Token (isNumeric opensParen)

namespace Lexeme

variable {as bs : List Char}

/-- Whether neither a run of letters nor a numeral may go on from one text to the other. -/
def IsParted (as bs : List Char) : Prop :=
  ∀ a ∈ as.getLast?, ∀ b ∈ bs.head?,
    (Text.isLetter a && Text.isLetter b) = false ∧ (isNumeric a && isNumeric b) = false

/-- A text is parted before a character that goes on with no letters and no numeral. -/
theorem isParted_cons {b : Char} (hletter : Text.isLetter b = false)
    (hnumeric : isNumeric b = false) : IsParted as (b :: bs) := by
  intro a _ c hc
  obtain rfl : b = c := Option.some.inj hc
  exact ⟨by rw [hletter, Bool.and_false], by rw [hnumeric, Bool.and_false]⟩

theorem IsParted.drop (h : IsParted as bs) (n : ℕ) : IsParted (as.drop n) bs := by
  intro a ha
  rw [List.getLast?_drop] at ha
  split at ha
  · cases ha
  · exact h a ha

/-- A run that goes on from no text to the other ends where it ends in the first one. -/
theorem takeWhile_append_of_getLast? {condition : Char → Bool} (hne : as ≠ [])
    (h : ∀ a ∈ as.getLast?, ∀ b ∈ bs.head?, (condition a && condition b) = false) :
    (as ++ bs).takeWhile condition = as.takeWhile condition := by
  by_cases hall : ∀ a ∈ as, condition a = true
  · have hrest : ∀ b ∈ bs.head?, condition b = false := by
      intro b hb
      have hlast := h _ (List.getLast?_eq_some_getLast hne) b hb
      rwa [hall _ (List.getLast_mem hne), Bool.true_and] at hlast
    rw [Token.takeWhile_append_boundary hall hrest, List.takeWhile_eq_self_iff.2 hall]
  · have hshorter : (as.takeWhile condition).length ≠ as.length := by
      intro hlength
      refine hall (List.takeWhile_eq_self_iff.1 ?_)
      exact (List.takeWhile_prefix condition).eq_of_length hlength
    rw [List.takeWhile_append, if_neg hshorter]

theorem extent_append (hne : as ≠ []) (h : IsParted as bs) : extent (as ++ bs) = extent as := by
  have hletters := takeWhile_append_of_getLast? hne fun a ha b hb ↦ (h a ha b hb).1
  have hnumerals := takeWhile_append_of_getLast? hne fun a ha b hb ↦ (h a ha b hb).2
  have hlength : numeralLength (as ++ bs) = numeralLength as := by
    rw [← Token.numeralLength_takeWhile, hnumerals, Token.numeralLength_takeWhile]
  obtain ⟨c, as, rfl⟩ := List.exists_cons_of_ne_nil hne
  rw [List.cons_append] at hletters hlength ⊢
  rw [extent, extent, hletters, hlength]

theorem extent_le (c : Char) (rest : List Char) : extent (c :: rest) ≤ (c :: rest).length := by
  rw [extent]
  split
  · exact (List.takeWhile_prefix _).length_le
  · split
    · exact Token.numeralLength_le _
    · exact Nat.le_add_left 1 rest.length

/-- The lexemes of a text in two parts are those of the parts. -/
theorem scan_append_of_isParted (h : IsParted as bs) (start : ℕ) :
    scan start (as ++ bs) = scan start as ++ scan (start + Text.byteLength as) bs := by
  induction hn : as.length using Nat.strong_induction_on generalizing start as with
  | _ n ih =>
    subst hn
    cases as with
    | nil =>
      conv_rhs => rw [scan]
      rfl
    | cons c rest =>
      cases hblank : Text.isBlank c with
      | true =>
        rw [List.cons_append, scan_blank hblank, scan_blank hblank, Text.byteLength_cons,
          ← Nat.add_assoc]
        exact ih _ (Nat.lt_succ_self _) (h.drop 1) _ rfl
      | false =>
        have hle := extent_le c rest
        have hextent := extent_append (List.cons_ne_nil c rest) h
        have hparts := ih _ (Token.length_drop_lt (extent_pos c rest) c rest) (h.drop _)
          (start + Text.byteLength ((c :: rest).take (extent (c :: rest)))) rfl
        rw [Nat.add_assoc, ← Text.byteLength_append, List.take_append_drop] at hparts
        rw [List.cons_append, scan_cons hblank, scan_cons hblank, ← List.cons_append, hextent,
          List.take_append_of_le_length hle, List.drop_append_of_le_length hle, hparts,
          List.cons_append]

/-- The lexeme of a text that starts by so many bytes later. -/
def shift (n : ℕ) (lexeme : Lexeme) : Lexeme := { lexeme with start := lexeme.start + n }

theorem scan_add (n start : ℕ) (cs : List Char) :
    scan (start + n) cs = (scan start cs).map (shift n) := by
  fun_induction scan start cs with
  | case1 => rw [scan]; rfl
  | case2 start c rest hblank ih => rw [scan_blank hblank, Nat.add_right_comm, ih]
  | case3 start c rest hblank chars ih =>
    rw [scan, if_neg hblank, List.map_cons, ← ih, Nat.add_right_comm]
    rfl

end Lexeme

namespace Token

open Lexeme (IsParted)

variable {allowed : List String} {as bs : List Char} {start : ℕ}

theorem ofLexemes_append {lexemes others : List Lexeme}
    (h : (others.head?.map (·.chars == ['('])).getD false = false) :
    ofLexemes allowed (lexemes ++ others) =
      ofLexemes allowed lexemes ++ ofLexemes allowed others := by
  induction lexemes with
  | nil => rfl
  | cons lexeme lexemes ih =>
    rw [List.cons_append, ofLexemes, ofLexemes, ih, List.append_assoc]
    cases lexemes with
    | nil =>
      rw [List.nil_append, h]
      rfl
    | cons => rfl

/-- The tokens of a text in two parts are those of the parts. -/
theorem tokensFrom_append_of_isParted (h : IsParted as bs) (hparen : opensParen bs = false) :
    tokensFrom allowed start (as ++ bs) =
      tokensFrom allowed start as ++ tokensFrom allowed (start + Text.byteLength as) bs := by
  rw [tokensFrom, Lexeme.scan_append_of_isParted h, ofLexemes_append]
  · rfl
  · rw [isParen_head?_scan, hparen]

/-- The token of a text that starts by so many bytes later. -/
def shift (n : ℕ) (token : Token) : Token := { token with start := token.start + n }

theorem peelAll_add (n : ℕ) (beforeParen : Bool) (start : ℕ) (letters : List Char) :
    peelAll allowed beforeParen (start + n) letters =
      (peelAll allowed beforeParen start letters).map (shift n) := by
  fun_induction peelAll allowed beforeParen start letters with
  | case1 => rw [peelAll]; rfl
  | case2 start c rest piece chars ih =>
    rw [peelAll_cons, List.map_cons, ← ih, Nat.add_right_comm]
    rfl

theorem ofLexeme_shift (n : ℕ) (beforeParen : Bool) (lexeme : Lexeme) :
    ofLexeme allowed beforeParen (lexeme.shift n) =
      (ofLexeme allowed beforeParen lexeme).map (shift n) := by
  obtain ⟨start, chars⟩ := lexeme
  cases chars with
  | nil => rfl
  | cons c rest =>
    rw [Lexeme.shift, ofLexeme, ofLexeme]
    dsimp only
    split
    · rw [ofLetters, ofLetters]
      split
      · rfl
      · exact peelAll_add n beforeParen start _
    · split <;> rfl

theorem ofLexemes_shift (n : ℕ) (lexemes : List Lexeme) :
    ofLexemes allowed (lexemes.map (·.shift n)) = (ofLexemes allowed lexemes).map (shift n) := by
  induction lexemes with
  | nil => rfl
  | cons lexeme lexemes ih =>
    rw [List.map_cons, ofLexemes, ofLexemes, List.map_append, ih, ofLexeme_shift]
    cases lexemes <;> rfl

/-- A text that starts later has its tokens later. -/
theorem tokensFrom_add (n start : ℕ) (cs : List Char) :
    tokensFrom allowed (start + n) cs = (tokensFrom allowed start cs).map (shift n) := by
  rw [tokensFrom, Lexeme.scan_add]
  exact ofLexemes_shift n _

end Token

end SchoolAlgebra
