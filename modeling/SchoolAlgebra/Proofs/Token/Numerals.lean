import Mathlib
import SchoolAlgebra.Proofs.Number.ShortestNumeral
import SchoolAlgebra.Proofs.Token.Coverage

/-!
# Numerals of doubles

A numeral is one token before every boundary. The text of a finite double without a sign is a
numeral: of the double itself, or of an integer if the double is whole.
-/

namespace SchoolAlgebra

open Binary64 (IsFiniteUnsigned IsWhole)

namespace Token

variable {allowed : List String} {c : Char} {cs ds fs rest : List Char}

theorem IsNumeral.ne_nil (h : IsNumeral cs) : cs ≠ [] := by
  cases h with
  | whole hne => exact hne
  | decimal hne => exact List.append_ne_nil_of_left_ne_nil hne _

/-- A numeral starts with a digit. -/
theorem IsNumeral.isDigit_head (h : IsNumeral (c :: cs)) : Decimal.isDigit c = true := by
  generalize hall : c :: cs = all at h
  cases h with
  | whole hne hdigits => exact hdigits c (hall ▸ List.mem_cons_self)
  | @decimal ds fs hne hdigits =>
    cases ds with
    | nil => exact absurd rfl hne
    | cons d ds => exact (List.cons.inj hall).1 ▸ hdigits d List.mem_cons_self

/-- A numeral goes to its end, if no letter, digit or point is behind it. -/
theorem IsNumeral.numeralLength_append (h : IsNumeral cs) (hrest : IsBoundary rest) :
    Lexeme.numeralLength (cs ++ rest) = cs.length := by
  have hnodigit : ∀ d ∈ rest.head?, Decimal.isDigit d = false := fun d hd ↦ (hrest d hd).2.1
  cases h with
  | whole hne hdigits =>
    rw [Lexeme.numeralLength, takeWhile_append_boundary hdigits hnodigit, List.drop_left]
    split
    · exact absurd rfl (hrest '.' rfl).2.2
    · rfl
  | @decimal ds fs hne hdigits hfractional hfractionalDigits =>
    have hpoint : ∀ d ∈ ('.' :: (fs ++ rest)).head?, Decimal.isDigit d = false := by
      intro d hd
      cases hd
      rfl
    rw [List.append_assoc, List.cons_append, Lexeme.numeralLength,
      takeWhile_append_boundary hdigits hpoint, List.drop_left]
    change (if ((fs ++ rest).takeWhile Decimal.isDigit).length = 0 then ds.length
      else ds.length + 1 + ((fs ++ rest).takeWhile Decimal.isDigit).length) = _
    rw [takeWhile_append_boundary hfractionalDigits hnodigit,
      if_neg fun hzero ↦ hfractional (List.length_eq_zero_iff.1 hzero), List.length_append,
      List.length_cons]
    omega

/-- A numeral is written by its characters. -/
theorem IsNumeral.writes (h : IsNumeral cs) : Writes allowed cs [kindOfNumeral cs] := by
  cases cs with
  | nil => exact absurd rfl h.ne_nil
  | cons c cs =>
    have hdigit := h.isDigit_head
    have hletter := Decimal.isLetter_of_isDigit hdigit
    intro start rest hrest
    refine ⟨_, kindsFrom_lexeme start (Decimal.isBlank_of_isDigit hdigit) ?_ ?_⟩
    · rw [List.cons_append, Lexeme.extent, hletter, if_neg Bool.false_ne_true, if_pos hdigit,
        ← List.cons_append, h.numeralLength_append hrest]
    · intro beforeParen start
      simp [ofLexeme, hletter, hdigit]

theorem isNumeral_positional (hne : ds ≠ []) (hdigits : ∀ d ∈ ds, Decimal.isDigit d = true)
    (hfractional : ∀ f ∈ fs, Decimal.isDigit f = true) :
    IsNumeral (Decimal.positional ds fs) := by
  unfold Decimal.positional
  split
  · exact .whole hne hdigits
  · rename_i hpoint
    exact .decimal hne hdigits hpoint hfractional

variable {x : Float}

theorem isNumeral_ofFloat (h : IsFiniteUnsigned x) : IsNumeral (Decimal.ofFloat x).toList := by
  obtain ⟨ds, fs, htext, hne, hdigits, hfractional, -⟩ := Decimal.exists_digits_ofFloat h
  rw [htext, String.toList_ofList]
  exact isNumeral_positional hne hdigits hfractional

/-- The text of a double that is not whole stands for the double. -/
theorem kindOfNumeral_ofFloat (h : IsFiniteUnsigned x) (hwhole : ¬IsWhole x) :
    kindOfNumeral (Decimal.ofFloat x).toList = .real x := by
  obtain ⟨ds, fs, htext, -, hdigits, -, hreads, hiff⟩ := Decimal.exists_digits_ofFloat h
  rw [htext, String.toList_ofList, Decimal.positional, if_neg (mt hiff.2 hwhole),
    kindOfNumeral_decimal hdigits, hreads]

/-- The text of a whole double is that of an integer to which the double is nearest. -/
theorem kindOfNumeral_ofFloat_of_isWhole (h : IsFiniteUnsigned x) (hwhole : IsWhole x) :
    kindOfNumeral (Decimal.ofFloat x).toList =
        ((Word.int64? (Decimal.natOfDigits (Decimal.ofFloat x).toList)).map .integer).getD
          .integerTooLarge ∧
      Binary64.ofInt (Decimal.natOfDigits (Decimal.ofFloat x).toList) = x := by
  obtain ⟨ds, fs, htext, -, hdigits, -, hreads, hiff⟩ := Decimal.exists_digits_ofFloat h
  obtain rfl := hiff.1 hwhole
  rw [Decimal.toFloat_ofDigits_nil] at hreads
  rw [htext, String.toList_ofList, Decimal.positional, if_pos rfl]
  exact ⟨kindOfNumeral_whole hdigits, hreads⟩

end Token

end SchoolAlgebra
