import Mathlib
import SchoolAlgebra.Equation
import SchoolAlgebra.Proofs.Grammar.Agreement
import SchoolAlgebra.Proofs.Token.Respelling

/-!
# Readings of respelled texts

What is read from a text depends on the kinds of its tokens only, save the token that an error
quotes. So neither blanks between the tokens nor the glyphs of the symbols make a difference.
-/

namespace SchoolAlgebra

/-- The error without the token that it quotes. -/
def ParseError.unplaced : ParseError → ParseError
  | .unexpectedToken _ _ => .unexpectedToken "" 0
  | error => error

namespace Grammar

variable {alike : Token → Token → Prop} {tokens tokens' : List Token}

theorem SameFault.unplaced_eq {e e' : ParseError} (h : SameFault alike e e') :
    e.unplaced = e'.unplaced := by
  cases h <;> rfl

/-- An error that is one with another in either order is the other, up to what it quotes. -/
theorem unplaced_eq_of_sameFault {e e' : ParseError}
    (h : SameFault alike e e' ∨ SameFault alike e' e) : e.unplaced = e'.unplaced :=
  h.elim SameFault.unplaced_eq fun h' ↦ h'.unplaced_eq.symm

theorem forall₂_sameKind (h : tokens.map (·.kind) = tokens'.map (·.kind)) :
    List.Forall₂ (SameKind fun _ _ ↦ True) tokens tokens' := by
  rw [← List.forall₂_eq_eq_eq, List.forall₂_map_left_iff, List.forall₂_map_right_iff] at h
  exact h.imp fun t t' hkind ↦ ⟨hkind, trivial⟩

end Grammar

namespace Expr

/-- An expression depends on the kinds of the tokens that make it up. -/
theorem ofTokens_unplaced {tokens tokens' : List Token}
    (h : tokens.map (·.kind) = tokens'.map (·.kind)) (algebraic : Bool) (strictness : Strictness)
    (limit : Nat) :
    (ofTokens algebraic strictness limit tokens).mapError ParseError.unplaced =
      (ofTokens algebraic strictness limit tokens').mapError ParseError.unplaced := by
  have hagree := agree_ofTokensLenient algebraic (le_refl limit) (Grammar.forall₂_sameKind h)
  have hagree' := agree_ofTokensLenient algebraic (le_refl limit) (Grammar.forall₂_sameKind h.symm)
  exact Grammar.mapError_bind (hagree.mapError_eq hagree' (fun _ _ hrelated ↦ hrelated.1)
    fun _ _ ↦ Grammar.unplaced_eq_of_sameFault) fun _ ↦ rfl

end Expr

namespace Equation

open Grammar (SameKind Agree)

variable {alike : Token → Token → Prop} {tokens tokens' : List Token}

theorem forall₂_span {condition : Token → Bool}
    (hcondition : ∀ t t', t.kind = t'.kind → condition t = condition t')
    (h : List.Forall₂ (SameKind alike) tokens tokens') :
    List.Forall₂ (SameKind alike) (tokens.takeWhile condition) (tokens'.takeWhile condition) ∧
      List.Forall₂ (SameKind alike) (tokens.dropWhile condition)
        (tokens'.dropWhile condition) := by
  induction h with
  | nil => exact ⟨.nil, .nil⟩
  | @cons t t' rest rest' htoken hrest ih =>
    have heq := hcondition t t' htoken.1
    cases ht : condition t with
    | true =>
      rw [List.takeWhile_cons_of_pos ht, List.dropWhile_cons_of_pos ht,
        List.takeWhile_cons_of_pos (heq ▸ ht), List.dropWhile_cons_of_pos (heq ▸ ht)]
      exact ⟨.cons htoken ih.1, ih.2⟩
    | false =>
      have hnot : ¬condition t = true := by rw [ht]; exact Bool.false_ne_true
      rw [List.takeWhile_cons_of_neg hnot, List.dropWhile_cons_of_neg hnot,
        List.takeWhile_cons_of_neg (heq ▸ hnot), List.dropWhile_cons_of_neg (heq ▸ hnot)]
      exact ⟨.nil, .cons htoken hrest⟩

theorem any_isEquals_eq (h : List.Forall₂ (SameKind alike) tokens tokens') :
    tokens'.any isEquals = tokens.any isEquals := by
  induction h with
  | nil => rfl
  | cons htoken _ ih => rw [List.any_cons, List.any_cons, ih, isEquals, isEquals, htoken.1]

/-- Tokens of the same kinds are parted at the same equals sign. -/
theorem agree_sides (h : List.Forall₂ (SameKind alike) tokens tokens') :
    Agree alike (fun parts parts' ↦ List.Forall₂ (SameKind alike) parts.1 parts'.1 ∧
      List.Forall₂ (SameKind alike) parts.2 parts'.2) (sides tokens) (sides tokens') := by
  have hequals : ∀ t t' : Token, t.kind = t'.kind → (!isEquals t) = !isEquals t' := by
    intro t t' hkind
    rw [isEquals, isEquals, hkind]
  obtain ⟨hbefore, hafter⟩ := forall₂_span hequals h
  simp only [sides, Grammar.isEmpty_eq_of_forall₂ h, Grammar.isEmpty_eq_of_forall₂ hbefore]
  generalize tokens.dropWhile _ = fromEquals at hafter ⊢
  generalize tokens'.dropWhile _ = fromEquals' at hafter ⊢
  split
  · exact .error (.same rfl)
  · cases hafter with
    | nil => exact Grammar.agree_violation _
    | cons _ hafter =>
      dsimp only
      rw [any_isEquals_eq hafter, Grammar.isEmpty_eq_of_forall₂ hafter]
      split
      · exact Grammar.agree_violation _
      · split
        · exact Grammar.agree_violation _
        · exact .ok ⟨hbefore, hafter⟩

/-- An equation depends on the kinds of the tokens of its text. -/
theorem ofText_unplaced {names : List String} {text text' : String}
    (h : (Token.scan names text).map (·.kind) = (Token.scan names text').map (·.kind))
    (strictness : Strictness) :
    (ofText names strictness text).mapError ParseError.unplaced =
      (ofText names strictness text').mapError ParseError.unplaced := by
  have hsides := agree_sides (Grammar.forall₂_sameKind h)
  have hsides' := agree_sides (Grammar.forall₂_sameKind h.symm)
  rw [ofText, ofText]
  rcases hsides.exists_sameFault hsides' with
    ⟨parts, parts', hparts, hparts', hbefore, hafter⟩ | ⟨e, e', he, he', hfault⟩
  · have hlhs := Expr.ofTokens_unplaced (Grammar.map_kind_eq hbefore) true strictness defaultNesting
    have hrhs := Expr.ofTokens_unplaced (Grammar.map_kind_eq hafter) true strictness defaultNesting
    rw [hparts, hparts']
    refine Grammar.mapError_bind (x := Expr.ofTokens true strictness defaultNesting parts.1) hlhs
      fun lhs ↦ ?_
    exact Grammar.mapError_bind (x := Expr.ofTokens true strictness defaultNesting parts.2) hrhs
      fun rhs ↦ rfl
  · rw [he, he']
    exact congrArg Except.error (Grammar.unplaced_eq_of_sameFault hfault)

end Equation

/--
Blanks and glyphs make no difference. If no name starts like the name of the square root, then a
text keeps the kinds of its tokens when blanks are put in around any of them and symbols are written
with other glyphs. So it is read as the same expression or equation, or fails for the same reason,
up to the token that the error quotes.
-/
theorem Expr.ofText_of_isRespelled {names : List String} {text text' : String}
    (hroot : ∀ name ∈ names, ¬Token.rootName.toList <+: name.toList)
    (h : Token.IsRespelled (Token.scan names text) text.toList text'.toList) :
    (Token.scan names text').map (·.kind) = (Token.scan names text).map (·.kind) ∧
    (∀ language strictness limit, language.names = names →
      (ofText language strictness limit text').mapError ParseError.unplaced =
        (ofText language strictness limit text).mapError ParseError.unplaced) ∧
    ∀ strictness, (Equation.ofText names strictness text').mapError ParseError.unplaced =
      (Equation.ofText names strictness text).mapError ParseError.unplaced := by
  have hkinds : (Token.scan names text').map (·.kind) = (Token.scan names text).map (·.kind) :=
    Token.kinds_of_isRespelled hroot h rfl
  refine ⟨hkinds, fun language strictness limit hnames ↦ ?_, Equation.ofText_unplaced hkinds⟩
  rw [ofText, ofText, hnames]
  exact ofTokens_unplaced hkinds _ _ _

/--
The run of letters in `2xsqrt(y)-3` may be parted, and the minus sign written with its other glyph;
the text is still read as `2 * x * √y - 3`.
-/
theorem Expr.ofText_of_isRespelled_root :
    (∀ name ∈ ["x", "y"], ¬Token.rootName.toList <+: name.toList) ∧
    Token.IsRespelled (Token.scan ["x", "y"] "2xsqrt(y)-3") "2xsqrt(y)-3".toList
      " 2 x\u2009sqrt (y)−3\n".toList ∧
    (ofText (.algebraic ["x", "y"]) .lenient 100 " 2 x\u2009sqrt (y)−3\n").mapError
      ParseError.unplaced = .ok
        (sub (mul (mul (constant (.integer 2)) (var "x")) (sqrt (var "y")))
          (constant (.integer 3))) := by
  have hroot : ∀ name ∈ ["x", "y"], ¬Token.rootName.toList <+: name.toList := by decide +kernel
  have hread : ofText (.algebraic ["x", "y"]) .lenient 100 "2xsqrt(y)-3" = .ok
      (sub (mul (mul (constant (.integer 2)) (var "x")) (sqrt (var "y")))
        (constant (.integer 3))) := by decide +kernel
  have hscan : Token.scan ["x", "y"] "2xsqrt(y)-3" =
      [⟨.integer 2, 0, ['2']⟩, ⟨.name "x", 1, ['x']⟩,
        ⟨.function "sqrt", 2, ['s', 'q', 'r', 't']⟩, ⟨.leftParen, 6, ['(']⟩, ⟨.name "y", 7, ['y']⟩,
        ⟨.rightParen, 8, [')']⟩, ⟨.minus, 9, ['-']⟩, ⟨.integer 3, 10, ['3']⟩] := by decide +kernel
  have hchars : "2xsqrt(y)-3".toList =
      ['2', 'x', 's', 'q', 'r', 't', '(', 'y', ')', '-', '3'] := by decide +kernel
  have hchars' : " 2 x\u2009sqrt (y)−3\n".toList =
      [' ', '2', ' ', 'x', '\u2009', 's', 'q', 'r', 't', ' ', '(', 'y', ')', '−', '3', '\n'] := by
    decide +kernel
  have hspace : Text.isBlank ' ' = true := by decide
  have hrespelled : Token.IsRespelled (Token.scan ["x", "y"] "2xsqrt(y)-3") "2xsqrt(y)-3".toList
      " 2 x\u2009sqrt (y)−3\n".toList := by
    rw [hscan, hchars, hchars']
    have hminus : List.Forall₂ Token.SameGlyph ['-'] ['−'] := .cons (.symbol rfl rfl) .nil
    refine .addBlank hspace (.keepToken _ ?_)
    refine .addBlank hspace (.keepToken _ ?_)
    refine .addBlank (by decide) (.keepToken _ ?_)
    refine .addBlank hspace (.keepToken _ (.keepToken _ (.keepToken _ ?_)))
    exact @Token.IsRespelled.token _ ['−'] _ _ _ hminus
      (.keepToken _ (.addBlank (by decide) .nil))
  refine ⟨hroot, hrespelled, ?_⟩
  rw [(ofText_of_isRespelled hroot hrespelled).2.1 (.algebraic ["x", "y"]) _ _ rfl, hread]
  rfl

end SchoolAlgebra
