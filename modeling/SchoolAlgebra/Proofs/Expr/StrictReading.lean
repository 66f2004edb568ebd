import Mathlib
import SchoolAlgebra.Proofs.Expr.Sides
import SchoolAlgebra.Proofs.Grammar.Agreement
import SchoolAlgebra.Proofs.Grammar.Soundness

/-!
# Strict readings

A strict reading is a lenient one that also applies the rules of style. The sides of an equation are
read one after the other, each with its rules of style, so a rule of style that the left side breaks
is reported before a fault of the right side is found.
-/

namespace SchoolAlgebra

/--
Whether one outcome is the other with rules of style on top. Where it reports a rule of style, the
other is no failure, save those that the rule is allowed to hide.
-/
structure IsStricter {α : Type} (hidden : ParseError → Prop)
    (strict lenient : Except ParseError α) : Prop where
  ok : ∀ a, strict = .ok a → lenient = .ok a
  optional : ∀ error, strict = .error error → error.isOptional = true →
    (∃ a, lenient = .ok a) ∨ ∃ error', hidden error' ∧ lenient = .error error'
  required : ∀ error, strict = .error error → error.isOptional = false → lenient = .error error

theorem ParseError.exists_of_isOptional {error : ParseError} (h : error.isOptional = true) :
    ∃ rule, error = .optional rule := by
  cases error with
  | optional rule => exact ⟨rule, rfl⟩
  | _ => cases h

/-- Of two readings in sequence, a rule of style in the first may hide a failure of the other. -/
theorem IsStricter.pair {α β γ : Type} {strict lenient : Except ParseError α}
    {strict' lenient' : Except ParseError β} (h : IsStricter (fun _ ↦ False) strict lenient)
    (h' : IsStricter (fun _ ↦ False) strict' lenient') (f : α → β → γ) :
    IsStricter
      (fun error ↦ (∃ rule, strict = .error (.optional rule)) ∧ (∃ a, lenient = .ok a) ∧
        lenient' = .error error)
      (do return f (← strict) (← strict')) (do return f (← lenient) (← lenient')) := by
  cases strict with
  | ok a =>
    rw [h.ok a rfl]
    cases strict' with
    | ok b =>
      rw [h'.ok b rfl]
      exact ⟨fun _ hc ↦ hc, nofun, nofun⟩
    | error error =>
      refine ⟨nofun, fun error' herror hoptional ↦ ?_, fun error' herror hrequired ↦ ?_⟩
      · cases herror
        rcases h'.optional error rfl hoptional with ⟨b, hb⟩ | ⟨_, hfalse, _⟩
        · exact .inl ⟨f a b, by rw [hb]; rfl⟩
        · exact hfalse.elim
      · cases herror
        rw [h'.required error rfl hrequired]
        rfl
  | error error =>
    refine ⟨nofun, fun error' herror hoptional ↦ ?_, fun error' herror hrequired ↦ ?_⟩
    · cases herror
      obtain ⟨rule, rfl⟩ := ParseError.exists_of_isOptional hoptional
      rcases h.optional _ rfl rfl with ⟨a, ha⟩ | ⟨_, hfalse, _⟩
      · rw [ha]
        cases lenient' with
        | ok b => exact .inl ⟨f a b, rfl⟩
        | error error' => exact .inr ⟨error', ⟨⟨rule, rfl⟩, ⟨a, rfl⟩, rfl⟩, rfl⟩
      · exact hfalse.elim
    · cases herror
      rw [h.required error rfl hrequired]
      rfl

namespace Expr

/-- A lenient reading never reports a rule of style. -/
theorem isOptional_of_ofTokensLenient {algebraic : Bool} {limit : Nat} {tokens : List Token}
    {error : ParseError} (h : ofTokensLenient algebraic limit tokens = .error error) :
    error.isOptional = false := by
  have hagree := agree_ofTokensLenient algebraic (le_refl limit) (Grammar.sameKind_refl tokens)
  rw [h] at hagree
  exact hagree.isOptional_eq_false

/--
The rules of style make a reading stricter and hide nothing, since they answer with nothing but
rules of style.
-/
theorem isStricter_ofTokens (algebraic : Bool) (limit : Nat) (tokens : List Token) :
    IsStricter (fun _ ↦ False) (ofTokens algebraic .strict limit tokens)
      (ofTokens algebraic .lenient limit tokens) := by
  rw [ofTokens, ofTokens]
  cases h : ofTokensLenient algebraic limit tokens with
  | error error =>
    have hrequired := isOptional_of_ofTokensLenient h
    refine ⟨nofun, fun error' herror hoptional ↦ ?_, fun error' herror _ ↦ herror⟩
    cases herror
    exact absurd hoptional (by rw [hrequired]; exact Bool.false_ne_true)
  | ok e =>
    refine ⟨fun a ha ↦ ?_, fun error _ _ ↦ .inl ⟨e, rfl⟩, fun error herror hrequired ↦ ?_⟩
    · rw [← eq_of_checkStyle (show checkStyle .strict e = .ok a from ha)]
      rfl
    · change checkStyle .strict e = .error error at herror
      rw [checkStyle] at herror
      cases hrule : e.brokenRule? with
      | none =>
        rw [hrule] at herror
        cases herror
      | some rule =>
        rw [hrule] at herror
        cases herror
        cases hrequired

end Expr

namespace Equation

/--
Whether the text is an equation whose right side fails for the given reason behind a left side that
can be read and breaks a rule of style.
-/
def FailsBehindStyle (names : List String) (text : String) (error : ParseError) : Prop :=
  ∃ before after, sides (Token.scan names text) = .ok (before, after) ∧
    (∃ rule, Expr.ofTokens true .strict defaultNesting before = .error (.optional rule)) ∧
    (∃ lhs, Expr.ofTokens true .lenient defaultNesting before = .ok lhs) ∧
    Expr.ofTokens true .lenient defaultNesting after = .error error

theorem isOptional_of_sides {tokens : List Token} {error : ParseError}
    (h : sides tokens = .error error) : error.isOptional = false := by
  rcases eq_of_sides_eq_error h with rfl | ⟨rule, rfl⟩ <;> rfl

/-- An equation is read strictly in its left side before its right side is read at all. -/
theorem isStricter_ofText (names : List String) (text : String) :
    IsStricter (FailsBehindStyle names text) (ofText names .strict text)
      (ofText names .lenient text) := by
  rw [ofText, ofText]
  unfold FailsBehindStyle
  cases h : sides (Token.scan names text) with
  | error error =>
    have hrequired := isOptional_of_sides h
    refine ⟨nofun, fun error' herror hoptional ↦ ?_, fun error' herror _ ↦ herror⟩
    cases herror
    exact absurd hoptional (by rw [hrequired]; exact Bool.false_ne_true)
  | ok parts =>
    obtain ⟨before, after⟩ := parts
    have hsides := (Expr.isStricter_ofTokens true defaultNesting before).pair
      (Expr.isStricter_ofTokens true defaultNesting after) Equation.mk
    refine ⟨hsides.ok, fun error herror hoptional ↦ ?_, hsides.required⟩
    rcases hsides.optional error herror hoptional with hok | ⟨error', hhidden, hlenient⟩
    · exact .inl hok
    · exact .inr ⟨error', ⟨before, after, rfl, hhidden⟩, hlenient⟩

/--
Strict readings are lenient ones plus rules of style. A text that is read strictly is read leniently
as the same expression; one that breaks a rule of style is read leniently; and one that fails for
any other reason fails leniently for the same reason. The same holds of equations, but that a rule
of style which the left side breaks hides the reason for which the right side fails.
-/
theorem isStricter_reading (language : Language) (names : List String) (limit : Nat)
    (text : String) :
    IsStricter (fun _ ↦ False) (Expr.ofText language .strict limit text)
      (Expr.ofText language .lenient limit text) ∧
    IsStricter (FailsBehindStyle names text) (ofText names .strict text)
      (ofText names .lenient text) :=
  ⟨Expr.isStricter_ofTokens _ _ _, isStricter_ofText names text⟩

/--
The left side of `((x)) = 1 +` breaks a rule of style, but the text is not read leniently either,
since an operand is missing on the right.
-/
theorem not_isStricter_doubleParentheses :
    ofText ["x"] .strict "((x)) = 1 +" = .error (.optional .multipleRedundantParentheses) ∧
    ofText ["x"] .lenient "((x)) = 1 +" = .error (.required .missingOperand) ∧
    ¬IsStricter (fun _ ↦ False) (ofText ["x"] .strict "((x)) = 1 +")
      (ofText ["x"] .lenient "((x)) = 1 +") := by
  have hstrict : ofText ["x"] .strict "((x)) = 1 +" =
      .error (.optional .multipleRedundantParentheses) := by decide +kernel
  have hlenient : ofText ["x"] .lenient "((x)) = 1 +" = .error (.required .missingOperand) := by
    decide +kernel
  refine ⟨hstrict, hlenient, fun h ↦ ?_⟩
  rcases h.optional _ hstrict rfl with ⟨e, he⟩ | ⟨_, hfalse, _⟩
  · rw [hlenient] at he
    cases he
  · exact hfalse

end Equation

end SchoolAlgebra
