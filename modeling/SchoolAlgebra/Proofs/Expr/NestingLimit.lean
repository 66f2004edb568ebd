import Mathlib
import SchoolAlgebra.Proofs.Grammar.Agreement
import SchoolAlgebra.Proofs.Grammar.Soundness

/-!
# The limit of levels

The limit cuts off the expressions that nest too deeply, and nothing else. What is read within a
limit is what is read without it, if it nests no deeper; every other failure is independent of the
limit.
-/

namespace SchoolAlgebra.Expr

variable {algebraic : Bool} {strictness : Strictness} {limit limit' : Nat} {tokens : List Token}
  {e : Expr}

theorem length_of_ofTokensLenient (h : ofTokensLenient algebraic limit tokens = .ok e) :
    tokens.length ≤ maxTokens := by
  unfold ofTokensLenient at h
  split at h
  · cases h
  · split at h
    · cases h
    · rename_i hlength
      exact not_lt.1 hlength

/-- What is read within a limit keeps it. -/
theorem nesting_of_ofTokensLenient (h : ofTokensLenient algebraic limit tokens = .ok e) :
    e.nesting ≤ limit := by
  have hagree := agree_ofTokensLenient algebraic (le_refl limit) (Grammar.sameKind_refl tokens)
  rw [h] at hagree
  cases hagree with
  | ok hrelated => exact hrelated.2

theorem ofTokensLenient_eq_ok (h : ofTokens algebraic .lenient limit tokens = .ok e) :
    ofTokensLenient algebraic limit tokens = .ok e := by
  obtain ⟨a, ha, hstyle⟩ := bind_eq_ok_iff.1 h
  rw [ha, eq_of_checkStyle hstyle]

/-- An expression that is read within one limit is read within all that admit its nesting. -/
theorem ofTokensLenient_of_nesting (h : ofTokensLenient algebraic limit tokens = .ok e)
    (hlimit : e.nesting ≤ limit') : ofTokensLenient algebraic limit' tokens = .ok e := by
  have hlenient : ofTokens algebraic .lenient limit tokens = .ok e := Grammar.bind_of_eq_ok h
  exact ofTokensLenient_eq_ok (ofTokens_eq_ok_of_derives (derives_of_ofTokens hlenient)
    (length_of_ofTokensLenient h) hlimit)

theorem nesting_lt_of_ofTokensLenient (h : ofTokensLenient algebraic limit tokens = .ok e) :
    e.nesting < tokens.length := by
  have hlenient : ofTokens algebraic .lenient limit tokens = .ok e := Grammar.bind_of_eq_ok h
  simpa using (derives_of_ofTokens hlenient).nesting_lt

/-- A failure for any other reason than the limit does not depend on the limit. -/
theorem ofTokensLenient_eq_error {error : ParseError}
    (h : ofTokensLenient algebraic limit tokens = .error error)
    (herror : error ≠ .required .nestingTooDeep) (hlimit : limit ≤ limit') :
    ofTokensLenient algebraic limit' tokens = .error error := by
  have hagree := agree_ofTokensLenient algebraic hlimit (Grammar.sameKind_refl tokens)
  rw [h] at hagree
  generalize ofTokensLenient algebraic limit' tokens = outcome at hagree ⊢
  cases hagree with
  | error hfault =>
    cases hfault with
    | same => rfl
    | quote htoken => rw [htoken]
  | tooDeep => exact absurd rfl herror

/--
A limit of levels cuts off exactly the expressions that nest too deeply, and changes nothing else.
Within it a text is read as an expression if and only if, within any limit that is at least the
number of its tokens, it is read as the same expression, and this expression nests no deeper than
the limit admits. And a text that is not read for another reason than the limit is not read, for the
same reason, within any larger limit.
-/
theorem ofText_limit {language : Language} {text : String} {enough : Nat}
    (henough : (Token.scan language.names text).length ≤ enough) (limit : Nat) :
    (∀ e, ofText language strictness limit text = .ok e ↔
      ofText language strictness enough text = .ok e ∧ e.nesting ≤ limit) ∧
    ∀ error larger, limit ≤ larger → error ≠ .required .nestingTooDeep →
      ofText language strictness limit text = .error error →
      ofText language strictness larger text = .error error := by
  refine ⟨fun e ↦ ⟨fun h ↦ ?_, fun ⟨h, hnesting⟩ ↦ ?_⟩, fun error larger hlarger herror h ↦ ?_⟩
  · obtain ⟨a, ha, hstyle⟩ := bind_eq_ok_iff.1 h
    have hlt := nesting_lt_of_ofTokensLenient ha
    refine ⟨bind_eq_ok_iff.2 ⟨a, ofTokensLenient_of_nesting ha (by omega), hstyle⟩, ?_⟩
    rw [← eq_of_checkStyle hstyle]
    exact nesting_of_ofTokensLenient ha
  · obtain ⟨a, ha, hstyle⟩ := bind_eq_ok_iff.1 h
    rw [← eq_of_checkStyle hstyle] at hnesting
    exact bind_eq_ok_iff.2 ⟨a, ofTokensLenient_of_nesting ha hnesting, hstyle⟩
  · rcases bind_eq_error_iff.1 h with hread | ⟨a, ha, hstyle⟩
    · exact bind_eq_error_iff.2 (.inl (ofTokensLenient_eq_error hread herror hlarger))
    · have hnesting := nesting_of_ofTokensLenient ha
      exact bind_eq_error_iff.2
        (.inr ⟨a, ofTokensLenient_of_nesting ha (hnesting.trans hlarger), hstyle⟩)

/--
The seven tokens of `x^-(√2)` nest four deep, so the text is read within four levels and not within
three; and the text without the last parenthesis fails for lack of it within ten levels as within
four.
-/
theorem ofText_limit_four :
    (Token.scan ["x"] "x^-(√2)").length ≤ 7 ∧
    (pow (var "x") (neg (group (sqrt (constant (.integer 2)))))).nesting = 4 ∧
    ofText (.algebraic ["x"]) .lenient 4 "x^-(√2)" =
      .ok (pow (var "x") (neg (group (sqrt (constant (.integer 2)))))) ∧
    ofText (.algebraic ["x"]) .lenient 3 "x^-(√2)" ≠
      .ok (pow (var "x") (neg (group (sqrt (constant (.integer 2)))))) ∧
    (Token.scan ["x"] "x^-(√2").length ≤ 6 ∧
    ofText (.algebraic ["x"]) .lenient 4 "x^-(√2" = .error (.required .unbalancedParentheses) ∧
    ofText (.algebraic ["x"]) .lenient 10 "x^-(√2" = .error (.required .unbalancedParentheses) := by
  have hlength : (Token.scan ["x"] "x^-(√2)").length ≤ 7 := by decide +kernel
  have hlength' : (Token.scan ["x"] "x^-(√2").length ≤ 6 := by decide +kernel
  have hread : ofText (.algebraic ["x"]) .lenient 7 "x^-(√2)" =
      .ok (pow (var "x") (neg (group (sqrt (constant (.integer 2)))))) := by decide +kernel
  have herror : ofText (.algebraic ["x"]) .lenient 4 "x^-(√2" =
      .error (.required .unbalancedParentheses) := by decide +kernel
  refine ⟨hlength, rfl, ((ofText_limit hlength 4).1 _).2 ⟨hread, le_rfl⟩, fun h ↦ ?_, hlength',
    herror, (ofText_limit hlength' 4).2 _ 10 (by decide) nofun herror⟩
  exact absurd (((ofText_limit hlength 3).1 _).1 h).2 (by decide)

end SchoolAlgebra.Expr
