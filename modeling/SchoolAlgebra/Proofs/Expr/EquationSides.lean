import Mathlib
import SchoolAlgebra.Proofs.Expr.ExactValue
import SchoolAlgebra.Proofs.Expr.Sides
import SchoolAlgebra.Proofs.Grammar.Agreement
import SchoolAlgebra.Proofs.Token.Spans

/-!
# Sides of equations

Two texts with an equals sign between them are read as an equation exactly if each is read as an
expression. The tokens behind the sign are those of the second text, save that they start later. So
a side fails for the same reason in the equation and on its own, and no more than the place of the
token that an error quotes is another one.
-/

namespace SchoolAlgebra

/-- The error in a text that starts by so many bytes later. -/
def ParseError.shift (n : ℕ) : ParseError → ParseError
  | .unexpectedToken text offset => .unexpectedToken text (offset + n)
  | error => error

theorem ParseError.shift_of_isPlain {e : ParseError} (h : e.isPlain = true) (n : ℕ) :
    e.shift n = e := by
  cases e with
  | unexpectedToken => cases h
  | _ => rfl

/-- An error that is one with another, but quotes a token that starts later, is the other later. -/
theorem Grammar.shift_eq_of_sameFault {n : ℕ} {e e' : ParseError}
    (h : SameFault (fun t t' ↦ t' = t.shift n) e e' ∨ SameFault (fun t' t ↦ t' = t.shift n) e' e) :
    e.shift n = e' := by
  rcases h with h | h
  all_goals
    cases h with
    | same hplain => exact ParseError.shift_of_isPlain hplain n
    | quote ht =>
      subst ht
      rfl

theorem Grammar.mapError_id {α : Type} (x : Except ParseError α) : x.mapError id = x := by
  cases x <;> rfl

theorem Grammar.mapError_eq_ok_iff {α : Type} {x : Except ParseError α}
    {f : ParseError → ParseError} {a : α} : x.mapError f = .ok a ↔ x = .ok a := by
  cases x <;> simp [Except.mapError]

theorem Expr.mapError_checkStyle (n : ℕ) (strictness : Strictness) (e : Expr) :
    (checkStyle strictness e).mapError (ParseError.shift n) = checkStyle strictness e := by
  cases strictness with
  | lenient => rfl
  | strict =>
    rw [checkStyle]
    cases e.brokenRule? <;> rfl

/-- Tokens that start later are read as before, or fail for the same reason at a later place. -/
theorem Expr.ofTokens_map_shift (algebraic : Bool) (strictness : Strictness) (limit n : ℕ)
    (tokens : List Token) :
    ofTokens algebraic strictness limit (tokens.map (Token.shift n)) =
      (ofTokens algebraic strictness limit tokens).mapError (ParseError.shift n) := by
  have hshift : List.Forall₂ (Grammar.SameKind fun t t' ↦ t' = t.shift n) tokens
      (tokens.map (Token.shift n)) :=
    List.forall₂_map_right_iff.2 (List.forall₂_same.2 fun _ _ ↦ ⟨rfl, rfl⟩)
  have hshift' : List.Forall₂ (Grammar.SameKind fun t' t ↦ t' = t.shift n)
      (tokens.map (Token.shift n)) tokens :=
    List.forall₂_map_left_iff.2 (List.forall₂_same.2 fun _ _ ↦ ⟨rfl, rfl⟩)
  have hlenient := (agree_ofTokensLenient algebraic (le_refl limit) hshift).mapError_eq
    (g := id) (agree_ofTokensLenient algebraic (le_refl limit) hshift') (fun _ _ h ↦ h.1)
    fun _ _ ↦ Grammar.shift_eq_of_sameFault
  have hstyle := Grammar.mapError_bind hlenient fun e ↦
    (mapError_checkStyle n strictness e).trans (Grammar.mapError_id _).symm
  rw [Grammar.mapError_id] at hstyle
  exact hstyle.symm

namespace Token

variable {allowed : List String} {text : String}

/-- A text without an equals sign has no token that is one. -/
theorem isEquals_eq_false_of_not_mem (h : '=' ∉ text.toList) :
    ∀ token ∈ scan allowed text, Equation.isEquals token = false := by
  intro token htoken
  obtain ⟨before, after, htext, -⟩ := (tiles_scan allowed text).exists_append htoken
  have hwritten := (isExactCover_scan allowed text).isWrittenBy token htoken
  rw [Equation.isEquals, beq_eq_false_iff_ne]
  intro hkind
  rw [hkind] at hwritten
  obtain ⟨c, hc, hchars⟩ := hwritten
  obtain rfl : c = '=' := List.mem_singleton.1 hc
  rw [htext, hchars] at h
  simp at h

/--
The tokens of two texts with an equals sign between them are those of the texts and the equals sign.
-/
theorem scan_append_equals (allowed : List String) (s t : String) :
    scan allowed (s ++ "=" ++ t) = scan allowed s ++
      ⟨.equals, s.utf8ByteSize, ['=']⟩ :: (scan allowed t).map (shift (s.utf8ByteSize + 1)) := by
  have htext : (s ++ "=" ++ t).toList = s.toList ++ '=' :: t.toList := by
    simp
  have hparted : Lexeme.IsParted s.toList ('=' :: t.toList) := Lexeme.isParted_cons rfl rfl
  have hequals : ∀ start, tokensFrom allowed start ('=' :: t.toList) =
      ⟨.equals, start, ['=']⟩ :: tokensFrom allowed (start + 1) t.toList := fun start ↦
    tokensFrom_of_not_isLetter rfl rfl start t.toList
  change tokensFrom allowed 0 _ =
    tokensFrom allowed 0 s.toList ++ _ :: (tokensFrom allowed 0 t.toList).map _
  rw [htext, tokensFrom_append_of_isParted hparted rfl, hequals, Text.byteLength_toList,
    ← tokensFrom_add, Nat.zero_add, Nat.zero_add]

/-- A text that is not blank has tokens. -/
theorem isEmpty_scan_eq_false (h : ∃ c ∈ text.toList, Text.isBlank c = false) :
    (scan allowed text).isEmpty = false := by
  rw [List.isEmpty_eq_false_iff]
  intro hnil
  obtain ⟨c, hc, hsolid⟩ := h
  exact absurd ((tiles_scan allowed text).eq_nil_iff.1 hnil c hc) (Bool.eq_false_iff.1 hsolid)

end Token

namespace Equation

variable {names : List String} {strictness : Strictness} {s t : String}

/-- The equation of two texts is read from each text on its own, in their order. -/
theorem ofText_append_eq (hs : '=' ∉ s.toList) (ht : '=' ∉ t.toList) :
    ofText names strictness (s ++ "=" ++ t) =
      if (Token.scan names s).isEmpty || (Token.scan names t).isEmpty then
        Grammar.violation .equationMissingSide
      else do
        let lhs ← Expr.ofText (.algebraic names) strictness defaultNesting s
        let rhs ← (Expr.ofText (.algebraic names) strictness defaultNesting t).mapError
          (ParseError.shift (s.utf8ByteSize + 1))
        return { lhs, rhs } := by
  have hbefore : ∀ token ∈ Token.scan names s, isEquals token = false :=
    Token.isEquals_eq_false_of_not_mem hs
  have hafter : ∀ token ∈ (Token.scan names t).map (Token.shift (s.utf8ByteSize + 1)),
      isEquals token = false := by
    intro token htoken
    obtain ⟨token, hmem, rfl⟩ := List.mem_map.1 htoken
    exact Token.isEquals_eq_false_of_not_mem ht token hmem
  rw [ofText, Token.scan_append_equals, sides_append_cons hbefore rfl hafter, List.isEmpty_map]
  split
  · rfl
  · exact congrArg (Expr.ofText (.algebraic names) strictness defaultNesting s >>= ·)
      (funext fun lhs ↦ congrArg (· >>= _) (Expr.ofTokens_map_shift _ _ _ _ _))

/--
An equation is read as its two sides. Texts without equals signs have one between them exactly if
each is read as an expression, and these expressions are the sides of the equation. If one is not
read, and neither is blank, then the equation is not read for the same reason, which is that of the
left side if both are not read. What the right side quotes is found behind the left side and the
equals sign.
-/
theorem ofText_append_equals (hs : '=' ∉ s.toList) (ht : '=' ∉ t.toList) :
    (∀ lhs rhs, ofText names strictness (s ++ "=" ++ t) = .ok ⟨lhs, rhs⟩ ↔
      Expr.ofText (.algebraic names) strictness defaultNesting s = .ok lhs ∧
        Expr.ofText (.algebraic names) strictness defaultNesting t = .ok rhs) ∧
    ((∃ c ∈ s.toList, Text.isBlank c = false) → (∃ c ∈ t.toList, Text.isBlank c = false) →
      (∀ error, Expr.ofText (.algebraic names) strictness defaultNesting s = .error error →
        ofText names strictness (s ++ "=" ++ t) = .error error) ∧
      ∀ lhs error, Expr.ofText (.algebraic names) strictness defaultNesting s = .ok lhs →
        Expr.ofText (.algebraic names) strictness defaultNesting t = .error error →
        ofText names strictness (s ++ "=" ++ t) = .error (error.shift (s.utf8ByteSize + 1))) := by
  rw [ofText_append_eq hs ht]
  refine ⟨fun lhs rhs ↦ ?_, fun hsolid hsolid' ↦ ?_⟩
  · split
    · rename_i hempty
      refine iff_of_false nofun fun ⟨hlhs, hrhs⟩ ↦ ?_
      rcases Bool.or_eq_true_iff.1 hempty with hnil | hnil
      · rw [Expr.ofText, Language.names, List.isEmpty_iff.1 hnil] at hlhs
        cases hlhs
      · rw [Expr.ofText, Language.names, List.isEmpty_iff.1 hnil] at hrhs
        cases hrhs
    · constructor
      · intro h
        obtain ⟨a, ha, h⟩ := Expr.bind_eq_ok_iff.1 h
        obtain ⟨b, hb, h⟩ := Expr.bind_eq_ok_iff.1 h
        cases h
        exact ⟨ha, Grammar.mapError_eq_ok_iff.1 hb⟩
      · rintro ⟨hlhs, hrhs⟩
        rw [hlhs, hrhs]
        rfl
  · rw [Token.isEmpty_scan_eq_false hsolid, Token.isEmpty_scan_eq_false hsolid']
    refine ⟨fun error hlhs ↦ ?_, fun lhs error hlhs hrhs ↦ ?_⟩
    · rw [hlhs]
      rfl
    · rw [hlhs, hrhs]
      rfl

/-- In `2×x= 1 + $` the right side fails at its byte 5, which is byte 10 of the equation. -/
theorem ofText_append_equals_dollar :
    '=' ∉ "2×x".toList ∧ '=' ∉ " 1 + $".toList ∧
    (∃ c ∈ "2×x".toList, Text.isBlank c = false) ∧
    (∃ c ∈ " 1 + $".toList, Text.isBlank c = false) ∧
    Expr.ofText (.algebraic ["x"]) .strict defaultNesting "2×x" =
      .ok (.mul (.constant (.integer 2)) (.var "x")) ∧
    Expr.ofText (.algebraic ["x"]) .strict defaultNesting " 1 + $" =
      .error (.unexpectedToken "$" 5) ∧
    ofText ["x"] .strict ("2×x" ++ "=" ++ " 1 + $") = .error (.unexpectedToken "$" 10) := by
  have hs : '=' ∉ "2×x".toList := by decide
  have ht : '=' ∉ " 1 + $".toList := by decide
  have hsolid : ∃ c ∈ "2×x".toList, Text.isBlank c = false := ⟨'2', by decide, rfl⟩
  have hsolid' : ∃ c ∈ " 1 + $".toList, Text.isBlank c = false := ⟨'1', by decide, rfl⟩
  have hlhs : Expr.ofText (.algebraic ["x"]) .strict defaultNesting "2×x" =
      .ok (.mul (.constant (.integer 2)) (.var "x")) := by decide +kernel
  have hrhs : Expr.ofText (.algebraic ["x"]) .strict defaultNesting " 1 + $" =
      .error (.unexpectedToken "$" 5) := by decide +kernel
  exact ⟨hs, ht, hsolid, hsolid', hlhs, hrhs,
    ((ofText_append_equals hs ht).2 hsolid hsolid').2 _ _ hlhs hrhs⟩

end Equation

end SchoolAlgebra
