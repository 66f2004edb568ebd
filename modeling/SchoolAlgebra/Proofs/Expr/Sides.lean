import Mathlib
import SchoolAlgebra.Equation

/-!
# Tokens of two sides

The tokens of an equation are parted at the equals sign, of which there is one, and neither part is
empty. Tokens that are not parted in this way fail before any of them is read.
-/

namespace SchoolAlgebra.Equation

variable {tokens before after : List Token} {sign : Token} {error : ParseError}

/-- Tokens with one equals sign are parted into those before and those behind it. -/
theorem sides_append_cons (hbefore : ∀ token ∈ before, isEquals token = false)
    (hsign : isEquals sign = true) (hafter : ∀ token ∈ after, isEquals token = false) :
    sides (before ++ sign :: after) =
      if before.isEmpty || after.isEmpty then Grammar.violation .equationMissingSide
      else .ok (before, after) := by
  have hnot : ∀ token ∈ before, (!isEquals token) = true := by
    intro token htoken
    rw [hbefore token htoken]
    rfl
  have hdrop : (before ++ sign :: after).dropWhile (fun token ↦ !isEquals token) =
      sign :: after := by
    rw [List.dropWhile_append_of_pos hnot, List.dropWhile_cons_of_neg (by simp [hsign])]
  have htake : (before ++ sign :: after).takeWhile (fun token ↦ !isEquals token) = before := by
    rw [List.takeWhile_append_of_pos hnot, List.takeWhile_cons_of_neg (by simp [hsign]),
      List.append_nil]
  have hany : after.any isEquals = false := List.any_eq_false.2 fun token htoken ↦
    Bool.eq_false_iff.1 (hafter token htoken)
  have hsome : (before ++ sign :: after).isEmpty = false := by simp
  rw [sides, hsome, hdrop, htake]
  simp only [hany, Bool.false_eq_true, if_false]

/-- The sides of an equation are its tokens before and after an equals sign. -/
theorem eq_append_of_sides (h : sides tokens = .ok (before, after)) :
    ∃ token, token.kind = .equals ∧ tokens = before ++ token :: after := by
  simp only [sides] at h
  split at h
  · cases h
  split at h
  · cases h
  · rename_i token rest hdrop
    split at h
    · cases h
    split at h
    · cases h
    · cases h
      refine ⟨token, ?_, ?_⟩
      · have hhead := List.head?_dropWhile_not (fun token ↦ !isEquals token) tokens
        rw [hdrop] at hhead
        simpa [isEquals] using hhead
      · rw [← hdrop, List.takeWhile_append_dropWhile]

/-- Tokens that are not parted break a rule of the notation, unless there are none. -/
theorem eq_of_sides_eq_error (h : sides tokens = .error error) :
    error = .emptyInput ∨ ∃ rule, error = .required rule := by
  simp only [sides] at h
  split at h
  · exact .inl (Except.error.inj h).symm
  split at h
  · exact .inr ⟨_, (Except.error.inj h).symm⟩
  split at h
  · exact .inr ⟨_, (Except.error.inj h).symm⟩
  split at h
  · exact .inr ⟨_, (Except.error.inj h).symm⟩
  · cases h

end SchoolAlgebra.Equation
