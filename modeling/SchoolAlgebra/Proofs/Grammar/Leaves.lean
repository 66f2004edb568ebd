import Mathlib
import SchoolAlgebra.Proofs.Grammar.Spelling
import SchoolAlgebra.Proofs.Token.Coverage

/-!
# What spellings are made of

The numbers and variables of an expression are those of the tokens that it is read from, and tokens
without meaning are in no spelling.
-/

namespace SchoolAlgebra

open Token (Kind)

namespace Token.Kind

/-- The number or variable that a token of the kind stands for. -/
def leaf? : Kind → Option Expr
  | integer v => some (.constant (.integer v))
  | real x => some (.constant (.float x))
  | name x => some (.var x)
  | _ => none

/-- Whether a token of the kind has a place in expressions. -/
def isReadable : Kind → Bool
  | integerTooLarge | unresolved _ | equals | invalid _ => false
  | function f => f == rootName
  | _ => true

end Token.Kind

/-- Without variables, the letters that have a place in expressions are those of the root. -/
theorem Token.StandsFor.mem_rootName {cs : List Char} {k : Kind} (h : Token.StandsFor [] cs k)
    (hk : k.isReadable = true) {c : Char} (hc : c ∈ cs) (hletter : Text.isLetter c = true) :
    c ∈ Token.rootName.toList := by
  cases h with
  | name hmem => cases hmem
  | root => exact hc
  | function =>
    rw [← beq_iff_eq.1 hk, String.toList_ofList]
    exact hc
  | unresolved => cases hk
  | numeral h => exact absurd hletter (by rw [h.isLetter_eq_false c hc]; exact Bool.false_ne_true)
  | symbol hsymbol =>
    rw [List.mem_singleton] at hc
    rw [hc, hsymbol] at hletter
    cases hletter

namespace Expr

variable {implicitPowers : Bool} {e part : Expr} {ks : List Kind}

/-- Every number and variable of the expression is one of the tokens that spell it. -/
theorem IsSpelled.exists_leaf (h : e.IsSpelled implicitPowers ks) (hpart : part ∈ e.subterms)
    (hleaf : part.subterms = [part]) : ∃ k ∈ ks, k.leaf? = some part := by
  induction h with
  | integer | real | var =>
    rw [subterms, List.mem_singleton] at hpart
    exact ⟨_, List.mem_singleton_self _, hpart ▸ rfl⟩
  | group _ ih | pos _ ih | neg _ ih | root _ ih | call _ ih =>
    rw [subterms, List.mem_cons] at hpart
    rcases hpart with rfl | hpart
    · exact absurd (List.cons.inj hleaf).2 (List.ne_nil_of_mem (mem_subterms_self _))
    · obtain ⟨k, hk, hkpart⟩ := ih hpart
      exact ⟨k, by simp [hk], hkpart⟩
  | add _ _ iha ihb | sub _ _ iha ihb | mul _ _ iha ihb | div _ _ iha ihb | pow _ _ iha ihb
  | implicitMul _ _ _ _ iha ihb =>
    rw [subterms, List.mem_cons, List.mem_append] at hpart
    rcases hpart with rfl | hpart | hpart
    · exact absurd (List.append_eq_nil_iff.1 (List.cons.inj hleaf).2).1
        (List.ne_nil_of_mem (mem_subterms_self _))
    · obtain ⟨k, hk, hkpart⟩ := iha hpart
      exact ⟨k, by simp [hk], hkpart⟩
    · obtain ⟨k, hk, hkpart⟩ := ihb hpart
      exact ⟨k, by simp [hk], hkpart⟩

/-- Every token of a spelling has a place in expressions. -/
theorem IsSpelled.isReadable (h : e.IsSpelled implicitPowers ks) :
    ∀ k ∈ ks, k.isReadable = true := by
  induction h with
  | integer | real | var => simp [Kind.isReadable]
  | group _ ih | pos _ ih | neg _ ih | root _ ih | call _ ih =>
    simpa [Kind.isReadable, or_imp, forall_and] using ih
  | add _ _ iha ihb | sub _ _ iha ihb | mul _ _ iha ihb | div _ _ iha ihb | pow _ _ iha ihb =>
    simpa [Kind.isReadable, or_imp, forall_and] using And.intro iha ihb
  | implicitMul _ _ _ _ iha ihb => simpa [or_imp, forall_and] using And.intro iha ihb

/-- What a text is read as is spelled by the kinds of its tokens. -/
theorem isSpelled_of_ofTokens {algebraic : Bool} {strictness : Strictness} {limit : Nat}
    {tokens : List Token} (h : ofTokens algebraic strictness limit tokens = .ok e) :
    e.IsSpelled algebraic (tokens.map (·.kind)) := by
  obtain ⟨taken, htaken, hspelled, -⟩ := (derives_of_ofTokens h).takesSpelling
  rw [List.append_nil] at htaken
  exact htaken ▸ hspelled

/-- A text without variables is read as an expression without variables. -/
theorem isNumeric_of_ofText {strictness : Strictness} {limit : Nat} {text : String}
    (h : ofText .numeric strictness limit text = .ok e) : e.isNumeric = true := by
  rw [isNumeric_iff]
  intro name hname
  obtain ⟨k, hk, hleaf⟩ := (isSpelled_of_ofTokens h).exists_leaf hname rfl
  obtain ⟨token, htoken, rfl⟩ := List.mem_map.1 hk
  have hkind : token.kind = .name name := by
    cases hkind : token.kind <;> rw [hkind] at hleaf <;> cases hleaf
    rfl
  have hstands := (Token.tiles_scan [] text).standsFor token htoken
  rw [hkind] at hstands
  exact absurd hstands.mem_of_name List.not_mem_nil

/-- The letters of a text without variables that is read are those of the root. -/
theorem mem_rootName_of_ofText {strictness : Strictness} {limit : Nat} {text : String}
    (h : ofText .numeric strictness limit text = .ok e) {c : Char}
    (hc : c ∈ text.toList) (hletter : Text.isLetter c = true) : c ∈ Token.rootName.toList := by
  have htiles := Token.tiles_scan [] text
  rcases htiles.isBlank_or_mem hc with hblank | ⟨token, htoken, hmem⟩
  · rw [Text.isBlank_of_isLetter hletter] at hblank
    cases hblank
  · have hreadable := (isSpelled_of_ofTokens h).isReadable _ (List.mem_map_of_mem htoken)
    exact (htiles.standsFor token htoken).mem_rootName hreadable hmem hletter

end Expr

end SchoolAlgebra
