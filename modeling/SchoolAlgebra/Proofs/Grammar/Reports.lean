import Mathlib
import SchoolAlgebra.Expr.OfText

/-!
# Reports of letters

A reader reports letters only where it meets a token whose letters belong to no name, and then it
reports the letters that its setting gives. So a reading that reports letters reports all those
among its tokens, and there are some. One lemma for each reader rests on the readers of the parts,
with the reader of nested phrases as a parameter.
-/

namespace SchoolAlgebra

namespace Grammar

/--
Whether an outcome reports letters only if they are the given ones and the letters of one of the
tokens belong to no name. A result has to satisfy the condition.
-/
inductive Reports (tokens : List Token) (letters : List String) {α : Type} (result : α → Prop) :
    Except ParseError α → Prop where
  | ok {a : α} (h : result a) : Reports tokens letters result (.ok a)
  | stray {token : Token} {run : String} (hmem : token ∈ tokens)
      (hkind : token.kind = .unresolved run) :
      Reports tokens letters result (.error (.disallowedVariables letters))
  | other {e : ParseError} (h : ∀ names, e ≠ .disallowedVariables names) :
      Reports tokens letters result (.error e)

/-- Whether the reader stays among the tokens and reports only the given letters. -/
def ReaderReports (tokens : List Token) (letters : List String) (read : Reader) : Prop :=
  ∀ c, c.rest ⊆ tokens → Reports tokens letters (fun x ↦ x.2.rest ⊆ tokens) (read c)

section outcomes

variable {tokens : List Token} {letters : List String} {α β : Type} {result : α → Prop}
  {result' : β → Prop} {x : Except ParseError α} {f : α → Except ParseError β}

theorem Reports.bind (h : Reports tokens letters result x)
    (hf : ∀ a, result a → Reports tokens letters result' (f a)) :
    Reports tokens letters result' (x >>= f) := by
  cases h with
  | ok ha => exact hf _ ha
  | stray hmem hkind => exact .stray hmem hkind
  | other h => exact .other h

theorem reports_violation (rule : RequiredRule) :
    Reports tokens letters result (violation rule) := .other nofun

theorem reports_unexpected (token : Token) :
    Reports tokens letters result (unexpected token) := .other nofun

theorem Cursor.rest_advance_subset {c : Cursor} (h : c.rest ⊆ tokens) :
    c.advance.rest ⊆ tokens := by
  rw [rest_advance]
  exact fun token htoken ↦ h (List.mem_of_mem_tail htoken)

/-- Whether the step of a chain stays among the tokens and reports only the given letters. -/
def StepReports (tokens : List Token) (letters : List String)
    (step : Expr → Cursor → Except ParseError (Option (Expr × Cursor))) : Prop :=
  ∀ left c, c.rest ⊆ tokens →
    Reports tokens letters (fun next ↦ ∀ x ∈ next, x.2.rest ⊆ tokens) (step left c)

theorem reports_chain {step : Expr → Cursor → Except ParseError (Option (Expr × Cursor))}
    (hstep : StepReports tokens letters step) (first : Expr) :
    ReaderReports tokens letters (chain step first) := by
  intro c hc
  fun_induction chain step first c with
  | case1 first c e he =>
    have h := hstep first c hc
    rw [he] at h
    cases h with
    | stray hmem hkind => exact .stray hmem hkind
    | other h => exact .other h
  | case2 first c _ => exact .ok hc
  | case3 first c next d hsome _ ih =>
    have h := hstep first c hc
    rw [hsome] at h
    cases h with
    | ok h => exact ih (h _ rfl)
  | case4 first c next d hsome _ =>
    have h := hstep first c hc
    rw [hsome] at h
    cases h with
    | ok h => exact .ok (h _ rfl)

end outcomes

section level

variable {tokens : List Token} {setting : Setting} {inner : Phrase → Reader} {c : Cursor}

theorem reports_closeParen {letters : List String} (hc : c.rest ⊆ tokens) :
    Reports tokens letters (fun c' ↦ c'.rest ⊆ tokens) (closeParen c) := by
  unfold closeParen
  split
  · exact reports_violation _
  · split
    · exact .ok (Cursor.rest_advance_subset hc)
    · exact reports_unexpected _

theorem reports_rejectNumber {letters : List String} (c : Cursor) :
    Reports tokens letters (fun _ ↦ True) (rejectNumber c) := by
  unfold rejectNumber
  split
  · split
    · exact reports_violation _
    · split <;> exact reports_violation _
    · exact reports_violation _
  · exact .ok trivial

variable (hinner : ∀ phrase, ReaderReports tokens setting.disallowed (inner phrase))
include hinner

theorem reports_group : ReaderReports tokens setting.disallowed (group inner) := by
  intro c hc
  unfold group
  split
  · exact reports_violation _
  · refine (hinner .expression _ (Cursor.rest_advance_subset hc)).bind fun x hx ↦ ?_
    exact (reports_closeParen hx).bind fun d hd ↦ .ok hd

theorem reports_call (name : String) :
    ReaderReports tokens setting.disallowed (call inner name) := by
  intro c hc
  unfold call
  split
  · exact .other nofun
  · split
    · exact reports_violation _
    · have hadvance := Cursor.rest_advance_subset (Cursor.rest_advance_subset hc)
      refine (hinner .expression _ hadvance).bind fun x hx ↦ ?_
      exact (reports_closeParen hx).bind fun d hd ↦ .ok hd

theorem reports_primary : ReaderReports tokens setting.disallowed (primary setting inner) := by
  intro c hc
  have hadvance := Cursor.rest_advance_subset hc
  unfold primary
  split
  · exact reports_violation _
  · rename_i token rest hrest
    have hmem : token ∈ tokens := hc (hrest ▸ List.mem_cons_self)
    cases hkind : token.kind with
    | integer | real | name => exact .ok hadvance
    | unresolved => exact .stray hmem hkind
    | leftParen => exact reports_group hinner c hc
    | function name => exact reports_call hinner name c hc
    | integerTooLarge | rightParen => exact reports_violation _
    | times | dividedBy | caret => dsimp only; split <;> exact reports_violation _
    | plus | minus | rootSign | equals | invalid => exact reports_unexpected _

theorem reports_rootOrPrimary :
    ReaderReports tokens setting.disallowed (rootOrPrimary setting inner) := by
  intro c hc
  unfold rootOrPrimary
  split
  · split
    · exact reports_violation _
    · exact (hinner .rootOperand _ (Cursor.rest_advance_subset hc)).bind fun x hx ↦ .ok hx
  · exact reports_primary hinner c hc

theorem ReaderReports.signed {unsigned : Reader} (phrase : Phrase)
    (hunsigned : ReaderReports tokens setting.disallowed unsigned) :
    ReaderReports tokens setting.disallowed (signed inner phrase unsigned) := by
  intro c hc
  have hphrase := hinner phrase _ (Cursor.rest_advance_subset hc)
  unfold Grammar.signed
  split
  · exact hphrase.bind fun x hx ↦ .ok hx
  · exact hphrase.bind fun x hx ↦ .ok hx
  · exact hunsigned c hc

theorem reports_withExponent (base : Expr) :
    ReaderReports tokens setting.disallowed (withExponent inner base) := by
  intro c hc
  unfold withExponent
  split
  · exact (hinner .exponent _ (Cursor.rest_advance_subset hc)).bind fun x hx ↦ .ok hx
  · exact .ok hc

theorem reports_power : ReaderReports tokens setting.disallowed (power setting inner) :=
  fun c hc ↦ (reports_rootOrPrimary hinner c hc).bind fun x hx ↦
    reports_withExponent hinner x.1 x.2 hx

theorem reports_implicitFactor :
    ReaderReports tokens setting.disallowed (implicitFactor setting inner) := by
  refine fun c hc ↦ (reports_rootOrPrimary hinner c hc).bind fun x hx ↦ ?_
  dsimp only
  split
  · exact reports_violation _
  · exact reports_withExponent hinner x.1 x.2 hx

omit hinner in
theorem stepReports_implicitStep {letters : List String} {factor : Reader}
    (hfactor : ReaderReports tokens letters factor) :
    StepReports tokens letters (implicitStep factor) := by
  intro left c hc
  unfold implicitStep
  split
  · refine (hfactor c hc).bind fun x hx ↦ .ok ?_
    rintro _ ⟨rfl⟩
    exact hx
  · exact .ok nofun

omit hinner in
/-- An implicit product reports what its first part and its factors do. -/
theorem reports_implicitChain {letters : List String} {first factor : Reader}
    (hfirst : ReaderReports tokens letters first) (hfactor : ReaderReports tokens letters factor) :
    ReaderReports tokens letters fun c ↦ do
      let (first, c) ← first c
      let (e, c) ← chain (implicitStep factor) first c
      rejectNumber c
      return (e, c) := by
  refine fun c hc ↦ (hfirst c hc).bind fun x hx ↦ ?_
  refine (reports_chain (stepReports_implicitStep hfactor) x.1 x.2 hx).bind fun y hy ↦ ?_
  exact (reports_rejectNumber y.2).bind fun _ _ ↦ .ok hy

theorem reports_signedProduct :
    ReaderReports tokens setting.disallowed (signedProduct setting inner) :=
  reports_implicitChain (reports_power hinner) (reports_implicitFactor hinner)

theorem reports_operand : ReaderReports tokens setting.disallowed (operand setting inner) := by
  intro c hc
  have hsigned := ReaderReports.signed hinner .signedOperand (reports_signedProduct hinner) c hc
  unfold operand
  split
  · exact hsigned
  · exact hsigned
  · exact reports_power hinner c hc

theorem stepReports_productStep :
    StepReports tokens setting.disallowed (productStep setting inner) := by
  intro left c hc
  have hoperand := reports_operand hinner _ (Cursor.rest_advance_subset hc)
  unfold productStep
  split
  · refine hoperand.bind fun x hx ↦ .ok ?_
    rintro _ ⟨rfl⟩
    exact hx
  · refine hoperand.bind fun x hx ↦ .ok ?_
    rintro _ ⟨rfl⟩
    exact hx
  · exact .ok nofun

theorem reports_product : ReaderReports tokens setting.disallowed (product setting inner) :=
  fun c hc ↦ (reports_operand hinner c hc).bind fun x hx ↦
    reports_chain (stepReports_productStep hinner) x.1 x.2 hx

theorem reports_implicitProduct :
    ReaderReports tokens setting.disallowed (implicitProduct setting inner) :=
  fun c hc ↦ (reports_implicitFactor hinner c hc).bind fun x hx ↦
    reports_chain (stepReports_productStep hinner) x.1 x.2 hx

theorem reports_summand : ReaderReports tokens setting.disallowed (summand setting inner) :=
  reports_implicitChain (reports_product hinner) (reports_implicitProduct hinner)

theorem stepReports_sumStep : StepReports tokens setting.disallowed (sumStep setting inner) := by
  intro left c hc
  have hsummand := reports_summand hinner _ (Cursor.rest_advance_subset hc)
  unfold sumStep
  split
  · refine hsummand.bind fun x hx ↦ .ok ?_
    rintro _ ⟨rfl⟩
    exact hx
  · refine hsummand.bind fun x hx ↦ .ok ?_
    rintro _ ⟨rfl⟩
    exact hx
  · exact .ok nofun

theorem reports_sum : ReaderReports tokens setting.disallowed (sum setting inner) :=
  fun c hc ↦ (reports_summand hinner c hc).bind fun x hx ↦
    reports_chain (stepReports_sumStep hinner) x.1 x.2 hx

theorem reports_level (phrase : Phrase) :
    ReaderReports tokens setting.disallowed (level setting inner phrase) := by
  cases phrase with
  | expression => exact reports_sum hinner
  | signedOperand => exact .signed hinner _ (reports_signedProduct hinner)
  | exponent => exact .signed hinner _ (reports_power hinner)
  | rootOperand => exact .signed hinner _ (reports_rootOrPrimary hinner)

end level

/-- A nested phrase reports only the letters of its setting, at every limit. -/
theorem reports_nested (tokens : List Token) (setting : Setting) (limit : Nat) (phrase : Phrase) :
    ReaderReports tokens setting.disallowed (nested setting limit phrase) := by
  induction limit generalizing phrase with
  | zero => exact fun _ _ ↦ reports_violation _
  | succ limit ih => exact reports_level ih phrase

end Grammar

/-! ## Whole texts -/

/-- A reading of tokens reports the letters among them that belong to no name. -/
theorem Expr.reports_ofTokens (algebraic : Bool) (strictness : Strictness) (limit : Nat)
    (tokens : List Token) :
    Grammar.Reports tokens (Token.disallowedNames tokens) (fun _ ↦ True)
      (ofTokens algebraic strictness limit tokens) := by
  have hlenient : Grammar.Reports tokens (Token.disallowedNames tokens) (fun _ ↦ True)
      (ofTokensLenient algebraic limit tokens) := by
    unfold ofTokensLenient
    split
    · exact .other nofun
    split
    · exact Grammar.reports_violation _
    refine (Grammar.reports_level (fun phrase ↦ Grammar.reports_nested tokens
      ⟨algebraic, Token.disallowedNames tokens⟩ limit phrase) .expression (.ofTokens tokens)
      (List.Subset.refl tokens)).bind fun x _ ↦ ?_
    dsimp only
    split
    · exact .ok trivial
    · split
      · exact Grammar.reports_violation _
      · exact Grammar.reports_unexpected _
  refine hlenient.bind fun e _ ↦ ?_
  cases strictness with
  | lenient => exact .ok trivial
  | strict =>
    rw [checkStyle]
    cases e.brokenRule? with
    | none => exact .ok trivial
    | some rule => exact .other nofun

end SchoolAlgebra
