import Mathlib
import SchoolAlgebra.Proofs.Grammar.Completeness

/-!
# Agreement of readings

Two texts are read side by side, token for token of the same kind, and the second reading may nest
deeper than the first. They take the same steps until the first one meets its limit: both answer
with the same expression, which keeps within the smaller limit, or both fail for the same reason.
One lemma for each reader rests on the readers of the parts, with the two readers of nested phrases
as parameters.
-/

namespace SchoolAlgebra

open Token (Kind)

/-- Whether the error quotes no token, and is no rule of style. -/
def ParseError.isPlain : ParseError → Bool
  | .unexpectedToken _ _ | .optional _ => false
  | _ => true

theorem ParseError.isOptional_of_isPlain {e : ParseError} (h : e.isPlain = true) :
    e.isOptional = false := by
  cases e with
  | optional rule => cases h
  | _ => rfl

namespace Grammar

section outcomes

variable (alike : Token → Token → Prop) {alike' : Token → Token → Prop}

/--
Whether two errors are one, up to the token that they quote. Rules of style are no errors of a
reader.
-/
inductive SameFault : ParseError → ParseError → Prop where
  | same {e : ParseError} (h : e.isPlain = true) : SameFault e e
  | quote {t t' : Token} (h : alike t t') :
      SameFault (.unexpectedToken t.text t.start) (.unexpectedToken t'.text t'.start)

/-- Whether two outcomes are one, unless the first one is that the limit of levels is met. -/
inductive Agree {α β : Type} (related : α → β → Prop) :
    Except ParseError α → Except ParseError β → Prop where
  | ok {a : α} {b : β} (h : related a b) : Agree related (.ok a) (.ok b)
  | error {e e' : ParseError} (h : SameFault alike e e') : Agree related (.error e) (.error e')
  | tooDeep (y : Except ParseError β) : Agree related (.error (.required .nestingTooDeep)) y

variable {alike}

theorem Agree.bind {α β γ δ : Type} {related : α → β → Prop} {related' : γ → δ → Prop}
    {x : Except ParseError α} {y : Except ParseError β} {f : α → Except ParseError γ}
    {g : β → Except ParseError δ} (h : Agree alike related x y)
    (hfg : ∀ a b, related a b → Agree alike related' (f a) (g b)) :
    Agree alike related' (x >>= f) (y >>= g) := by
  cases h with
  | ok hab => exact hfg _ _ hab
  | error hfault => exact .error hfault
  | tooDeep y => exact .tooDeep _

theorem agree_violation {α β : Type} {related : α → β → Prop} (rule : RequiredRule) :
    Agree alike related (violation rule) (violation rule) :=
  .error (.same rfl)

theorem agree_unexpected {α β : Type} {related : α → β → Prop} {t t' : Token} (h : alike t t') :
    Agree alike related (unexpected t) (unexpected t') :=
  .error (.quote h)

/-- Outcomes that agree both ways are one, whether or not the limit of levels is met. -/
theorem Agree.exists_sameFault {α β : Type} {related : α → β → Prop} {related' : β → α → Prop}
    {x : Except ParseError α} {y : Except ParseError β} (h : Agree alike related x y)
    (h' : Agree alike' related' y x) :
    (∃ a b, x = .ok a ∧ y = .ok b ∧ related a b) ∨
      ∃ e e', x = .error e ∧ y = .error e' ∧ (SameFault alike e e' ∨ SameFault alike' e' e) := by
  cases h with
  | ok hab => exact .inl ⟨_, _, rfl, rfl, hab⟩
  | error hfault => exact .inr ⟨_, _, rfl, rfl, .inl hfault⟩
  | tooDeep =>
    cases h' with
    | error hfault => exact .inr ⟨_, _, rfl, rfl, .inr hfault⟩
    | tooDeep => exact .inr ⟨_, _, rfl, rfl, .inl (.same rfl)⟩

/--
Outcomes that agree both ways are equal once their errors are rewritten, if this makes errors equal
that are one.
-/
theorem Agree.mapError_eq {α : Type} {related related' : α → α → Prop} {x y : Except ParseError α}
    {f g : ParseError → ParseError} (h : Agree alike related x y) (h' : Agree alike' related' y x)
    (hrelated : ∀ a b, related a b → a = b)
    (hfault : ∀ e e', SameFault alike e e' ∨ SameFault alike' e' e → f e = g e') :
    x.mapError f = y.mapError g := by
  rcases h.exists_sameFault h' with ⟨a, b, rfl, rfl, hab⟩ | ⟨e, e', rfl, rfl, he⟩
  · rw [hrelated a b hab]
    rfl
  · exact congrArg Except.error (hfault e e' he)

/-- Errors of two parts may be rewritten in each part. -/
theorem mapError_bind {α β : Type} {x y : Except ParseError α} {k l : α → Except ParseError β}
    {f g : ParseError → ParseError} (h : x.mapError f = y.mapError g)
    (hkl : ∀ a, (k a).mapError f = (l a).mapError g) :
    (x >>= k).mapError f = (y >>= l).mapError g := by
  cases x with
  | error e =>
    cases y with
    | error e' => exact congrArg Except.error (Except.error.inj h)
    | ok b => cases h
  | ok a =>
    cases y with
    | error e' => cases h
    | ok b =>
      cases h
      exact hkl a

/-- No reader answers with a rule of style. -/
theorem Agree.isOptional_eq_false {α β : Type} {related : α → β → Prop} {e : ParseError}
    {y : Except ParseError β} (h : Agree alike related (.error e : Except ParseError α) y) :
    e.isOptional = false := by
  cases h with
  | error hfault =>
    cases hfault with
    | same hplain => exact ParseError.isOptional_of_isPlain hplain
    | quote => rfl
  | tooDeep => rfl

end outcomes

section places

variable (alike : Token → Token → Prop)

/-- Whether the tokens are alike and stand for the same. -/
def SameKind (t t' : Token) : Prop := t.kind = t'.kind ∧ alike t t'

/-- Whether tokens that are alike lie ahead of two places, behind tokens of one kind. -/
structure Cursor.Alike (c c' : Cursor) : Prop where
  previous : c.previous = c'.previous
  rest : List.Forall₂ (SameKind alike) c.rest c'.rest

/-- Whether two readings took the same expression, nested less deep than the bound. -/
def ReadAlike (bound : Nat) (x y : Expr × Cursor) : Prop :=
  x.1 = y.1 ∧ x.1.nesting < bound ∧ x.2.Alike alike y.2

/-- Whether two readers agree from any two places that are alike. -/
def ReadersAgree (bound : Nat) (read read' : Reader) : Prop :=
  ∀ c c', c.Alike alike c' → Agree alike (ReadAlike alike bound) (read c) (read' c')

variable {alike} {bound : Nat} {c c' : Cursor}

theorem sameKind_refl (tokens : List Token) : List.Forall₂ (SameKind Eq) tokens tokens :=
  List.forall₂_same.2 fun _ _ ↦ ⟨rfl, rfl⟩

theorem Cursor.Alike.advance (hc : c.Alike alike c') : c.advance.Alike alike c'.advance := by
  obtain ⟨previous, rest⟩ := c
  obtain ⟨previous', rest'⟩ := c'
  obtain ⟨hprevious, hrest⟩ := hc
  cases hrest with
  | nil => exact ⟨hprevious, .nil⟩
  | cons htoken hrest => exact ⟨congrArg some htoken.1, hrest⟩

theorem Cursor.Alike.peek_eq (hc : c.Alike alike c') : c'.peek = c.peek := by
  obtain ⟨previous, rest⟩ := c
  obtain ⟨previous', rest'⟩ := c'
  obtain ⟨hprevious, hrest⟩ := hc
  cases hrest with
  | nil => rfl
  | cons htoken hrest => exact congrArg some htoken.1.symm

theorem map_kind_eq {tokens tokens' : List Token}
    (h : List.Forall₂ (SameKind alike) tokens tokens') :
    tokens.map (·.kind) = tokens'.map (·.kind) := by
  induction h with
  | nil => rfl
  | cons htoken _ ih => exact congrArg₂ List.cons htoken.1 ih

theorem isEmpty_eq_of_forall₂ {tokens tokens' : List Token}
    (h : List.Forall₂ (SameKind alike) tokens tokens') : tokens'.isEmpty = tokens.isEmpty := by
  rw [Bool.eq_iff_iff, List.isEmpty_iff_length_eq_zero, List.isEmpty_iff_length_eq_zero,
    h.length_eq]

theorem Cursor.Alike.isEmpty_eq (hc : c.Alike alike c') : c'.rest.isEmpty = c.rest.isEmpty :=
  isEmpty_eq_of_forall₂ hc.rest

/-- Readings that agree may be taken to answer with one expression. -/
theorem Agree.bindReading {γ δ : Type} {related : γ → δ → Prop} {x y : Reading}
    {f : Expr × Cursor → Except ParseError γ} {g : Expr × Cursor → Except ParseError δ}
    (h : Agree alike (ReadAlike alike bound) x y)
    (hfg : ∀ e d d', e.nesting < bound → d.Alike alike d' →
      Agree alike related (f (e, d)) (g (e, d'))) :
    Agree alike related (x >>= f) (y >>= g) := by
  refine h.bind ?_
  rintro ⟨e, d⟩ ⟨e', d'⟩ ⟨rfl, hnesting, hd⟩
  exact hfg e d d' hnesting hd

end places

section chain

variable {alike : Token → Token → Prop} {bound : Nat}

/-- Whether two steps of a chain agree from any two places that are alike. -/
def StepsAgree (alike : Token → Token → Prop) (bound : Nat)
    (step step' : Expr → Cursor → Except ParseError (Option (Expr × Cursor))) : Prop :=
  ∀ left c c', left.nesting < bound → c.Alike alike c' →
    Agree alike (Option.Rel (ReadAlike alike bound)) (step left c) (step' left c')

/-- Chains agree if their steps do. -/
theorem agree_chain {step step' : Expr → Cursor → Except ParseError (Option (Expr × Cursor))}
    (hstep : StepsAgree alike bound step step') {first : Expr} {c c' : Cursor}
    (hfirst : first.nesting < bound) (hc : c.Alike alike c') :
    Agree alike (ReadAlike alike bound) (chain step first c) (chain step' first c') := by
  induction hn : c.rest.length using Nat.strong_induction_on generalizing first c c' with
  | _ n ih =>
    have hagree := hstep first c c' hfirst hc
    rw [chain.eq_def step, chain.eq_def step']
    generalize step first c = x at hagree ⊢
    generalize step' first c' = y at hagree ⊢
    cases hagree with
    | error hfault => exact .error hfault
    | tooDeep => exact .tooDeep _
    | ok hrel =>
      cases hrel with
      | none => exact .ok ⟨rfl, hfirst, hc⟩
      | @some a b hread =>
        obtain ⟨next, d⟩ := a
        obtain ⟨next', d'⟩ := b
        obtain ⟨rfl, hnext, hd⟩ := hread
        dsimp only
        rw [← hc.rest.length_eq, ← hd.rest.length_eq]
        split
        · rename_i hlength
          exact ih _ (hn ▸ hlength) hnext hd rfl
        · exact .ok ⟨rfl, hnext, hd⟩

end chain

/-! ## One level -/

section level

variable {alike : Token → Token → Prop} {bound : Nat} {setting : Setting}
  {inner inner' : Phrase → Reader} {c c' : Cursor}

theorem agree_closeParen (hc : c.Alike alike c') :
    Agree alike (Cursor.Alike alike) (closeParen c) (closeParen c') := by
  have hadvance := hc.advance
  obtain ⟨previous, rest⟩ := c
  obtain ⟨previous', rest'⟩ := c'
  obtain ⟨hprevious, hrest⟩ := hc
  cases hrest with
  | nil => exact agree_violation _
  | cons htoken hrest =>
    simp only [closeParen, htoken.1]
    split
    · exact .ok hadvance
    · exact agree_unexpected htoken.2

theorem agree_rejectNumber (hc : c.Alike alike c') :
    Agree alike (fun _ _ ↦ True) (rejectNumber c) (rejectNumber c') := by
  rw [rejectNumber, rejectNumber, hc.peek_eq, hc.previous]
  split
  · split
    · exact agree_violation _
    · split <;> exact agree_violation _
    · exact agree_violation _
  · exact .ok trivial

variable (hinner : ∀ phrase, ReadersAgree alike bound (inner phrase) (inner' phrase))
include hinner

theorem agree_group : ReadersAgree alike (bound + 1) (group inner) (group inner') := by
  intro c c' hc
  have hadvance := hc.advance
  rw [group, group, hadvance.isEmpty_eq]
  split
  · exact agree_violation _
  · exact (hinner .expression _ _ hadvance).bindReading fun e d d' hnesting hd ↦
      (agree_closeParen hd).bind fun _ _ hclose ↦
        .ok ⟨rfl, Nat.succ_lt_succ hnesting, hclose⟩

theorem agree_call (name : String) :
    ReadersAgree alike (bound + 1) (call inner name) (call inner' name) := by
  intro c c' hc
  have hadvance := hc.advance
  rw [call, call, hadvance.peek_eq]
  split
  · exact .error (.same rfl)
  · split
    · exact agree_violation _
    · exact (hinner .expression _ _ hadvance.advance).bindReading fun e d d' hnesting hd ↦
        (agree_closeParen hd).bind fun _ _ hclose ↦
          .ok ⟨rfl, Nat.succ_lt_succ hnesting, hclose⟩

theorem agree_primary :
    ReadersAgree alike (bound + 1) (primary setting inner) (primary setting inner') := by
  intro c c' hc
  have hadvance := hc.advance
  have hgroup := agree_group hinner c c' hc
  have hcall := fun name ↦ agree_call hinner name c c' hc
  obtain ⟨previous, rest⟩ := c
  obtain ⟨previous', rest'⟩ := c'
  obtain ⟨rfl, hrest⟩ := hc
  cases hrest with
  | nil => exact agree_violation _
  | @cons t t' _ _ htoken hrest =>
    simp only [primary, htoken.1]
    cases t'.kind with
    | integer v => exact .ok ⟨rfl, Nat.succ_pos _, hadvance⟩
    | real x => exact .ok ⟨rfl, Nat.succ_pos _, hadvance⟩
    | name x => exact .ok ⟨rfl, Nat.succ_pos _, hadvance⟩
    | leftParen => exact hgroup
    | function name => exact hcall name
    | integerTooLarge | rightParen => exact agree_violation _
    | unresolved => exact .error (.same rfl)
    | times | dividedBy | caret => dsimp only; split <;> exact agree_violation _
    | plus | minus | rootSign | equals | invalid => exact agree_unexpected htoken.2

theorem agree_rootOrPrimary :
    ReadersAgree alike (bound + 1) (rootOrPrimary setting inner)
      (rootOrPrimary setting inner') := by
  intro c c' hc
  have hadvance := hc.advance
  rw [rootOrPrimary, rootOrPrimary, hc.peek_eq, hadvance.isEmpty_eq]
  split
  · split
    · exact agree_violation _
    · exact (hinner .rootOperand _ _ hadvance).bindReading fun e d d' hnesting hd ↦
        .ok ⟨rfl, Nat.succ_lt_succ hnesting, hd⟩
  · exact agree_primary hinner c c' hc

/-- With its signs read by nested phrases that agree, a part agrees if it does without them. -/
theorem ReadersAgree.signed {unsigned unsigned' : Reader} (phrase : Phrase)
    (hunsigned : ReadersAgree alike (bound + 1) unsigned unsigned') :
    ReadersAgree alike (bound + 1) (signed inner phrase unsigned)
      (signed inner' phrase unsigned') := by
  intro c c' hc
  have hphrase := hinner phrase _ _ hc.advance
  rw [Grammar.signed, Grammar.signed, hc.peek_eq]
  split
  · exact hphrase.bindReading fun e d d' hnesting hd ↦
      .ok ⟨rfl, Nat.succ_lt_succ hnesting, hd⟩
  · exact hphrase.bindReading fun e d d' hnesting hd ↦
      .ok ⟨rfl, Nat.succ_lt_succ hnesting, hd⟩
  · exact hunsigned c c' hc

theorem agree_withExponent {base : Expr} (hbase : base.nesting < bound + 1)
    (hc : c.Alike alike c') :
    Agree alike (ReadAlike alike (bound + 1)) (withExponent inner base c)
      (withExponent inner' base c') := by
  rw [withExponent, withExponent, hc.peek_eq]
  split
  · exact (hinner .exponent _ _ hc.advance).bindReading fun e d d' hnesting hd ↦
      .ok ⟨rfl, max_lt hbase (Nat.succ_lt_succ hnesting), hd⟩
  · exact .ok ⟨rfl, hbase, hc⟩

theorem agree_power :
    ReadersAgree alike (bound + 1) (power setting inner) (power setting inner') := by
  intro c c' hc
  exact (agree_rootOrPrimary hinner c c' hc).bindReading fun base d d' hbase hd ↦
    agree_withExponent hinner hbase hd

theorem agree_implicitFactor :
    ReadersAgree alike (bound + 1) (implicitFactor setting inner)
      (implicitFactor setting inner') := by
  intro c c' hc
  refine (agree_rootOrPrimary hinner c c' hc).bind ?_
  rintro ⟨base, d⟩ ⟨base', d'⟩ ⟨rfl, hbase, hd⟩
  dsimp only
  rw [hd.peek_eq]
  split
  · exact agree_violation _
  · exact agree_withExponent hinner hbase hd

omit hinner in
theorem stepsAgree_implicitStep {factor factor' : Reader}
    (hfactor : ReadersAgree alike bound factor factor') :
    StepsAgree alike bound (implicitStep factor) (implicitStep factor') := by
  intro left c c' hleft hc
  rw [implicitStep, implicitStep, hc.peek_eq]
  split
  · exact (hfactor c c' hc).bindReading fun right d d' hright hd ↦
      .ok (.some ⟨rfl, max_lt hleft hright, hd⟩)
  · exact .ok .none

omit hinner in
/-- Implicit products agree if their first parts and their factors do. -/
theorem agree_implicitChain {first first' factor factor' : Reader}
    (hfirst : ReadersAgree alike bound first first')
    (hfactor : ReadersAgree alike bound factor factor') :
    ReadersAgree alike bound
      (fun c ↦ do
        let (first, c) ← first c
        let (e, c) ← chain (implicitStep factor) first c
        rejectNumber c
        return (e, c))
      (fun c ↦ do
        let (first, c) ← first' c
        let (e, c) ← chain (implicitStep factor') first c
        rejectNumber c
        return (e, c)) := by
  intro c c' hc
  refine (hfirst c c' hc).bind ?_
  rintro ⟨first, d⟩ ⟨first', d'⟩ ⟨rfl, hnesting, hd⟩
  exact (agree_chain (stepsAgree_implicitStep hfactor) hnesting hd).bindReading
    fun e d d' hnesting hd ↦ (agree_rejectNumber hd).bind fun _ _ _ ↦ .ok ⟨rfl, hnesting, hd⟩

theorem agree_signedProduct :
    ReadersAgree alike (bound + 1) (signedProduct setting inner) (signedProduct setting inner') :=
  agree_implicitChain (agree_power hinner) (agree_implicitFactor hinner)

theorem agree_operand :
    ReadersAgree alike (bound + 1) (operand setting inner) (operand setting inner') := by
  intro c c' hc
  have hproduct : ReadersAgree alike (bound + 1) (signedProduct setting inner) _ :=
    agree_signedProduct hinner
  have hsigned := ReadersAgree.signed hinner .signedOperand hproduct c c' hc
  rw [operand, operand, hc.peek_eq]
  split
  · exact hsigned
  · exact hsigned
  · exact agree_power hinner c c' hc

theorem stepsAgree_productStep :
    StepsAgree alike (bound + 1) (productStep setting inner) (productStep setting inner') := by
  intro left c c' hleft hc
  have hoperand : Agree alike _ (operand setting inner c.advance) _ :=
    agree_operand hinner _ _ hc.advance
  rw [productStep, productStep, hc.peek_eq]
  split
  · exact hoperand.bindReading fun right d d' hright hd ↦
      .ok (.some ⟨rfl, max_lt hleft hright, hd⟩)
  · exact hoperand.bindReading fun right d d' hright hd ↦
      .ok (.some ⟨rfl, max_lt hleft hright, hd⟩)
  · exact .ok .none

theorem agree_product :
    ReadersAgree alike (bound + 1) (product setting inner) (product setting inner') := by
  intro c c' hc
  exact (agree_operand hinner c c' hc).bindReading fun first d d' hfirst hd ↦
    agree_chain (stepsAgree_productStep hinner) hfirst hd

theorem agree_implicitProduct :
    ReadersAgree alike (bound + 1) (implicitProduct setting inner)
      (implicitProduct setting inner') := by
  intro c c' hc
  exact (agree_implicitFactor hinner c c' hc).bindReading fun first d d' hfirst hd ↦
    agree_chain (stepsAgree_productStep hinner) hfirst hd

theorem agree_summand :
    ReadersAgree alike (bound + 1) (summand setting inner) (summand setting inner') :=
  agree_implicitChain (agree_product hinner) (agree_implicitProduct hinner)

theorem stepsAgree_sumStep :
    StepsAgree alike (bound + 1) (sumStep setting inner) (sumStep setting inner') := by
  intro left c c' hleft hc
  have hsummand : Agree alike _ (summand setting inner c.advance) _ :=
    agree_summand hinner _ _ hc.advance
  rw [sumStep, sumStep, hc.peek_eq]
  split
  · exact hsummand.bindReading fun right d d' hright hd ↦
      .ok (.some ⟨rfl, max_lt hleft hright, hd⟩)
  · exact hsummand.bindReading fun right d d' hright hd ↦
      .ok (.some ⟨rfl, max_lt hleft hright, hd⟩)
  · exact .ok .none

theorem agree_sum : ReadersAgree alike (bound + 1) (sum setting inner) (sum setting inner') := by
  intro c c' hc
  exact (agree_summand hinner c c' hc).bindReading fun first d d' hfirst hd ↦
    agree_chain (stepsAgree_sumStep hinner) hfirst hd

theorem agree_level (phrase : Phrase) :
    ReadersAgree alike (bound + 1) (level setting inner phrase) (level setting inner' phrase) := by
  cases phrase with
  | expression => exact agree_sum hinner
  | signedOperand => exact .signed hinner _ (agree_signedProduct hinner)
  | exponent => exact .signed hinner _ (agree_power hinner)
  | rootOperand => exact .signed hinner _ (agree_rootOrPrimary hinner)

end level

/-- A nested phrase is read within two limits in the same way, until it meets the smaller one. -/
theorem agree_nested {alike : Token → Token → Prop} (setting : Setting) {limit limit' : Nat}
    (hlimit : limit ≤ limit') (phrase : Phrase) :
    ReadersAgree alike limit (nested setting limit phrase) (nested setting limit' phrase) := by
  induction limit generalizing limit' phrase with
  | zero => exact fun _ _ _ ↦ .tooDeep _
  | succ limit ih =>
    obtain ⟨limit', rfl⟩ := Nat.exists_eq_add_of_le' (Nat.le_of_add_left_le hlimit)
    exact agree_level (ih (Nat.le_of_add_le_add_right hlimit)) phrase

end Grammar

/-! ## Whole texts -/

/-- The letters of the kind that belong to no name. -/
def Token.Kind.strayLetters : Kind → List String
  | .unresolved letters => letters.toList.map String.singleton
  | _ => []

/-- The names to report depend on the kinds of the tokens only. -/
theorem Token.disallowedNames_eq (tokens : List Token) :
    disallowedNames tokens = ((tokens.map (·.kind)).flatMap Kind.strayLetters).foldl
      (fun names letter ↦ if letter ∈ names then names else names ++ [letter]) [] := by
  rw [List.flatMap_map]
  rfl

/--
Two sequences of tokens of the same kinds are read within two limits in the same way, unless the
smaller limit is met.
-/
theorem Expr.agree_ofTokensLenient {alike : Token → Token → Prop} (algebraic : Bool)
    {limit limit' : Nat} (hlimit : limit ≤ limit') {tokens tokens' : List Token}
    (h : List.Forall₂ (Grammar.SameKind alike) tokens tokens') :
    Grammar.Agree alike (fun e e' ↦ e = e' ∧ e.nesting ≤ limit)
      (ofTokensLenient algebraic limit tokens) (ofTokensLenient algebraic limit' tokens') := by
  rw [ofTokensLenient, ofTokensLenient, Grammar.isEmpty_eq_of_forall₂ h, ← h.length_eq,
    Token.disallowedNames_eq tokens, Token.disallowedNames_eq tokens', Grammar.map_kind_eq h]
  split
  · exact .error (.same rfl)
  split
  · exact Grammar.agree_violation _
  refine (Grammar.agree_level (fun phrase ↦ Grammar.agree_nested _ hlimit phrase) .expression
    (.ofTokens tokens) (.ofTokens tokens') ⟨rfl, h⟩).bindReading fun e d d' hnesting hd ↦ ?_
  obtain ⟨previous, rest⟩ := d
  obtain ⟨previous', rest'⟩ := d'
  cases hd.rest with
  | nil => exact .ok ⟨rfl, Nat.le_of_lt_succ hnesting⟩
  | cons htoken _ =>
    dsimp only
    rw [htoken.1]
    split
    · exact Grammar.agree_violation _
    · exact Grammar.agree_unexpected htoken.2

end SchoolAlgebra
