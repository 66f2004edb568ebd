import Mathlib
import SchoolAlgebra.Expr.OfText
import SchoolAlgebra.Proofs.Expr.ExactValue
import SchoolAlgebra.Proofs.Grammar.Derivation

/-!
# Soundness of the readers

A reader takes an expression off the tokens only if its nonterminal derives the expression from the
kinds of these tokens. One lemma for each reader rests on the readers of the parts, with the reader
of nested phrases as a parameter.
-/

namespace SchoolAlgebra.Grammar

open Token (Kind)

open SchoolAlgebra.Expr (bind_eq_ok_iff pure_eq_ok_iff)

/-- Whether the reader takes off only expressions that the nonterminal derives. -/
def IsSound (implicitPowers : Bool) (read : Reader) (p : Nonterminal) : Prop :=
  ∀ c e c', read c = .ok (e, c') → Derives implicitPowers p e c.kinds c'.kinds

theorem endsBefore_power {c : Cursor} (h : c.peek ≠ some .caret) :
    Nonterminal.power.endsBefore c.kinds = true := by
  rw [Nonterminal.endsBefore, Bool.not_eq_true', Bool.eq_false_iff, ne_eq, nextIs_beq_iff,
    ← Cursor.peek_eq]
  exact h

section level

variable {setting : Setting} {inner : Phrase → Reader}

theorem kinds_of_closeParen {c c' : Cursor} (h : closeParen c = .ok c') :
    c.kinds = .rightParen :: c'.kinds := by
  unfold closeParen at h
  split at h
  · cases h
  · rename_i token rest hrest
    split at h
    · rename_i hkind
      rw [← Except.ok.inj h]
      exact c.kinds_of_peek (by rw [Cursor.peek, hrest, List.head?_cons, Option.map_some, hkind])
    · cases h

/-! ## One level -/

variable (hinner : ∀ phrase, IsSound setting.implicitPowers (inner phrase) phrase.nonterminal)
include hinner

theorem derives_of_group {c c' : Cursor} {e : Expr} (hpeek : c.peek = some .leftParen)
    (h : group inner c = .ok (e, c')) :
    Derives setting.implicitPowers .atom e c.kinds c'.kinds := by
  unfold group at h
  split at h
  · cases h
  · obtain ⟨⟨body, d⟩, hbody, h⟩ := bind_eq_ok_iff.1 h
    obtain ⟨d', hclose, h⟩ := bind_eq_ok_iff.1 h
    obtain ⟨rfl, rfl⟩ := Prod.mk.inj (pure_eq_ok_iff.1 h)
    have hderives := hinner .expression _ _ _ hbody
    rw [kinds_of_closeParen hclose] at hderives
    rw [c.kinds_of_peek hpeek]
    exact .group hderives

theorem derives_of_call {c c' : Cursor} {e : Expr} {name : String}
    (hpeek : c.peek = some (.function name)) (h : call inner name c = .ok (e, c')) :
    Derives setting.implicitPowers .atom e c.kinds c'.kinds := by
  unfold call at h
  split at h
  · cases h
  · rename_i hname
    split at h
    · cases h
    · rename_i hparen
      rw [not_not] at hname hparen
      obtain ⟨⟨body, d⟩, hbody, h⟩ := bind_eq_ok_iff.1 h
      obtain ⟨d', hclose, h⟩ := bind_eq_ok_iff.1 h
      obtain ⟨rfl, rfl⟩ := Prod.mk.inj (pure_eq_ok_iff.1 h)
      have hderives := hinner .expression _ _ _ hbody
      rw [kinds_of_closeParen hclose] at hderives
      rw [c.kinds_of_peek hpeek, c.advance.kinds_of_peek hparen, hname]
      exact .call hderives

theorem isSound_primary : IsSound setting.implicitPowers (primary setting inner) .atom := by
  intro c e c' h
  unfold primary at h
  split at h
  · cases h
  · rename_i token rest hrest
    have hpeek : c.peek = some token.kind := by
      rw [Cursor.peek, hrest, List.head?_cons, Option.map_some]
    split at h
    case h_1 v hkind =>
      obtain ⟨rfl, rfl⟩ := Prod.mk.inj (Except.ok.inj h)
      rw [c.kinds_of_peek hpeek, hkind]
      exact .integer v _
    case h_2 x hkind =>
      obtain ⟨rfl, rfl⟩ := Prod.mk.inj (Except.ok.inj h)
      rw [c.kinds_of_peek hpeek, hkind]
      exact .real x _
    case h_4 x hkind =>
      obtain ⟨rfl, rfl⟩ := Prod.mk.inj (Except.ok.inj h)
      rw [c.kinds_of_peek hpeek, hkind]
      exact .name x _
    case h_6 hkind => exact derives_of_group hinner (hpeek.trans (congrArg some hkind)) h
    case h_7 name hkind => exact derives_of_call hinner (hpeek.trans (congrArg some hkind)) h
    case h_9 | h_10 | h_11 => split at h <;> cases h
    all_goals cases h

theorem isSound_rootOrPrimary :
    IsSound setting.implicitPowers (rootOrPrimary setting inner) .atom := by
  intro c e c' h
  unfold rootOrPrimary at h
  split at h
  · rename_i hpeek
    split at h
    · cases h
    · obtain ⟨⟨body, d⟩, hbody, h⟩ := bind_eq_ok_iff.1 h
      obtain ⟨rfl, rfl⟩ := Prod.mk.inj (pure_eq_ok_iff.1 h)
      rw [c.kinds_of_peek hpeek]
      exact .root (hinner .rootOperand _ _ _ hbody)
  · exact isSound_primary hinner c e c' h

/-- With its signs read by a nested phrase, a part is sound if it is without them. -/
theorem IsSound.signed {p : Nonterminal} {phrase : Phrase} {unsigned : Reader}
    (hp : p.signOperand? = some phrase.nonterminal)
    (hunsigned : ∀ c e c', unsigned c = .ok (e, c') →
      Derives setting.implicitPowers p e c.kinds c'.kinds) :
    IsSound setting.implicitPowers (signed inner phrase unsigned) p := by
  intro c e c' h
  unfold Grammar.signed at h
  split at h
  · rename_i hpeek
    obtain ⟨⟨body, d⟩, hbody, h⟩ := bind_eq_ok_iff.1 h
    obtain ⟨rfl, rfl⟩ := Prod.mk.inj (pure_eq_ok_iff.1 h)
    rw [c.kinds_of_peek hpeek]
    exact .pos hp (hinner phrase _ _ _ hbody)
  · rename_i hpeek
    obtain ⟨⟨body, d⟩, hbody, h⟩ := bind_eq_ok_iff.1 h
    obtain ⟨rfl, rfl⟩ := Prod.mk.inj (pure_eq_ok_iff.1 h)
    rw [c.kinds_of_peek hpeek]
    exact .neg hp (hinner phrase _ _ _ hbody)
  · exact hunsigned c e c' h

theorem derives_of_withExponent {c c' : Cursor} {base e : Expr} {ks : List Kind}
    (hbase : Derives setting.implicitPowers .atom base ks c.kinds)
    (h : withExponent inner base c = .ok (e, c')) :
    Derives setting.implicitPowers .power e ks c'.kinds := by
  unfold withExponent at h
  split at h
  · rename_i hpeek
    obtain ⟨⟨exponent, d⟩, hexponent, h⟩ := bind_eq_ok_iff.1 h
    obtain ⟨rfl, rfl⟩ := Prod.mk.inj (pure_eq_ok_iff.1 h)
    rw [c.kinds_of_peek hpeek] at hbase
    exact .pow hbase (hinner .exponent _ _ _ hexponent)
  · rename_i hpeek
    obtain ⟨rfl, rfl⟩ := Prod.mk.inj (Except.ok.inj h)
    exact .unit rfl hbase (endsBefore_power hpeek)

theorem isSound_power : IsSound setting.implicitPowers (power setting inner) .power := by
  intro c e c' h
  obtain ⟨⟨base, d⟩, hbase, h⟩ := bind_eq_ok_iff.1 h
  exact derives_of_withExponent hinner (isSound_rootOrPrimary hinner _ _ _ hbase) h

theorem isSound_implicitFactor :
    IsSound setting.implicitPowers (implicitFactor setting inner) .implicitFactor := by
  intro c e c' h
  obtain ⟨⟨base, d⟩, hbase, h⟩ := bind_eq_ok_iff.1 h
  have hatom := isSound_rootOrPrimary hinner _ _ _ hbase
  change (if d.peek = some .caret ∧ ¬setting.implicitPowers = true then _
    else withExponent inner base d) = _ at h
  split at h
  · cases h
  · rename_i hcaret
    cases hpowers : setting.implicitPowers with
    | true => exact .implicitPower rfl (hpowers ▸ derives_of_withExponent hinner hatom h)
    | false =>
      have hpeek : d.peek ≠ some .caret := by simpa [hpowers] using hcaret
      rw [withExponent, if_neg hpeek] at h
      obtain ⟨rfl, rfl⟩ := Prod.mk.inj (Except.ok.inj h)
      exact .unit rfl (hpowers ▸ hatom) (endsBefore_power hpeek)

/-- Whether every step of a chain takes tokens and extends what the nonterminal derives. -/
def IsSoundStep (implicitPowers : Bool)
    (step : Expr → Cursor → Except ParseError (Option (Expr × Cursor))) (p : Nonterminal) : Prop :=
  ∀ left c e c' ks, step left c = .ok (some (e, c')) → Derives implicitPowers p left ks c.kinds →
    Derives implicitPowers p e ks c'.kinds ∧ c'.rest.length < c.rest.length

omit hinner in
/-- A chain of sound steps is derived by its nonterminal, and no step goes on from its end. -/
theorem derives_of_chain {p : Nonterminal}
    {step : Expr → Cursor → Except ParseError (Option (Expr × Cursor))}
    (hstep : IsSoundStep setting.implicitPowers step p) {first e : Expr} {c c' : Cursor}
    {ks : List Kind} (h : chain step first c = .ok (e, c'))
    (hfirst : Derives setting.implicitPowers p first ks c.kinds) :
    Derives setting.implicitPowers p e ks c'.kinds ∧ step e c' = .ok none := by
  fun_induction chain step first c with
  | case1 => cases h
  | case2 first c hnone =>
    obtain ⟨rfl, rfl⟩ := Prod.mk.inj (Except.ok.inj h)
    exact ⟨hfirst, hnone⟩
  | case3 first c next d hsome _ ih => exact ih h (hstep _ _ _ _ _ hsome hfirst).1
  | case4 first c next d hsome hlength =>
    exact absurd (hstep _ _ _ _ _ hsome hfirst).2 hlength

omit hinner in
theorem isSoundStep_implicitStep {p q : Nonterminal} {factor : Reader}
    (hp : p.implicitOperand? = some q) (hfactor : IsSound setting.implicitPowers factor q) :
    IsSoundStep setting.implicitPowers (implicitStep factor) p := by
  intro left c e c' ks h hleft
  unfold implicitStep at h
  split at h
  · rename_i hnext
    obtain ⟨⟨right, d⟩, hright, h⟩ := bind_eq_ok_iff.1 h
    obtain ⟨rfl, rfl⟩ := Prod.mk.inj (Option.some.inj (pure_eq_ok_iff.1 h))
    have hderives := hfactor _ _ _ hright
    rw [← Cursor.nextIs_kinds] at hnext
    refine ⟨.implicitMul hp hleft hnext hderives, ?_⟩
    rw [← Cursor.length_kinds, ← Cursor.length_kinds]
    exact hderives.length_lt
  · cases h

omit hinner in
theorem nextIs_eq_false_of_implicitStep {factor : Reader} {left : Expr} {c : Cursor}
    (h : implicitStep factor left c = .ok none) :
    nextIs Kind.startsImplicitFactor c.kinds = false := by
  unfold implicitStep at h
  split at h
  · obtain ⟨_, _, h⟩ := bind_eq_ok_iff.1 h
    cases h
  · rename_i hnext
    rw [Cursor.nextIs_kinds]
    exact Bool.eq_false_iff.2 hnext

omit hinner in
theorem nextIs_eq_false_of_rejectNumber {c : Cursor} (h : rejectNumber c = .ok ()) :
    nextIs Kind.isNumber c.kinds = false := by
  unfold rejectNumber at h
  split at h
  · split at h
    · cases h
    · split at h <;> cases h
    · cases h
  · rename_i hnext
    rw [Cursor.nextIs_kinds]
    exact Bool.eq_false_iff.2 hnext

omit hinner in
/-- An implicit product that ends where no factor and no number follows. -/
theorem derives_of_implicitChain {p q closed : Nonterminal} {factor : Reader}
    (hp : p.implicitOperand? = some q) (hclosed : closed.unit? = some p)
    (hends : ∀ ks, nextIs Kind.startsImplicitFactor ks = false → nextIs Kind.isNumber ks = false →
      closed.endsBefore ks = true)
    (hfactor : IsSound setting.implicitPowers factor q) {first e : Expr} {c c' : Cursor}
    {ks : List Kind} (hfirst : Derives setting.implicitPowers p first ks c.kinds)
    (h : (do
      let (e, c) ← chain (implicitStep factor) first c
      rejectNumber c
      return (e, c)) = .ok (e, c')) :
    Derives setting.implicitPowers closed e ks c'.kinds := by
  obtain ⟨⟨e, d⟩, hchain, h⟩ := bind_eq_ok_iff.1 h
  obtain ⟨_, hreject, h⟩ := bind_eq_ok_iff.1 h
  obtain ⟨rfl, rfl⟩ := Prod.mk.inj (pure_eq_ok_iff.1 h)
  obtain ⟨hderives, hstop⟩ := derives_of_chain (isSoundStep_implicitStep hp hfactor) hchain hfirst
  exact .unit hclosed hderives
    (hends _ (nextIs_eq_false_of_implicitStep hstop) (nextIs_eq_false_of_rejectNumber hreject))

theorem isSound_signedProduct :
    IsSound setting.implicitPowers (signedProduct setting inner) .signedProduct := by
  intro c e c' h
  obtain ⟨⟨first, d⟩, hfirst, h⟩ := bind_eq_ok_iff.1 h
  have hpower := isSound_power hinner _ _ _ hfirst
  exact derives_of_implicitChain rfl rfl (fun ks hfactor hnumber ↦ by
    rw [Nonterminal.endsBefore, hfactor, hnumber]; rfl) (isSound_implicitFactor hinner)
    (.unit (p := .signedChain) rfl hpower rfl) h

theorem isSound_operand : IsSound setting.implicitPowers (operand setting inner) .operand := by
  have hpower : ∀ c e c', power setting inner c = .ok (e, c') →
      Derives setting.implicitPowers .operand e c.kinds c'.kinds :=
    fun _ _ _ h ↦ .unit rfl (isSound_power hinner _ _ _ h) rfl
  intro c e c' h
  unfold operand at h
  split at h
  case h_3 => exact hpower c e c' h
  all_goals
    rename_i hpeek
    rw [signed, hpeek] at h
    obtain ⟨⟨body, d⟩, hbody, h⟩ := bind_eq_ok_iff.1 h
    obtain ⟨rfl, rfl⟩ := Prod.mk.inj (pure_eq_ok_iff.1 h)
    rw [c.kinds_of_peek hpeek]
  · exact .pos rfl (hinner .signedOperand _ _ _ hbody)
  · exact .neg rfl (hinner .signedOperand _ _ _ hbody)

theorem isSoundStep_productStep {p : Nonterminal} (hp : p.isProductChain = true) :
    IsSoundStep setting.implicitPowers (productStep setting inner) p := by
  intro left c e c' ks h hleft
  unfold productStep at h
  split at h
  case h_3 => cases h
  all_goals
    rename_i hpeek
    obtain ⟨⟨right, d⟩, hright, h⟩ := bind_eq_ok_iff.1 h
    obtain ⟨rfl, rfl⟩ := Prod.mk.inj (Option.some.inj (pure_eq_ok_iff.1 h))
    have hderives := isSound_operand hinner _ _ _ hright
    have hlength := hderives.length_lt
    rw [c.kinds_of_peek hpeek] at hleft
    rw [← Cursor.length_kinds, ← Cursor.length_kinds, c.kinds_of_peek hpeek, List.length_cons]
  · exact ⟨.mul hp hleft hderives, hlength.trans (Nat.lt_succ_self _)⟩
  · exact ⟨.div hp hleft hderives, hlength.trans (Nat.lt_succ_self _)⟩

omit hinner in
theorem nextIs_eq_false_of_productStep {left : Expr} {c : Cursor}
    (h : productStep setting inner left c = .ok none) : nextIs isProductSign c.kinds = false := by
  unfold productStep at h
  split at h
  case h_3 htimes hdividedBy =>
    rw [Cursor.nextIs_kinds]
    cases hpeek : c.peek with
    | none => rfl
    | some k =>
      cases k with
      | times => exact absurd hpeek htimes
      | dividedBy => exact absurd hpeek hdividedBy
      | _ => rfl
  all_goals
    obtain ⟨_, _, h⟩ := bind_eq_ok_iff.1 h
    cases h

/-- A chain of explicit products and quotients that ends where none of their signs follows. -/
theorem derives_of_productChain {p closed : Nonterminal} (hp : p.isProductChain = true)
    (hclosed : closed.unit? = some p)
    (hends : ∀ ks, nextIs isProductSign ks = false → closed.endsBefore ks = true)
    {first e : Expr} {c c' : Cursor} {ks : List Kind}
    (hfirst : Derives setting.implicitPowers p first ks c.kinds)
    (h : chain (productStep setting inner) first c = .ok (e, c')) :
    Derives setting.implicitPowers closed e ks c'.kinds := by
  obtain ⟨hderives, hstop⟩ := derives_of_chain (isSoundStep_productStep hinner hp) h hfirst
  exact .unit hclosed hderives (hends _ (nextIs_eq_false_of_productStep hstop))

theorem isSound_product : IsSound setting.implicitPowers (product setting inner) .product := by
  intro c e c' h
  obtain ⟨⟨first, d⟩, hfirst, h⟩ := bind_eq_ok_iff.1 h
  have hoperand := isSound_operand hinner _ _ _ hfirst
  exact derives_of_productChain hinner rfl rfl (fun ks hsign ↦ by
    rw [Nonterminal.endsBefore, hsign]; rfl) (.unit (p := .productChain) rfl hoperand rfl) h

theorem isSound_implicitProduct :
    IsSound setting.implicitPowers (implicitProduct setting inner) .implicitProduct := by
  intro c e c' h
  obtain ⟨⟨first, d⟩, hfirst, h⟩ := bind_eq_ok_iff.1 h
  have hfactor := isSound_implicitFactor hinner _ _ _ hfirst
  exact derives_of_productChain hinner rfl rfl (fun ks hsign ↦ by
    rw [Nonterminal.endsBefore, hsign]; rfl) (.unit (p := .implicitChain) rfl hfactor rfl) h

theorem isSound_summand : IsSound setting.implicitPowers (summand setting inner) .summand := by
  intro c e c' h
  obtain ⟨⟨first, d⟩, hfirst, h⟩ := bind_eq_ok_iff.1 h
  have hproduct := isSound_product hinner _ _ _ hfirst
  exact derives_of_implicitChain rfl rfl (fun ks hfactor hnumber ↦ by
    rw [Nonterminal.endsBefore, hfactor, hnumber]; rfl) (isSound_implicitProduct hinner)
    (.unit (p := .summandChain) rfl hproduct rfl) h

theorem isSoundStep_sumStep :
    IsSoundStep setting.implicitPowers (sumStep setting inner) .sumChain := by
  intro left c e c' ks h hleft
  unfold sumStep at h
  split at h
  case h_3 => cases h
  all_goals
    rename_i hpeek
    obtain ⟨⟨right, d⟩, hright, h⟩ := bind_eq_ok_iff.1 h
    obtain ⟨rfl, rfl⟩ := Prod.mk.inj (Option.some.inj (pure_eq_ok_iff.1 h))
    have hderives := isSound_summand hinner _ _ _ hright
    have hlength := hderives.length_lt
    rw [c.kinds_of_peek hpeek] at hleft
    rw [← Cursor.length_kinds, ← Cursor.length_kinds, c.kinds_of_peek hpeek, List.length_cons]
  · exact ⟨.add hleft hderives, hlength.trans (Nat.lt_succ_self _)⟩
  · exact ⟨.sub hleft hderives, hlength.trans (Nat.lt_succ_self _)⟩

omit hinner in
theorem nextIs_eq_false_of_sumStep {left : Expr} {c : Cursor}
    (h : sumStep setting inner left c = .ok none) : nextIs isSign c.kinds = false := by
  unfold sumStep at h
  split at h
  case h_3 hplus hminus =>
    rw [Cursor.nextIs_kinds]
    cases hpeek : c.peek with
    | none => rfl
    | some k =>
      cases k with
      | plus => exact absurd hpeek hplus
      | minus => exact absurd hpeek hminus
      | _ => rfl
  all_goals
    obtain ⟨_, _, h⟩ := bind_eq_ok_iff.1 h
    cases h

theorem isSound_sum : IsSound setting.implicitPowers (sum setting inner) .sum := by
  intro c e c' h
  obtain ⟨⟨first, d⟩, hfirst, h⟩ := bind_eq_ok_iff.1 h
  have hsummand := isSound_summand hinner _ _ _ hfirst
  obtain ⟨hderives, hstop⟩ := derives_of_chain (isSoundStep_sumStep hinner) h
    (.unit (p := .sumChain) rfl hsummand rfl)
  refine .unit rfl hderives ?_
  rw [Nonterminal.endsBefore, nextIs_eq_false_of_sumStep hstop]
  rfl

theorem isSound_level (phrase : Phrase) :
    IsSound setting.implicitPowers (level setting inner phrase) phrase.nonterminal := by
  cases phrase with
  | expression => exact isSound_sum hinner
  | signedOperand =>
    exact .signed hinner rfl fun _ _ _ h ↦ .unit rfl (isSound_signedProduct hinner _ _ _ h) rfl
  | exponent =>
    exact .signed hinner rfl fun _ _ _ h ↦ .unit rfl (isSound_power hinner _ _ _ h) rfl
  | rootOperand =>
    exact .signed hinner rfl fun _ _ _ h ↦ .unit rfl (isSound_rootOrPrimary hinner _ _ _ h) rfl

end level

/-- A nested phrase is sound at every limit. -/
theorem isSound_nested (setting : Setting) (limit : Nat) (phrase : Phrase) :
    IsSound setting.implicitPowers (nested setting limit phrase) phrase.nonterminal := by
  induction limit generalizing phrase with
  | zero =>
    intro c e c' h
    cases h
  | succ limit ih => exact isSound_level ih phrase

end SchoolAlgebra.Grammar

namespace SchoolAlgebra.Expr

/-! ## Whole texts -/

/-- A rule of style may refuse an expression and never changes it. -/
theorem eq_of_checkStyle {strictness : Strictness} {a e : Expr}
    (h : checkStyle strictness a = .ok e) : a = e := by
  cases strictness with
  | lenient => exact Except.ok.inj h
  | strict =>
    unfold checkStyle at h
    cases hrule : a.brokenRule? with
    | none =>
      rw [hrule] at h
      exact Except.ok.inj h
    | some rule =>
      rw [hrule] at h
      cases h

/-- An expression is read only from tokens from which the grammar derives it as a whole. -/
theorem derives_of_ofTokens {algebraic : Bool} {strictness : Strictness} {limit : Nat}
    {tokens : List Token} {e : Expr} (h : ofTokens algebraic strictness limit tokens = .ok e) :
    Grammar.Derives algebraic .sum e (tokens.map (·.kind)) [] := by
  obtain ⟨a, ha, hstyle⟩ := bind_eq_ok_iff.1 h
  rw [← eq_of_checkStyle hstyle]
  unfold ofTokensLenient at ha
  split at ha
  · cases ha
  · split at ha
    · cases ha
    · obtain ⟨⟨b, c⟩, hlevel, hend⟩ := bind_eq_ok_iff.1 ha
      have hderives := Grammar.isSound_level
        (fun phrase ↦ Grammar.isSound_nested ⟨algebraic, _⟩ limit phrase) .expression _ _ _ hlevel
      dsimp only at hend
      split at hend
      · rename_i hrest
        rw [← pure_eq_ok_iff.1 hend]
        rw [Grammar.Cursor.kinds, Grammar.Cursor.kinds, hrest] at hderives
        exact hderives
      · split at hend <;> cases hend

end SchoolAlgebra.Expr
