import Mathlib
import SchoolAlgebra.Expr.OfText
import SchoolAlgebra.Proofs.Grammar.Derivation

/-!
# Completeness of the readers

What the grammar derives is read. Where a nonterminal derives an expression from the kinds ahead of
a cursor, its reader answers with the expression, provided that the limit of levels admits the
nesting of the expression. A chain that is still open is read up to its end so far: its reader goes
on from there as the chain does.
-/

namespace SchoolAlgebra

/--
The levels of nesting in the expression. The operand of a sign or root, the inside of a group and an
exponent lie one level below.
-/
def Expr.nesting : Expr → Nat
  | constant _ | var _ => 0
  | add a b | sub a b | mul a b | div a b => max a.nesting b.nesting
  | pow a b => max a.nesting (b.nesting + 1)
  | neg a | pos a | group a | sqrt a => a.nesting + 1

namespace Grammar

open Token (Kind)

section

variable (setting : Setting) (inner : Phrase → Reader)

/-- The reader of the nonterminal, for a chain that of its close. -/
def readerOf : Nonterminal → Reader
  | .atom => rootOrPrimary setting inner
  | .rootOperand => level setting inner .rootOperand
  | .power => power setting inner
  | .exponent => level setting inner .exponent
  | .implicitFactor => implicitFactor setting inner
  | .signedChain | .signedProduct => signedProduct setting inner
  | .signedOperand => level setting inner .signedOperand
  | .operand => operand setting inner
  | .productChain | .product => product setting inner
  | .implicitChain | .implicitProduct => implicitProduct setting inner
  | .summandChain | .summand => summand setting inner
  | .sumChain | .sum => sum setting inner

/-- An implicit product from a place within it, and its end. -/
def finishImplicit (factor : Reader) (e : Expr) : Reader := fun c ↦ do
  let (e, c) ← chain (implicitStep factor) e c
  rejectNumber c
  return (e, c)

/-- What the reader of the nonterminal has still to do once the expression is taken. -/
def finish : Nonterminal → Expr → Reader
  | .signedChain, e => finishImplicit (implicitFactor setting inner) e
  | .productChain, e | .implicitChain, e => chain (productStep setting inner) e
  | .summandChain, e => finishImplicit (implicitProduct setting inner) e
  | .sumChain, e => chain (sumStep setting inner) e
  | _, e => fun c ↦ .ok (e, c)

theorem finish_nonterminal (phrase : Phrase) (e : Expr) (c : Cursor) :
    finish setting inner phrase.nonterminal e c = .ok (e, c) := by
  cases phrase <;> rfl

theorem finish_of_isProductChain {p : Nonterminal} (hp : p.isProductChain = true)
    (inner : Phrase → Reader) (e : Expr) :
    finish setting inner p e = chain (productStep setting inner) e := by
  cases p with
  | productChain | implicitChain => rfl
  | _ => cases hp

theorem readerOf_nonterminal (phrase : Phrase) :
    readerOf setting inner phrase.nonterminal = level setting inner phrase := by
  cases phrase <;> rfl

end

theorem Cursor.exists_of_kinds {c : Cursor} {k : Kind} {ks : List Kind} (h : c.kinds = k :: ks) :
    ∃ token rest, c.rest = token :: rest ∧ token.kind = k ∧ c.peek = some k ∧
      c.advance.kinds = ks := by
  obtain ⟨token, rest, hrest, hkind, -⟩ := List.map_eq_cons_iff.1 h
  exact ⟨token, rest, hrest, hkind, by rw [peek_eq, h]; rfl, by rw [kinds_advance, h]; rfl⟩

theorem Cursor.peek_ne_of_nextIs {c : Cursor} {condition : Kind → Bool} {k : Kind}
    (h : nextIs condition c.kinds = false) (hk : condition k = true) : c.peek ≠ some k := by
  intro hpeek
  rw [nextIs_kinds, hpeek] at h
  exact Bool.false_ne_true (h.symm.trans hk)

theorem Cursor.isEmpty_rest {c : Cursor} {n : Nat} (h : n < c.kinds.length) :
    c.rest.isEmpty = false := by
  rw [List.isEmpty_eq_false_iff, ← List.length_pos_iff, ← length_kinds]
  exact Nat.zero_lt_of_lt h

theorem bind_of_eq_ok {α β : Type} {x : Except ParseError α} {f : α → Except ParseError β} {a : α}
    (h : x = .ok a) : x >>= f = f a := by
  rw [h]
  rfl

section chain

variable {step : Expr → Cursor → Except ParseError (Option (Expr × Cursor))}
  {left next : Expr} {c c' : Cursor}

theorem chain_of_step (h : step left c = .ok (some (next, c')))
    (hlength : c'.kinds.length < c.kinds.length) : chain step left c = chain step next c' := by
  rw [Cursor.length_kinds, Cursor.length_kinds] at hlength
  rw [chain, h]
  exact if_pos hlength

theorem chain_of_stop (h : step left c = .ok none) : chain step left c = .ok (left, c) := by
  rw [chain, h]

end chain

/-- Whether the part starts with no sign. -/
def Nonterminal.isUnsigned : Nonterminal → Bool
  | atom | power | implicitFactor | signedChain | signedProduct => true
  | _ => false

variable {implicitPowers : Bool} {p : Nonterminal} {e : Expr} {ks rest : List Kind}

theorem Derives.nextIs_isSign (h : Derives implicitPowers p e ks rest)
    (hp : p.isUnsigned = true) : nextIs isSign ks = false := by
  induction h with
  | integer | real | name | group | call | root => rfl
  | @pos p _ _ _ _ hsign | @neg p _ _ _ _ hsign => cases p <;> first | cases hsign; done | cases hp
  | pow _ _ iha => exact iha rfl
  | implicitPower _ _ ih => exact ih rfl
  | @implicitMul p _ _ _ _ _ _ _ _ _ _ iha => exact iha hp
  | mul hq _ _ iha | div hq _ _ iha => exact iha hp
  | add | sub => cases hp
  | @unit p q _ _ _ hq _ _ ih =>
    apply ih
    cases p <;> cases hq <;> first | rfl | cases hp

/-! ## Steps of the readers -/

section steps

variable {setting : Setting} {inner : Phrase → Reader} {c c' : Cursor}

theorem signed_of_not_sign {phrase : Phrase} {unsigned : Reader}
    (hc : nextIs isSign c.kinds = false) : signed inner phrase unsigned c = unsigned c := by
  unfold signed
  split
  case h_3 => rfl
  all_goals exact absurd ‹_› (Cursor.peek_ne_of_nextIs hc rfl)

theorem operand_of_not_sign (hc : nextIs isSign c.kinds = false) :
    operand setting inner c = power setting inner c := by
  unfold operand
  split
  case h_3 => rfl
  all_goals exact absurd ‹_› (Cursor.peek_ne_of_nextIs hc rfl)

theorem operand_of_sign {k : Kind} (hc : c.peek = some k) (hk : isSign k = true) :
    operand setting inner c = signed inner .signedOperand (signedProduct setting inner) c := by
  cases k with
  | plus | minus => rw [operand, hc]
  | _ => cases hk

theorem rootOrPrimary_of_peek {k : Kind} (hc : c.peek = some k) (hk : k ≠ .rootSign) :
    rootOrPrimary setting inner c = primary setting inner c := by
  refine if_neg ?_
  rw [hc, Option.some.injEq]
  exact hk

theorem withExponent_of_ends {base : Expr} (hc : nextIs (· == .caret) c.kinds = false) :
    withExponent inner base c = .ok (base, c) :=
  if_neg (Cursor.peek_ne_of_nextIs hc (beq_self_eq_true _))

theorem power_of_base {base : Expr} (h : rootOrPrimary setting inner c = .ok (base, c')) :
    power setting inner c = withExponent inner base c' :=
  bind_of_eq_ok h

theorem implicitFactor_of_base {base : Expr} (h : rootOrPrimary setting inner c = .ok (base, c'))
    (hc : c'.peek = some .caret → setting.implicitPowers = true) :
    implicitFactor setting inner c = withExponent inner base c' :=
  (bind_of_eq_ok h).trans (if_neg fun hcaret ↦ hcaret.2 (hc hcaret.1))

theorem productStep_of_ends {left : Expr} (hc : nextIs isProductSign c.kinds = false) :
    productStep setting inner left c = .ok none := by
  unfold productStep
  split
  case h_3 => rfl
  all_goals exact absurd ‹_› (Cursor.peek_ne_of_nextIs hc rfl)

theorem sumStep_of_ends {left : Expr} (hc : nextIs isSign c.kinds = false) :
    sumStep setting inner left c = .ok none := by
  unfold sumStep
  split
  case h_3 => rfl
  all_goals exact absurd ‹_› (Cursor.peek_ne_of_nextIs hc rfl)

theorem finishImplicit_of_ends {factor : Reader} {e : Expr}
    (hfactor : nextIs Kind.startsImplicitFactor c.kinds = false)
    (hnumber : nextIs Kind.isNumber c.kinds = false) :
    finishImplicit factor e c = .ok (e, c) := by
  rw [Cursor.nextIs_kinds] at hfactor hnumber
  have hstop : implicitStep factor e c = .ok none := by
    rw [implicitStep, hfactor]
    rfl
  have hreject : rejectNumber c = .ok () := by
    rw [rejectNumber, hnumber]
    rfl
  rw [finishImplicit, chain_of_stop hstop]
  change (do rejectNumber c; return (e, c)) = _
  rw [hreject]
  rfl

theorem finishImplicit_of_step {factor : Reader} {left right : Expr}
    (hnext : nextIs Kind.startsImplicitFactor c.kinds = true) (h : factor c = .ok (right, c'))
    (hlength : c'.kinds.length < c.kinds.length) :
    finishImplicit factor left c = finishImplicit factor (.mul left right) c' := by
  have hstep : implicitStep factor left c = .ok (some (.mul left right, c')) := by
    rw [Cursor.nextIs_kinds] at hnext
    rw [implicitStep, hnext, h]
    rfl
  rw [finishImplicit, chain_of_step hstep hlength]
  rfl

end steps

/-! ## Completeness -/

section completeness

variable {setting : Setting}

/--
Whether the reader of the nonterminal takes the expression off the kinds within every limit that
admits its nesting, up to what a chain still has to do.
-/
def IsRead (setting : Setting) (p : Nonterminal) (e : Expr) (ks rest : List Kind) : Prop :=
  ∀ limit c, e.nesting ≤ limit → c.kinds = ks →
    ∃ c', readerOf setting (nested setting limit) p c =
      finish setting (nested setting limit) p e c' ∧ c'.kinds = rest

/-- A nested phrase takes one level more than its nonterminal. -/
theorem IsRead.nested (phrase : Phrase) (h : IsRead setting phrase.nonterminal e ks rest)
    {limit : Nat} {c : Cursor} (hlimit : e.nesting + 1 ≤ limit) (hc : c.kinds = ks) :
    ∃ c', Grammar.nested setting limit phrase c = .ok (e, c') ∧ c'.kinds = rest := by
  obtain ⟨limit, rfl⟩ := Nat.exists_eq_add_of_le' (Nat.le_of_add_left_le hlimit)
  obtain ⟨c', hread, hrest⟩ := h limit c (Nat.le_of_add_le_add_right hlimit) hc
  rw [finish_nonterminal, readerOf_nonterminal] at hread
  exact ⟨c', hread, hrest⟩

/-- A kind that is an atom by itself. -/
theorem isRead_leaf {k : Kind} (hk : k ≠ .rootSign)
    (h : ∀ inner c token tokens, c.rest = token :: tokens → token.kind = k →
      primary setting inner c = .ok (e, c.advance)) :
    IsRead setting .atom e (k :: rest) rest := by
  intro limit c _ hc
  obtain ⟨token, tokens, hrest, hkind, hpeek, hadvance⟩ := Cursor.exists_of_kinds hc
  exact ⟨c.advance, (rootOrPrimary_of_peek hpeek hk).trans (h _ c token tokens hrest hkind),
    hadvance⟩

theorem closeParen_eq_ok {c : Cursor} (hc : c.kinds = .rightParen :: rest) :
    closeParen c = .ok c.advance := by
  obtain ⟨token, tokens, hrest, hkind, -⟩ := Cursor.exists_of_kinds hc
  rw [closeParen, hrest]
  exact if_pos hkind

theorem isRead_group (h : IsRead setting .sum e ks (.rightParen :: rest))
    (hlength : (Kind.rightParen :: rest).length < ks.length) :
    IsRead setting .atom (.group e) (.leftParen :: ks) rest := by
  intro limit c hlimit hc
  obtain ⟨token, tokens, hrest, hkind, hpeek, hadvance⟩ := Cursor.exists_of_kinds hc
  obtain ⟨d, hread, hd⟩ := IsRead.nested .expression h hlimit hadvance
  refine ⟨d.advance, ?_, by rw [Cursor.kinds_advance, hd]; rfl⟩
  have hempty : c.advance.rest.isEmpty = false := Cursor.isEmpty_rest (hadvance ▸ hlength)
  calc rootOrPrimary setting (Grammar.nested setting limit) c
      = primary setting (Grammar.nested setting limit) c :=
        rootOrPrimary_of_peek hpeek nofun
    _ = group (Grammar.nested setting limit) c := by rw [primary, hrest]; simp only [hkind]
    _ = (do return (Expr.group e, ← closeParen d)) := by rw [group, hempty, hread]; rfl
    _ = .ok (.group e, d.advance) := by rw [closeParen_eq_ok hd]; rfl

theorem isRead_call (h : IsRead setting .sum e ks (.rightParen :: rest)) :
    IsRead setting .atom (.sqrt e) (.function Token.rootName :: .leftParen :: ks) rest := by
  intro limit c hlimit hc
  obtain ⟨token, tokens, hrest, hkind, hpeek, hadvance⟩ := Cursor.exists_of_kinds hc
  obtain ⟨_, _, _, _, hparen, hinside⟩ := Cursor.exists_of_kinds hadvance
  obtain ⟨d, hread, hd⟩ := IsRead.nested .expression h hlimit hinside
  refine ⟨d.advance, ?_, by rw [Cursor.kinds_advance, hd]; rfl⟩
  calc rootOrPrimary setting (Grammar.nested setting limit) c
      = primary setting (Grammar.nested setting limit) c :=
        rootOrPrimary_of_peek hpeek nofun
    _ = call (Grammar.nested setting limit) Token.rootName c := by
        rw [primary, hrest]
        simp only [hkind]
    _ = (do return (Expr.sqrt e, ← closeParen d)) := by
        rw [call, if_neg (not_not.2 rfl), if_neg (not_not.2 hparen), hread]
        rfl
    _ = .ok (.sqrt e, d.advance) := by rw [closeParen_eq_ok hd]; rfl

theorem isRead_root (h : IsRead setting .rootOperand e ks rest)
    (hlength : rest.length < ks.length) :
    IsRead setting .atom (.sqrt e) (.rootSign :: ks) rest := by
  intro limit c hlimit hc
  obtain ⟨_, _, _, _, hpeek, hadvance⟩ := Cursor.exists_of_kinds hc
  obtain ⟨d, hread, hd⟩ := IsRead.nested .rootOperand h hlimit hadvance
  have hempty : c.advance.rest.isEmpty = false := Cursor.isEmpty_rest (hadvance ▸ hlength)
  refine ⟨d, ?_, hd⟩
  rw [readerOf, rootOrPrimary, if_pos hpeek, hempty, hread]
  rfl

/-- A sign with its operand is read as the operand of a nested phrase. -/
theorem isRead_signed {q : Nonterminal} {k : Kind} {node : Expr → Expr}
    (hp : p.signOperand? = some q)
    (hread : ∀ inner phrase unsigned c d, c.peek = some k → inner phrase c.advance = .ok (e, d) →
      signed inner phrase unsigned c = .ok (node e, d))
    (hk : isSign k = true) (hnode : (node e).nesting = e.nesting + 1)
    (h : IsRead setting q e ks rest) : IsRead setting p (node e) (k :: ks) rest := by
  intro limit c hlimit hc
  rw [hnode] at hlimit
  obtain ⟨_, _, _, _, hpeek, hadvance⟩ := Cursor.exists_of_kinds hc
  cases p with
  | rootOperand =>
    cases hp
    obtain ⟨d, hinner, hd⟩ := IsRead.nested .rootOperand h hlimit hadvance
    exact ⟨d, hread _ _ _ _ _ hpeek hinner, hd⟩
  | exponent =>
    cases hp
    obtain ⟨d, hinner, hd⟩ := IsRead.nested .exponent h hlimit hadvance
    exact ⟨d, hread _ _ _ _ _ hpeek hinner, hd⟩
  | signedOperand =>
    cases hp
    obtain ⟨d, hinner, hd⟩ := IsRead.nested .signedOperand h hlimit hadvance
    exact ⟨d, hread _ _ _ _ _ hpeek hinner, hd⟩
  | operand =>
    cases hp
    obtain ⟨d, hinner, hd⟩ := IsRead.nested .signedOperand h hlimit hadvance
    exact ⟨d, (operand_of_sign hpeek hk).trans (hread _ _ _ _ _ hpeek hinner), hd⟩
  | _ => cases hp

theorem isRead_pow {a b : Expr} {ls : List Kind} (ha : IsRead setting .atom a ks (.caret :: ls))
    (hb : IsRead setting .exponent b ls rest) : IsRead setting .power (.pow a b) ks rest := by
  intro limit c hlimit hc
  obtain ⟨d, hbase, hd⟩ := ha limit c (le_of_max_le_left hlimit) hc
  obtain ⟨_, _, _, _, hpeek, hadvance⟩ := Cursor.exists_of_kinds hd
  obtain ⟨c', hexponent, hc'⟩ :=
    IsRead.nested .exponent hb (le_of_max_le_right hlimit) hadvance
  refine ⟨c', ?_, hc'⟩
  calc power setting (Grammar.nested setting limit) c
      = withExponent (Grammar.nested setting limit) a d := power_of_base hbase
    _ = .ok (.pow a b, c') := by rw [withExponent, if_pos hpeek, hexponent]; rfl

theorem isRead_implicitPower (hpowers : setting.implicitPowers = true)
    (h : IsRead setting .power e ks rest) : IsRead setting .implicitFactor e ks rest := by
  intro limit c hlimit hc
  obtain ⟨c', hread, hc'⟩ := h limit c hlimit hc
  refine ⟨c', Eq.trans ?_ hread, hc'⟩
  change implicitFactor setting _ c = power setting _ c
  rw [implicitFactor, power]
  congr 1
  funext ⟨base, d⟩
  exact if_neg fun hcaret ↦ hcaret.2 hpowers

theorem isRead_implicitMul {q : Nonterminal} {a b : Expr} {ls : List Kind}
    (hp : p.implicitOperand? = some q) (ha : IsRead setting p a ks ls)
    (hnext : nextIs Kind.startsImplicitFactor ls = true) (hb : IsRead setting q b ls rest)
    (hlength : rest.length < ls.length) : IsRead setting p (.mul a b) ks rest := by
  intro limit c hlimit hc
  obtain ⟨d, hleft, hd⟩ := ha limit c (le_of_max_le_left hlimit) hc
  obtain ⟨c', hright, hc'⟩ := hb limit d (le_of_max_le_right hlimit) hd
  refine ⟨c', hleft.trans ?_, hc'⟩
  rw [← hd] at hnext hlength
  rw [← hc'] at hlength
  cases p with
  | signedChain =>
    cases hp
    exact finishImplicit_of_step hnext hright hlength
  | summandChain =>
    cases hp
    exact finishImplicit_of_step hnext hright hlength
  | _ => cases hp

/-- A chain goes on with a sign and an operand, where its step reads these. -/
theorem isRead_chainStep {q : Nonterminal} {a b node : Expr} {k : Kind} {ls : List Kind}
    {step : (Phrase → Reader) → Expr → Cursor → Except ParseError (Option (Expr × Cursor))}
    (hchain : ∀ inner e, finish setting inner p e = chain (step inner) e)
    (ha : IsRead setting p a ks (k :: ls)) (hb : IsRead setting q b ls rest)
    (hlength : rest.length < ls.length)
    (hstep : ∀ inner c d, c.peek = some k →
      readerOf setting inner q c.advance = finish setting inner q b d →
      step inner a c = .ok (some (node, d)))
    (hnode : node.nesting = max a.nesting b.nesting) : IsRead setting p node ks rest := by
  intro limit c hlimit hc
  rw [hnode] at hlimit
  obtain ⟨d, hleft, hd⟩ := ha limit c (le_of_max_le_left hlimit) hc
  obtain ⟨_, _, _, _, hpeek, hadvance⟩ := Cursor.exists_of_kinds hd
  obtain ⟨c', hright, hc'⟩ := hb limit d.advance (le_of_max_le_right hlimit) hadvance
  have hshorter : c'.kinds.length < d.kinds.length := by
    rw [hc', hd]
    exact hlength.trans (Nat.lt_succ_self _)
  refine ⟨c', hleft.trans ?_, hc'⟩
  rw [hchain, hchain]
  exact chain_of_step (hstep _ d c' hpeek hright) hshorter

/-- A part that is made up by another one is read as that one is, if it ends there. -/
theorem isRead_unit {q : Nonterminal} (hp : p.unit? = some q)
    (hsign : q.isUnsigned = true → nextIs isSign ks = false)
    (h : IsRead setting q e ks rest) (hrest : p.endsBefore rest = true) :
    IsRead setting p e ks rest := by
  intro limit c hlimit hc
  obtain ⟨c', hread, hc'⟩ := h limit c hlimit hc
  rw [← hc'] at hrest
  rw [← hc] at hsign
  cases p with
  | atom => cases hp
  | rootOperand =>
    cases hp
    exact ⟨c', (signed_of_not_sign (hsign rfl)).trans hread, hc'⟩
  | exponent =>
    cases hp
    exact ⟨c', (signed_of_not_sign (hsign rfl)).trans hread, hc'⟩
  | signedOperand =>
    cases hp
    exact ⟨c', (signed_of_not_sign (hsign rfl)).trans hread, hc'⟩
  | operand =>
    cases hp
    exact ⟨c', (operand_of_not_sign (hsign rfl)).trans hread, hc'⟩
  | power =>
    cases hp
    have hcaret := (Bool.not_eq_true' _).mp hrest
    exact ⟨c', (power_of_base hread).trans (withExponent_of_ends hcaret), hc'⟩
  | implicitFactor =>
    cases hp
    have hcaret := (Bool.not_eq_true' _).mp hrest
    have hpeek : c'.peek ≠ some .caret :=
      Cursor.peek_ne_of_nextIs hcaret (beq_self_eq_true _)
    exact ⟨c', (implicitFactor_of_base hread fun h ↦ absurd h hpeek).trans
      (withExponent_of_ends hcaret), hc'⟩
  | signedChain | productChain | implicitChain | summandChain | sumChain =>
    cases hp
    exact ⟨c', bind_of_eq_ok hread, hc'⟩
  | product | implicitProduct =>
    cases hp
    have hsign := (Bool.not_eq_true' _).mp hrest
    exact ⟨c', hread.trans (chain_of_stop (productStep_of_ends hsign)), hc'⟩
  | sum =>
    cases hp
    have hsign := (Bool.not_eq_true' _).mp hrest
    exact ⟨c', hread.trans (chain_of_stop (sumStep_of_ends hsign)), hc'⟩
  | signedProduct | summand =>
    cases hp
    obtain ⟨hfactor, hnumber⟩ := Bool.and_eq_true_iff.1 hrest
    exact ⟨c', hread.trans (finishImplicit_of_ends ((Bool.not_eq_true' _).mp hfactor)
      ((Bool.not_eq_true' _).mp hnumber)), hc'⟩

/-- What a nonterminal derives is read. -/
theorem Derives.isRead (setting : Setting)
    (h : Derives setting.implicitPowers p e ks rest) : IsRead setting p e ks rest := by
  induction h with
  | integer v rest =>
    refine isRead_leaf nofun fun inner c token tokens hrest hkind ↦ ?_
    rw [primary, hrest]
    simp only [hkind]
  | real x rest =>
    refine isRead_leaf nofun fun inner c token tokens hrest hkind ↦ ?_
    rw [primary, hrest]
    simp only [hkind]
  | name x rest =>
    refine isRead_leaf nofun fun inner c token tokens hrest hkind ↦ ?_
    rw [primary, hrest]
    simp only [hkind]
  | group h ih => exact isRead_group ih h.length_lt
  | call _ ih => exact isRead_call ih
  | root h ih => exact isRead_root ih h.length_lt
  | pos hp _ ih =>
    refine isRead_signed hp (fun inner phrase unsigned c d hpeek hinner ↦ ?_) rfl rfl ih
    rw [signed, hpeek]
    exact bind_of_eq_ok hinner
  | neg hp _ ih =>
    refine isRead_signed hp (fun inner phrase unsigned c d hpeek hinner ↦ ?_) rfl rfl ih
    rw [signed, hpeek]
    exact bind_of_eq_ok hinner
  | pow _ _ iha ihb => exact isRead_pow iha ihb
  | implicitPower hpowers _ ih => exact isRead_implicitPower hpowers ih
  | implicitMul hp _ hnext hb iha ihb => exact isRead_implicitMul hp iha hnext ihb hb.length_lt
  | mul hp _ hb iha ihb =>
    refine isRead_chainStep (finish_of_isProductChain setting hp) iha ihb hb.length_lt
      (fun inner c d hpeek hinner ↦ ?_) rfl
    rw [productStep, hpeek]
    exact bind_of_eq_ok hinner
  | div hp _ hb iha ihb =>
    refine isRead_chainStep (finish_of_isProductChain setting hp) iha ihb hb.length_lt
      (fun inner c d hpeek hinner ↦ ?_) rfl
    rw [productStep, hpeek]
    exact bind_of_eq_ok hinner
  | add _ hb iha ihb =>
    refine isRead_chainStep (fun _ _ ↦ rfl) iha ihb hb.length_lt
      (fun inner c d hpeek hinner ↦ ?_) rfl
    rw [sumStep, hpeek]
    exact bind_of_eq_ok hinner
  | sub _ hb iha ihb =>
    refine isRead_chainStep (fun _ _ ↦ rfl) iha ihb hb.length_lt
      (fun inner c d hpeek hinner ↦ ?_) rfl
    rw [sumStep, hpeek]
    exact bind_of_eq_ok hinner
  | unit hp h hrest ih =>
    exact isRead_unit hp h.nextIs_isSign ih hrest

end completeness

/-- Every level of nesting takes a token of its own. -/
theorem Derives.nesting_lt (h : Derives implicitPowers p e ks rest) :
    e.nesting + rest.length < ks.length := by
  induction h with
  | integer | real | name =>
    rw [Expr.nesting, List.length_cons]
    omega
  | group _ ih | call _ ih | root _ ih | pos _ _ ih | neg _ _ ih =>
    simp only [Expr.nesting, List.length_cons] at ih ⊢
    omega
  | pow ha hb iha ihb | mul _ ha hb iha ihb | div _ ha hb iha ihb | add ha hb iha ihb
  | sub ha hb iha ihb =>
    have hlength := ha.length_lt
    have hlength' := hb.length_lt
    simp only [Expr.nesting, List.length_cons] at iha ihb hlength hlength' ⊢
    omega
  | implicitMul _ ha _ hb iha ihb =>
    have hlength := ha.length_lt
    have hlength' := hb.length_lt
    simp only [Expr.nesting] at iha ihb ⊢
    omega
  | implicitPower _ _ ih => exact ih
  | unit _ _ _ ih => exact ih

end Grammar

/-- Tokens that write an expression are read as that expression, if the limit admits its nesting. -/
theorem Expr.ofTokens_eq_ok_of_derives {algebraic : Bool} {limit : Nat} {tokens : List Token}
    {e : Expr} (h : Grammar.Derives algebraic .sum e (tokens.map (·.kind)) [])
    (hlength : tokens.length ≤ maxTokens) (hlimit : e.nesting ≤ limit) :
    ofTokens algebraic .lenient limit tokens = .ok e := by
  let setting : Grammar.Setting := ⟨algebraic, Token.disallowedNames tokens⟩
  have hempty : tokens.isEmpty = false := by
    rw [List.isEmpty_eq_false_iff, ← List.length_pos_iff, ← List.length_map (f := (·.kind))]
    exact Nat.zero_lt_of_lt h.length_lt
  obtain ⟨c, hread, hend⟩ := Grammar.Derives.isRead setting h limit
    (.ofTokens tokens) hlimit rfl
  have hrest : c.rest = [] := List.map_eq_nil_iff.1 hend
  have hlenient : ofTokensLenient algebraic limit tokens = .ok e := by
    rw [ofTokensLenient, hempty, if_neg Bool.false_ne_true, if_neg (Nat.not_lt.2 hlength)]
    refine (Grammar.bind_of_eq_ok hread).trans ?_
    simp only [hrest]
    rfl
  exact Grammar.bind_of_eq_ok hlenient

/-- Tokens write at most one expression, since they are read as any that they write. -/
theorem Expr.eq_of_derives {algebraic : Bool} {tokens : List Token} {a b : Expr}
    (ha : Grammar.Derives algebraic .sum a (tokens.map (·.kind)) [])
    (hb : Grammar.Derives algebraic .sum b (tokens.map (·.kind)) [])
    (hlength : tokens.length ≤ maxTokens) : a = b := by
  have hread := ofTokens_eq_ok_of_derives ha hlength (Nat.le_max_left a.nesting b.nesting)
  rw [ofTokens_eq_ok_of_derives hb hlength (Nat.le_max_right a.nesting b.nesting)] at hread
  exact (Except.ok.inj hread).symm

end SchoolAlgebra
