import Mathlib
import SchoolAlgebra.Equation
import SchoolAlgebra.Proofs.Grammar.Spelling

/-!
# Precedence and associativity

Where the parts of an expression may stand once it is read from a text. Each nonterminal of the
grammar admits expressions of a certain shape only, and each rule puts its parts where these shapes
are accepted. So a sum stands inside another expression only in a left term or between parentheses,
a base is never more than an atom, and powers associate to the right.
-/

namespace SchoolAlgebra

namespace Expr

/-- Whether the expression is a sum or difference. -/
def isSum : Expr → Bool
  | add _ _ | sub _ _ => true
  | _ => false

/-- Whether the expression is a quotient. -/
def isQuotient : Expr → Bool
  | div _ _ => true
  | _ => false

/-- Whether the expression is a product or quotient. -/
def isProduct : Expr → Bool
  | mul _ _ | div _ _ => true
  | _ => false

/-- Whether the expression is a constant, a variable, a group or a root. -/
def isAtom : Expr → Bool
  | constant _ | var _ | group _ | sqrt _ => true
  | _ => false

/-- The expression behind all signs in front of it. -/
def withoutSigns : Expr → Expr
  | neg e | pos e => e.withoutSigns
  | e => e

/-- Where a part stands in the expression right around it. -/
inductive Place where
  | leftTerm
  | rightTerm
  | factor
  | base
  | exponent
  | signed
  | enclosed
deriving DecidableEq, Repr

/-- The parts right below an expression, each with its place. -/
def placedParts : Expr → List (Place × Expr)
  | constant _ | var _ => []
  | add a b | sub a b => [(.leftTerm, a), (.rightTerm, b)]
  | mul a b | div a b => [(.factor, a), (.factor, b)]
  | pow a b => [(.base, a), (.exponent, b)]
  | neg a | pos a => [(.signed, a)]
  | group a | sqrt a => [(.enclosed, a)]

theorem subterms_eq (e : Expr) : e.subterms = e :: e.placedParts.flatMap fun x ↦ x.2.subterms := by
  cases e <;> simp [subterms, placedParts]

/-- Whether precedence lets the part stand in the place. -/
structure Place.Accepts (place : Place) (part : Expr) : Prop where
  sum : part.isSum = true → place = .leftTerm ∨ place = .enclosed
  base : place = .base → part.isAtom = true
  exponent : place = .exponent →
    part.withoutSigns.isAtom = true ∨ part.withoutSigns.isPow = true
  product : part.isProduct = true → place ≠ .base ∧ place ≠ .exponent
  signed : place = .signed → part.isSum = false ∧ part.isQuotient = false

/-- Whether all parts of the expression, at every depth, stand where precedence lets them. -/
def ObeysPrecedence (e : Expr) : Prop :=
  ∀ whole ∈ e.subterms, ∀ place part, (place, part) ∈ whole.placedParts → place.Accepts part

theorem obeysPrecedence_of_placedParts {e : Expr}
    (h : ∀ place part, (place, part) ∈ e.placedParts → place.Accepts part ∧ part.ObeysPrecedence) :
    e.ObeysPrecedence := by
  intro whole hwhole
  rw [subterms_eq, List.mem_cons, List.mem_flatMap] at hwhole
  rcases hwhole with rfl | ⟨⟨place, part⟩, hpart, hwhole⟩
  · exact fun place part hpart ↦ (h place part hpart).1
  · exact (h place part hpart).2 whole hwhole

theorem obeysPrecedence_of_factors {e a b : Expr}
    (he : e.placedParts = [(.factor, a), (.factor, b)])
    (ha : Place.factor.Accepts a ∧ a.ObeysPrecedence)
    (hb : Place.factor.Accepts b ∧ b.ObeysPrecedence) : e.ObeysPrecedence := by
  refine obeysPrecedence_of_placedParts fun place part hpart ↦ ?_
  rw [he] at hpart
  rcases List.mem_pair.1 hpart with heq | heq <;> cases heq
  · exact ha
  · exact hb

namespace Place

variable {part : Expr}

theorem accepts_enclosed (part : Expr) : enclosed.Accepts part :=
  ⟨fun _ ↦ .inr rfl, nofun, nofun, fun _ ↦ ⟨nofun, nofun⟩, nofun⟩

theorem accepts_leftTerm (part : Expr) : leftTerm.Accepts part :=
  ⟨fun _ ↦ .inl rfl, nofun, nofun, fun _ ↦ ⟨nofun, nofun⟩, nofun⟩

theorem accepts_rightTerm (h : part.isSum = false) : rightTerm.Accepts part :=
  ⟨fun hsum ↦ absurd (h.symm.trans hsum) Bool.false_ne_true, nofun, nofun,
    fun _ ↦ ⟨nofun, nofun⟩, nofun⟩

theorem accepts_factor (h : part.isSum = false) : factor.Accepts part :=
  ⟨fun hsum ↦ absurd (h.symm.trans hsum) Bool.false_ne_true, nofun, nofun,
    fun _ ↦ ⟨nofun, nofun⟩, nofun⟩

theorem accepts_base (h : part.isAtom = true) : base.Accepts part := by
  cases part with
  | constant | var | group | sqrt => exact ⟨nofun, fun _ ↦ h, nofun, nofun, nofun⟩
  | _ => cases h

theorem accepts_exponent
    (h : part.withoutSigns.isAtom = true ∨ part.withoutSigns.isPow = true) :
    exponent.Accepts part := by
  cases part with
  | add | sub | mul | div => rcases h with h | h <;> cases h
  | _ => exact ⟨nofun, nofun, fun _ ↦ h, nofun, nofun⟩

theorem accepts_signed (hsum : part.isSum = false) (hquotient : part.isQuotient = false) :
    signed.Accepts part :=
  ⟨fun h ↦ absurd (hsum.symm.trans h) Bool.false_ne_true, nofun, nofun,
    fun _ ↦ ⟨nofun, nofun⟩, fun _ ↦ ⟨hsum, hquotient⟩⟩

end Place

end Expr

namespace Grammar

/-- Whether the nonterminal may derive an expression of this shape. -/
def Nonterminal.admits : Nonterminal → Expr → Bool
  | atom, e => e.isAtom
  | rootOperand, e => e.withoutSigns.isAtom
  | power, e | implicitFactor, e => e.isAtom || e.isPow
  | exponent, e => e.withoutSigns.isAtom || e.withoutSigns.isPow
  | signedChain, e | signedProduct, e | signedOperand, e => !e.isSum && !e.isQuotient
  | sumChain, _ | sum, _ => true
  | _, e => !e.isSum

variable {implicitPowers : Bool} {p q : Nonterminal} {e : Expr} {ks rest : List Token.Kind}

theorem admits_of_unit (hp : p.unit? = some q) (h : q.admits e = true) : p.admits e = true := by
  cases p <;> cases hp <;> cases e <;>
    first | rfl | exact h | cases h

theorem isSum_of_admits (h : p.admits e = true) (hp : p ≠ .sumChain) (hp' : p ≠ .sum) :
    e.isSum = false := by
  cases p with
  | sumChain => exact absurd rfl hp
  | sum => exact absurd rfl hp'
  | _ => cases e <;> first | rfl | cases h

/-- What follows a sign is no sum and no quotient. -/
theorem accepts_signed_of_admits (hp : p.signOperand? = some q) (h : q.admits e = true) :
    Expr.Place.signed.Accepts e := by
  apply Expr.Place.accepts_signed
  · cases p <;> cases hp <;> cases e <;> first | rfl | cases h
  · cases p <;> cases hp <;> cases e <;> first | rfl | cases h

/-- A sign in front keeps the shape of what it stands before. -/
theorem admits_signed (hp : p.signOperand? = some q) {node : Expr → Expr}
    (hnode : (node e).withoutSigns = e.withoutSigns) (hsum : (node e).isSum = false)
    (hquotient : (node e).isQuotient = false) (h : q.admits e = true) :
    p.admits (node e) = true := by
  cases p with
  | rootOperand | exponent =>
    cases hp
    rw [Nonterminal.admits, hnode]
    exact h
  | signedOperand | operand => simp [Nonterminal.admits, hsum, hquotient]
  | _ => cases hp

/-- What a nonterminal derives has its shape, and every part stands where it is accepted. -/
theorem Derives.obeysPrecedence (h : Derives implicitPowers p e ks rest) :
    p.admits e = true ∧ e.ObeysPrecedence := by
  induction h with
  | integer | real | name => exact ⟨rfl, Expr.obeysPrecedence_of_placedParts nofun⟩
  | group _ ih | call _ ih | root _ ih =>
    refine ⟨rfl, Expr.obeysPrecedence_of_placedParts fun place part hpart ↦ ?_⟩
    cases List.mem_singleton.1 hpart
    exact ⟨Expr.Place.accepts_enclosed _, ih.2⟩
  | pos hp _ ih | neg hp _ ih =>
    refine ⟨admits_signed hp rfl rfl rfl ih.1,
      Expr.obeysPrecedence_of_placedParts fun place part hpart ↦ ?_⟩
    cases List.mem_singleton.1 hpart
    exact ⟨accepts_signed_of_admits hp ih.1, ih.2⟩
  | pow _ _ iha ihb =>
    refine ⟨rfl, Expr.obeysPrecedence_of_placedParts fun place part hpart ↦ ?_⟩
    rcases List.mem_pair.1 hpart with heq | heq <;> cases heq
    · exact ⟨Expr.Place.accepts_base iha.1, iha.2⟩
    · exact ⟨Expr.Place.accepts_exponent (Bool.or_eq_true_iff.1 ihb.1), ihb.2⟩
  | implicitPower _ _ ih => exact ih
  | @implicitMul p q _ _ _ _ _ hp _ _ _ iha ihb =>
    have hfirst := isSum_of_admits iha.1 (by rintro rfl; cases hp) (by rintro rfl; cases hp)
    have hfactor := isSum_of_admits ihb.1 (by rintro rfl; cases p <;> cases hp)
      (by rintro rfl; cases p <;> cases hp)
    refine ⟨?_, Expr.obeysPrecedence_of_factors rfl ⟨Expr.Place.accepts_factor hfirst, iha.2⟩
      ⟨Expr.Place.accepts_factor hfactor, ihb.2⟩⟩
    cases p <;> cases hp <;> rfl
  | @mul p _ _ _ _ _ hp _ _ iha ihb | @div p _ _ _ _ _ hp _ _ iha ihb =>
    have hfirst := isSum_of_admits iha.1 (by rintro rfl; cases hp) (by rintro rfl; cases hp)
    have hoperand := isSum_of_admits ihb.1 nofun nofun
    refine ⟨?_, Expr.obeysPrecedence_of_factors rfl ⟨Expr.Place.accepts_factor hfirst, iha.2⟩
      ⟨Expr.Place.accepts_factor hoperand, ihb.2⟩⟩
    cases p <;> first | rfl | cases hp
  | add _ _ iha ihb | sub _ _ iha ihb =>
    refine ⟨rfl, Expr.obeysPrecedence_of_placedParts fun place part hpart ↦ ?_⟩
    rcases List.mem_pair.1 hpart with heq | heq <;> cases heq
    · exact ⟨Expr.Place.accepts_leftTerm _, iha.2⟩
    · exact ⟨Expr.Place.accepts_rightTerm (isSum_of_admits ihb.1 nofun nofun), ihb.2⟩
  | unit hp _ _ ih => exact ⟨admits_of_unit hp ih.1, ih.2⟩

end Grammar

/-- Whether the expression is read from the text, as a whole or as a side of an equation. -/
inductive Expr.IsReadFrom (text : String) : Expr → Prop where
  | whole {language : Language} {strictness : Strictness} {limit : Nat} {e : Expr}
      (h : ofText language strictness limit text = .ok e) : IsReadFrom text e
  | lhs {names : List String} {strictness : Strictness} {equation : Equation}
      (h : Equation.ofText names strictness text = .ok equation) : IsReadFrom text equation.lhs
  | rhs {names : List String} {strictness : Strictness} {equation : Equation}
      (h : Equation.ofText names strictness text = .ok equation) : IsReadFrom text equation.rhs

/-- Both sides of an equation are read as expressions of their own. -/
theorem Equation.exists_of_ofText {names : List String} {strictness : Strictness} {text : String}
    {equation : Equation} (h : ofText names strictness text = .ok equation) :
    ∃ before after, Expr.ofTokens true strictness defaultNesting before = .ok equation.lhs ∧
      Expr.ofTokens true strictness defaultNesting after = .ok equation.rhs := by
  obtain ⟨⟨before, after⟩, -, h⟩ := Expr.bind_eq_ok_iff.1 h
  obtain ⟨lhs, hlhs, h⟩ := Expr.bind_eq_ok_iff.1 h
  obtain ⟨rhs, hrhs, h⟩ := Expr.bind_eq_ok_iff.1 h
  cases h
  exact ⟨before, after, hlhs, hrhs⟩

/--
Expressions that are read obey precedence and associativity. A sum or difference is the whole
expression, the left term of another one, or the inside of a group or root; a base is a constant, a
variable, a group or a root; an exponent, behind its signs, is one of these or a power; a product or
quotient is neither a base nor an exponent; and what a sign stands before is no sum, difference or
quotient.
-/
theorem Expr.obeysPrecedence_of_isReadFrom {text : String} {e : Expr} (h : IsReadFrom text e) :
    e.ObeysPrecedence := by
  cases h with
  | whole h => exact (derives_of_ofTokens h).obeysPrecedence.2
  | lhs h =>
    obtain ⟨before, after, hlhs, -⟩ := Equation.exists_of_ofText h
    exact (derives_of_ofTokens hlhs).obeysPrecedence.2
  | rhs h =>
    obtain ⟨before, after, -, hrhs⟩ := Equation.exists_of_ofText h
    exact (derives_of_ofTokens hrhs).obeysPrecedence.2

/-- The text `1 - 2x^-y^3 / √4` is read as `1 - (2 * (x ^ (-(y ^ 3)) / √4))`. -/
theorem Expr.obeysPrecedence_of_isReadFrom_root :
    ofText (.algebraic ["x", "y"]) .lenient 100 "1 - 2x^-y^3 / √4" = .ok
      (sub (constant (.integer 1)) (mul (constant (.integer 2))
        (div (pow (var "x") (neg (pow (var "y") (constant (.integer 3)))))
          (sqrt (constant (.integer 4)))))) ∧
    ObeysPrecedence
      (sub (constant (.integer 1)) (mul (constant (.integer 2))
        (div (pow (var "x") (neg (pow (var "y") (constant (.integer 3)))))
          (sqrt (constant (.integer 4)))))) := by
  have hread : ofText (.algebraic ["x", "y"]) .lenient 100 "1 - 2x^-y^3 / √4" = .ok
      (sub (constant (.integer 1)) (mul (constant (.integer 2))
        (div (pow (var "x") (neg (pow (var "y") (constant (.integer 3)))))
          (sqrt (constant (.integer 4)))))) := by decide +kernel
  exact ⟨hread, obeysPrecedence_of_isReadFrom (.whole hread)⟩

end SchoolAlgebra
