import Mathlib
import SchoolAlgebra.Proofs.Grammar.Soundness

/-!
# Spellings

A spelling of an expression is what its nodes show from left to right: numbers and names, signs and
operators, parentheses and roots. A product may go without an operator before a factor that starts
with a parenthesis, a root or a name. Whatever is read is read from a spelling of the result, so no
token is lost, doubled or moved.
-/

namespace SchoolAlgebra

open Token (Kind)

namespace Token.Kind

/-- Whether a factor that starts with the kind may do without an operator before it. -/
def opensFactor : Kind → Bool
  | leftParen | rootSign | name _ => true
  | function f => f == rootName
  | _ => false

end Token.Kind

namespace Expr

/-- The first factor of a chain of products and quotients. -/
def firstFactor : Expr → Expr
  | mul a _ | div a _ => a.firstFactor
  | e => e

/-- Whether the expression is a power without parentheses. -/
def isPow : Expr → Bool
  | pow _ _ => true
  | _ => false

/--
Whether the kinds of tokens are what the expression shows from left to right. The parameter says
whether the first factor after a product without operator may be the base of a power.
-/
inductive IsSpelled (implicitPowers : Bool) : Expr → List Kind → Prop where
  | integer (v : Int64) : IsSpelled implicitPowers (constant (.integer v)) [.integer v]
  | real (x : Float) : IsSpelled implicitPowers (constant (.float x)) [.real x]
  | var (x : String) : IsSpelled implicitPowers (var x) [.name x]
  | group {a : Expr} {ks : List Kind} (ha : IsSpelled implicitPowers a ks) :
      IsSpelled implicitPowers (group a) ([.leftParen] ++ ks ++ [.rightParen])
  | pos {a : Expr} {ks : List Kind} (ha : IsSpelled implicitPowers a ks) :
      IsSpelled implicitPowers (pos a) ([.plus] ++ ks)
  | neg {a : Expr} {ks : List Kind} (ha : IsSpelled implicitPowers a ks) :
      IsSpelled implicitPowers (neg a) ([.minus] ++ ks)
  | root {a : Expr} {ks : List Kind} (ha : IsSpelled implicitPowers a ks) :
      IsSpelled implicitPowers (sqrt a) ([.rootSign] ++ ks)
  | call {a : Expr} {ks : List Kind} (ha : IsSpelled implicitPowers a ks) :
      IsSpelled implicitPowers (sqrt a)
        ([.function Token.rootName, .leftParen] ++ ks ++ [.rightParen])
  | add {a b : Expr} {ks ls : List Kind} (ha : IsSpelled implicitPowers a ks)
      (hb : IsSpelled implicitPowers b ls) :
      IsSpelled implicitPowers (add a b) (ks ++ [.plus] ++ ls)
  | sub {a b : Expr} {ks ls : List Kind} (ha : IsSpelled implicitPowers a ks)
      (hb : IsSpelled implicitPowers b ls) :
      IsSpelled implicitPowers (sub a b) (ks ++ [.minus] ++ ls)
  | mul {a b : Expr} {ks ls : List Kind} (ha : IsSpelled implicitPowers a ks)
      (hb : IsSpelled implicitPowers b ls) :
      IsSpelled implicitPowers (mul a b) (ks ++ [.times] ++ ls)
  | implicitMul {a b : Expr} {ks ls : List Kind} (ha : IsSpelled implicitPowers a ks)
      (hb : IsSpelled implicitPowers b ls)
      (hopens : Grammar.nextIs Kind.opensFactor ls = true)
      (hpower : implicitPowers = false → b.firstFactor.isPow = false) :
      IsSpelled implicitPowers (mul a b) (ks ++ ls)
  | div {a b : Expr} {ks ls : List Kind} (ha : IsSpelled implicitPowers a ks)
      (hb : IsSpelled implicitPowers b ls) :
      IsSpelled implicitPowers (div a b) (ks ++ [.dividedBy] ++ ls)
  | pow {a b : Expr} {ks ls : List Kind} (ha : IsSpelled implicitPowers a ks)
      (hb : IsSpelled implicitPowers b ls) :
      IsSpelled implicitPowers (pow a b) (ks ++ [.caret] ++ ls)

end Expr

namespace Grammar

variable {implicitPowers : Bool} {p : Nonterminal} {e : Expr} {ks rest : List Kind}

/-- An atom is no power, product or quotient. -/
theorem Derives.firstFactor_atom (h : Derives implicitPowers .atom e ks rest) :
    e.firstFactor.isPow = false := by
  cases h with
  | unit hp => cases hp
  | pos hp => cases hp
  | neg hp => cases hp
  | implicitMul hp => cases hp
  | mul hp => cases hp
  | div hp => cases hp
  | _ => rfl

/-- What may not start with a power, if factors without an operator carry no exponents. -/
def Nonterminal.isImplicit : Nonterminal → Bool
  | implicitFactor | implicitChain | implicitProduct => true
  | _ => false

theorem Derives.firstFactor_implicit (h : Derives implicitPowers p e ks rest)
    (hp : p.isImplicit = true) (hpowers : implicitPowers = false) :
    e.firstFactor.isPow = false := by
  induction h with
  | mul _ _ _ iha | div _ _ _ iha | implicitMul _ _ _ _ iha => exact iha hp
  | implicitPower htrue => exact absurd htrue (by rw [hpowers]; exact Bool.false_ne_true)
  | @unit p q _ _ _ hq hderives _ ih =>
    cases p with
    | implicitFactor =>
      cases hq
      exact hderives.firstFactor_atom
    | implicitChain =>
      cases hq
      exact ih rfl
    | implicitProduct =>
      cases hq
      exact ih rfl
    | _ => cases hp
  | pos | neg => rfl
  | _ => cases hp

theorem isImplicit_of_implicitOperand? {q : Nonterminal} (h : p.implicitOperand? = some q) :
    q.isImplicit = true := by
  cases p <;> cases h <;> rfl

theorem nextIs_append {condition : Kind → Bool} {ks ls : List Kind}
    (h : nextIs condition ks = true) : nextIs condition (ks ++ ls) = true := by
  cases ks with
  | nil => cases h
  | cons k ks => exact h

/--
Whether the front of the kinds spells the expression, with the given rest, and opens a factor if it
starts like one.
-/
def TakesSpelling (implicitPowers : Bool) (e : Expr) (ks rest : List Kind) : Prop :=
  ∃ taken, ks = taken ++ rest ∧ e.IsSpelled implicitPowers taken ∧
    (nextIs Kind.startsImplicitFactor ks = true → nextIs Kind.opensFactor taken = true)

/-- One kind, then an operand. -/
theorem TakesSpelling.before {a e : Expr} {k : Kind}
    (hspelled : ∀ {ks}, a.IsSpelled implicitPowers ks → e.IsSpelled implicitPowers ([k] ++ ks))
    (hopens : k.startsImplicitFactor = true → k.opensFactor = true)
    (ha : TakesSpelling implicitPowers a ks rest) :
    TakesSpelling implicitPowers e (k :: ks) rest := by
  obtain ⟨taken, hks, ha, -⟩ := ha
  exact ⟨[k] ++ taken, by rw [hks]; rfl, hspelled ha, hopens⟩

/-- One operand, one kind, then another operand. -/
theorem TakesSpelling.between {a b e : Expr} {k : Kind} {ls : List Kind}
    (hspelled : ∀ {ks ls}, a.IsSpelled implicitPowers ks → b.IsSpelled implicitPowers ls →
      e.IsSpelled implicitPowers (ks ++ [k] ++ ls))
    (ha : TakesSpelling implicitPowers a ks (k :: ls))
    (hb : TakesSpelling implicitPowers b ls rest) : TakesSpelling implicitPowers e ks rest := by
  obtain ⟨taken, hks, ha, hopens⟩ := ha
  obtain ⟨taken', hls, hb, -⟩ := hb
  refine ⟨taken ++ [k] ++ taken', ?_, hspelled ha hb, fun hstarts ↦ ?_⟩
  · rw [hks, hls]
    simp
  · exact nextIs_append (nextIs_append (hopens hstarts))

/-- The kinds that a part takes spell it. -/
theorem Derives.takesSpelling (h : Derives implicitPowers p e ks rest) :
    TakesSpelling implicitPowers e ks rest := by
  induction h with
  | integer v rest => exact ⟨[_], rfl, .integer v, nofun⟩
  | real x rest => exact ⟨[_], rfl, .real x, nofun⟩
  | name x rest => exact ⟨[_], rfl, .var x, fun _ ↦ rfl⟩
  | group _ ih =>
    obtain ⟨taken, hks, hspelled, -⟩ := ih
    exact ⟨_, by rw [hks]; simp, .group hspelled, fun _ ↦ rfl⟩
  | call _ ih =>
    obtain ⟨taken, hks, hspelled, -⟩ := ih
    exact ⟨_, by rw [hks]; simp, .call hspelled, fun _ ↦ by simp [Kind.opensFactor]⟩
  | root _ ih => exact .before .root (fun _ ↦ rfl) ih
  | pos _ _ ih => exact .before .pos nofun ih
  | neg _ _ ih => exact .before .neg nofun ih
  | implicitPower _ _ ih => exact ih
  | implicitMul hp _ hnext hb iha ihb =>
    obtain ⟨taken, hks, ha, hfirst⟩ := iha
    obtain ⟨taken', hls, hb', hopens⟩ := ihb
    have hpower := hb.firstFactor_implicit (isImplicit_of_implicitOperand? hp)
    refine ⟨taken ++ taken', ?_, .implicitMul ha hb' (hopens hnext) hpower, fun hstarts ↦ ?_⟩
    · rw [hks, hls, List.append_assoc]
    · exact nextIs_append (hfirst hstarts)
  | pow _ _ iha ihb => exact .between .pow iha ihb
  | mul _ _ _ iha ihb => exact .between .mul iha ihb
  | div _ _ _ iha ihb => exact .between .div iha ihb
  | add _ _ iha ihb => exact .between .add iha ihb
  | sub _ _ iha ihb => exact .between .sub iha ihb
  | unit _ _ _ ih => exact ih

end Grammar

/--
Reading loses, doubles and moves no token. Whatever a text is read as, in either language, the kinds
of its tokens are what the expression shows from left to right. A product may do without operator
only before a parenthesis, a root or a variable, and in a text without variables only if the factor
that follows carries no exponent of its own.
-/
theorem Expr.isSpelled_of_ofText {language : Language} {strictness : Strictness} {limit : Nat}
    {text : String} {e : Expr} (h : ofText language strictness limit text = .ok e) :
    e.IsSpelled language.isAlgebraic ((Token.scan language.names text).map (·.kind)) := by
  obtain ⟨taken, htaken, hspelled, -⟩ := (derives_of_ofTokens h).takesSpelling
  rw [List.append_nil] at htaken
  exact htaken ▸ hspelled

/-- The text `2(3 + x) * -√4 x^y` is read as `2 * ((3 + x) * -(√4 * x ^ y))`. -/
theorem Expr.isSpelled_of_ofText_root :
    ofText (.algebraic ["x", "y"]) .lenient 100 "2(3 + x) * -√4 x^y" = .ok
        (.mul (.constant (.integer 2))
          (.mul (.group (.add (.constant (.integer 3)) (.var "x")))
            (.neg (.mul (.sqrt (.constant (.integer 4))) (.pow (.var "x") (.var "y")))))) ∧
      IsSpelled true
        (.mul (.constant (.integer 2))
          (.mul (.group (.add (.constant (.integer 3)) (.var "x")))
            (.neg (.mul (.sqrt (.constant (.integer 4))) (.pow (.var "x") (.var "y"))))))
        [.integer 2, .leftParen, .integer 3, .plus, .name "x", .rightParen, .times, .minus,
          .rootSign, .integer 4, .name "x", .caret, .name "y"] := by
  have hread : ofText (.algebraic ["x", "y"]) .lenient 100 "2(3 + x) * -√4 x^y" = .ok
      (.mul (.constant (.integer 2))
        (.mul (.group (.add (.constant (.integer 3)) (.var "x")))
          (.neg (.mul (.sqrt (.constant (.integer 4))) (.pow (.var "x") (.var "y")))))) := by
    decide +kernel
  have hkinds : (Token.scan ["x", "y"] "2(3 + x) * -√4 x^y").map (·.kind) =
      [.integer 2, .leftParen, .integer 3, .plus, .name "x", .rightParen, .times, .minus,
        .rootSign, .integer 4, .name "x", .caret, .name "y"] := by
    decide +kernel
  exact ⟨hread, hkinds ▸ isSpelled_of_ofText hread⟩

end SchoolAlgebra
