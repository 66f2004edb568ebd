import Mathlib
import SchoolAlgebra.Grammar.Phrase

/-!
# Derivations

The grammar of expressions as a relation between an expression and the kinds of the tokens that
write it. A derivation takes the expression off the front of a sequence of kinds and leaves the
rest. Where a part may only end before certain tokens, the rest tells whether it does. A chain is a
part that may still go on to the right; closing it needs a rest that does not continue it.
-/

namespace SchoolAlgebra.Grammar

open Token (Kind)

/-- The nonterminals of the grammar. -/
inductive Nonterminal where
  | atom
  | rootOperand
  | power
  | exponent
  | implicitFactor
  | signedChain
  | signedProduct
  | signedOperand
  | operand
  | productChain
  | product
  | implicitChain
  | implicitProduct
  | summandChain
  | summand
  | sumChain
  | sum
deriving DecidableEq, Repr

/-- Whether there is a next kind and it satisfies the condition. -/
def nextIs (condition : Kind → Bool) (ks : List Kind) : Bool :=
  (ks.head?.map condition).getD false

@[simp] theorem nextIs_nil (condition : Kind → Bool) : nextIs condition [] = false := rfl

@[simp] theorem nextIs_cons (condition : Kind → Bool) (k : Kind) (ks : List Kind) :
    nextIs condition (k :: ks) = condition k := rfl

theorem nextIs_beq_iff {k : Kind} {ks : List Kind} :
    nextIs (· == k) ks = true ↔ ks.head? = some k := by
  cases ks <;> simp

/-- Whether the kind is one that extends a chain of explicit products and quotients. -/
def isProductSign : Kind → Bool
  | .times | .dividedBy => true
  | _ => false

/-- Whether the kind is a sign, or extends a chain of sums and differences. -/
def isSign : Kind → Bool
  | .plus | .minus => true
  | _ => false

namespace Nonterminal

/-- The part that makes up another one by itself. -/
def unit? : Nonterminal → Option Nonterminal
  | atom => none
  | rootOperand | power | implicitFactor => some atom
  | exponent | operand | signedChain => some power
  | signedProduct => some signedChain
  | signedOperand => some signedProduct
  | productChain => some operand
  | product => some productChain
  | implicitChain => some implicitFactor
  | implicitProduct => some implicitChain
  | summandChain => some product
  | summand => some summandChain
  | sumChain => some summand
  | sum => some sumChain

/-- Whether the part may end before the kinds, if it is made up by another one. -/
def endsBefore (ks : List Kind) : Nonterminal → Bool
  | power | implicitFactor => !nextIs (· == .caret) ks
  | signedProduct | summand => !nextIs Kind.startsImplicitFactor ks && !nextIs Kind.isNumber ks
  | product | implicitProduct => !nextIs isProductSign ks
  | sum => !nextIs isSign ks
  | _ => true

/-- The part that follows a sign. -/
def signOperand? : Nonterminal → Option Nonterminal
  | rootOperand => some rootOperand
  | exponent => some exponent
  | signedOperand | operand => some signedOperand
  | _ => none

/-- The factors by which a chain goes on without an operator. -/
def implicitOperand? : Nonterminal → Option Nonterminal
  | signedChain => some implicitFactor
  | summandChain => some implicitProduct
  | _ => none

/-- Whether the part is a chain of explicit products and quotients. -/
def isProductChain : Nonterminal → Bool
  | productChain | implicitChain => true
  | _ => false

end Nonterminal

/-- The nonterminal of a phrase. -/
def Phrase.nonterminal : Phrase → Nonterminal
  | expression => .sum
  | signedOperand => .signedOperand
  | exponent => .exponent
  | rootOperand => .rootOperand

namespace Cursor

/-- The kinds of the tokens ahead. -/
def kinds (c : Cursor) : List Kind := c.rest.map (·.kind)

theorem peek_eq (c : Cursor) : c.peek = c.kinds.head? := List.head?_map.symm

theorem nextIs_kinds (condition : Kind → Bool) (c : Cursor) :
    nextIs condition c.kinds = (c.peek.map condition).getD false := by
  rw [nextIs, peek_eq]

@[simp] theorem kinds_advance (c : Cursor) : c.advance.kinds = c.kinds.tail := by
  rw [kinds, rest_advance, List.map_tail, kinds]

theorem length_kinds (c : Cursor) : c.kinds.length = c.rest.length := List.length_map _

theorem kinds_of_peek {c : Cursor} {k : Kind} (h : c.peek = some k) :
    c.kinds = k :: c.advance.kinds := by
  rw [peek_eq] at h
  rw [kinds_advance]
  exact (List.cons_head?_tail h).symm

end Cursor

/--
Whether the nonterminal derives the expression from the front of the kinds, with the given rest.
The parameter says whether a factor without an operator before it may carry an exponent.
-/
inductive Derives (implicitPowers : Bool) :
    Nonterminal → Expr → List Kind → List Kind → Prop where
  | integer (v : Int64) (rest : List Kind) :
      Derives implicitPowers .atom (.constant (.integer v)) (.integer v :: rest) rest
  | real (x : Float) (rest : List Kind) :
      Derives implicitPowers .atom (.constant (.float x)) (.real x :: rest) rest
  | name (x : String) (rest : List Kind) :
      Derives implicitPowers .atom (.var x) (.name x :: rest) rest
  | group {e : Expr} {ks rest : List Kind}
      (h : Derives implicitPowers .sum e ks (.rightParen :: rest)) :
      Derives implicitPowers .atom (.group e) (.leftParen :: ks) rest
  | call {e : Expr} {ks rest : List Kind}
      (h : Derives implicitPowers .sum e ks (.rightParen :: rest)) :
      Derives implicitPowers .atom (.sqrt e)
        (.function Token.rootName :: .leftParen :: ks) rest
  | root {e : Expr} {ks rest : List Kind} (h : Derives implicitPowers .rootOperand e ks rest) :
      Derives implicitPowers .atom (.sqrt e) (.rootSign :: ks) rest
  | pos {p q : Nonterminal} {e : Expr} {ks rest : List Kind} (hp : p.signOperand? = some q)
      (h : Derives implicitPowers q e ks rest) :
      Derives implicitPowers p (.pos e) (.plus :: ks) rest
  | neg {p q : Nonterminal} {e : Expr} {ks rest : List Kind} (hp : p.signOperand? = some q)
      (h : Derives implicitPowers q e ks rest) :
      Derives implicitPowers p (.neg e) (.minus :: ks) rest
  | pow {a b : Expr} {ks ls rest : List Kind}
      (ha : Derives implicitPowers .atom a ks (.caret :: ls))
      (hb : Derives implicitPowers .exponent b ls rest) :
      Derives implicitPowers .power (.pow a b) ks rest
  | implicitPower {e : Expr} {ks rest : List Kind} (hpowers : implicitPowers = true)
      (h : Derives implicitPowers .power e ks rest) :
      Derives implicitPowers .implicitFactor e ks rest
  | implicitMul {p q : Nonterminal} {a b : Expr} {ks ls rest : List Kind}
      (hp : p.implicitOperand? = some q) (ha : Derives implicitPowers p a ks ls)
      (hnext : nextIs Kind.startsImplicitFactor ls = true)
      (hb : Derives implicitPowers q b ls rest) : Derives implicitPowers p (.mul a b) ks rest
  | mul {p : Nonterminal} {a b : Expr} {ks ls rest : List Kind} (hp : p.isProductChain = true)
      (ha : Derives implicitPowers p a ks (.times :: ls))
      (hb : Derives implicitPowers .operand b ls rest) : Derives implicitPowers p (.mul a b) ks rest
  | div {p : Nonterminal} {a b : Expr} {ks ls rest : List Kind} (hp : p.isProductChain = true)
      (ha : Derives implicitPowers p a ks (.dividedBy :: ls))
      (hb : Derives implicitPowers .operand b ls rest) : Derives implicitPowers p (.div a b) ks rest
  | add {a b : Expr} {ks ls rest : List Kind}
      (ha : Derives implicitPowers .sumChain a ks (.plus :: ls))
      (hb : Derives implicitPowers .summand b ls rest) :
      Derives implicitPowers .sumChain (.add a b) ks rest
  | sub {a b : Expr} {ks ls rest : List Kind}
      (ha : Derives implicitPowers .sumChain a ks (.minus :: ls))
      (hb : Derives implicitPowers .summand b ls rest) :
      Derives implicitPowers .sumChain (.sub a b) ks rest
  | unit {p q : Nonterminal} {e : Expr} {ks rest : List Kind} (hp : p.unit? = some q)
      (h : Derives implicitPowers q e ks rest) (hrest : p.endsBefore rest = true) :
      Derives implicitPowers p e ks rest

variable {implicitPowers : Bool} {p q : Nonterminal} {e : Expr} {ks rest : List Kind}

/-- Every part takes at least one token. -/
theorem Derives.length_lt (h : Derives implicitPowers p e ks rest) : rest.length < ks.length := by
  induction h with
  | integer | real | name => exact Nat.lt_succ_self _
  | group _ ih | call _ ih | root _ ih | pos _ _ ih | neg _ _ ih =>
    simp only [List.length_cons] at ih ⊢
    omega
  | pow _ _ iha ihb | mul _ _ _ iha ihb | div _ _ _ iha ihb | add _ _ iha ihb
  | sub _ _ iha ihb =>
    rw [List.length_cons] at iha
    omega
  | implicitPower _ _ ih => exact ih
  | implicitMul _ _ _ _ iha ihb => exact ihb.trans iha
  | unit _ _ _ ih => exact ih

/-- With powers of implicit factors, whatever is derived without them is derived too. -/
theorem Derives.withPowers (h : Derives implicitPowers p e ks rest) : Derives true p e ks rest := by
  induction h with
  | integer v rest => exact .integer v rest
  | real x rest => exact .real x rest
  | name x rest => exact .name x rest
  | group _ ih => exact .group ih
  | call _ ih => exact .call ih
  | root _ ih => exact .root ih
  | pos hp _ ih => exact .pos hp ih
  | neg hp _ ih => exact .neg hp ih
  | pow _ _ iha ihb => exact .pow iha ihb
  | implicitPower _ _ ih => exact .implicitPower rfl ih
  | implicitMul hp _ hnext _ iha ihb => exact .implicitMul hp iha hnext ihb
  | mul hp _ _ iha ihb => exact .mul hp iha ihb
  | div hp _ _ iha ihb => exact .div hp iha ihb
  | add _ _ iha ihb => exact .add iha ihb
  | sub _ _ iha ihb => exact .sub iha ihb
  | unit hp _ hrest ih => exact .unit hp ih hrest

end SchoolAlgebra.Grammar
