import SchoolAlgebra.Grammar.Phrase
import SchoolAlgebra.Grammar.Style

/-!
# Reading expressions

An expression is read in a language, which says what its letters mean, and either leniently or
strictly. Strict readings apply the rules of style on top of a lenient one.
-/

namespace SchoolAlgebra

/-- What the letters of a text mean: nothing, or the variables of the given names. -/
inductive Language where
  | numeric
  | algebraic (names : List String)
deriving DecidableEq, Repr

namespace Language

/-- The names that are variables. -/
def names : Language → List String
  | numeric => []
  | algebraic names => names

/-- Whether expressions may hold variables. -/
def isAlgebraic : Language → Bool
  | numeric => false
  | algebraic _ => true

end Language

/-- Whether the rules of style apply. -/
inductive Strictness where
  | lenient
  | strict
deriving DecidableEq, Repr

/-- The greatest depth of nesting that is read unless another is asked for. -/
def defaultNesting : Nat := 100

/-- The greatest number of tokens of an expression. -/
def maxTokens : Nat := 1000

/-- Letters that belong to no name, each once and in the order of the tokens. -/
def Token.disallowedNames (tokens : List Token) : List String :=
  let letters := tokens.flatMap fun token ↦
    match token.kind with
    | .unresolved letters => letters.toList.map String.singleton
    | _ => []
  letters.foldl (fun names letter ↦ if letter ∈ names then names else names ++ [letter]) []

namespace Expr

/-- The expression that all of the tokens make up, before rules of style. -/
def ofTokensLenient (algebraic : Bool) (limit : Nat) (tokens : List Token) :
    Except ParseError Expr :=
  if tokens.isEmpty then .error .emptyInput
  else if maxTokens < tokens.length then Grammar.violation .expressionTooLong
  else do
    let setting : Grammar.Setting := ⟨algebraic, Token.disallowedNames tokens⟩
    let (e, c) ← Grammar.level setting (Grammar.nested setting limit) .expression (.ofTokens tokens)
    match c.rest with
    | [] => return e
    | token :: _ =>
      if token.kind = .leftParen ∨ token.kind = .rightParen then
        Grammar.violation .unbalancedParentheses
      else Grammar.unexpected token

/-- The expression if it passes the rules of style, in so far as they apply. -/
def checkStyle (strictness : Strictness) (e : Expr) : Except ParseError Expr :=
  match strictness with
  | .lenient => .ok e
  | .strict => e.brokenRule?.elim (.ok e) fun rule ↦ .error (.optional rule)

/-- The expression that all of the tokens make up. -/
def ofTokens (algebraic : Bool) (strictness : Strictness) (limit : Nat) (tokens : List Token) :
    Except ParseError Expr :=
  ofTokensLenient algebraic limit tokens >>= checkStyle strictness

/-- The expression that a text writes, nested at most as deep as the limit. -/
def ofText (language : Language) (strictness : Strictness) (limit : Nat) (text : String) :
    Except ParseError Expr :=
  ofTokens language.isAlgebraic strictness limit (Token.scan language.names text)

end Expr

end SchoolAlgebra
