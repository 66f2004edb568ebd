import SchoolAlgebra.Expr.Basic
import SchoolAlgebra.Grammar.Rule
import SchoolAlgebra.Token.Basic

/-!
# Reading along a sequence of tokens

A cursor stands between two tokens. A reader takes an expression off the tokens ahead of a cursor
and hands the cursor behind it on, or fails. `chain` is the one loop of the grammar: it extends an
expression for as long as tokens that continue it follow.
-/

namespace SchoolAlgebra.Grammar

/-- A place among tokens: the kind just read, and the tokens ahead. -/
structure Cursor where
  previous : Option Token.Kind
  rest : List Token

namespace Cursor

/-- The place before the first token. -/
def ofTokens (tokens : List Token) : Cursor := ⟨none, tokens⟩

/-- The kind of the next token. -/
def peek (c : Cursor) : Option Token.Kind := c.rest.head?.map (·.kind)

/-- The place behind the next token. -/
def advance (c : Cursor) : Cursor :=
  match c.rest with
  | [] => c
  | token :: rest => ⟨some token.kind, rest⟩

@[simp] theorem rest_advance (c : Cursor) : c.advance.rest = c.rest.tail := by
  unfold advance
  split <;> simp_all

end Cursor

/-- An expression taken off the tokens, and the place behind it. -/
abbrev Reading := Except ParseError (Expr × Cursor)

/-- Takes an expression off the tokens ahead. -/
abbrev Reader := Cursor → Reading

/-- Fails with a required rule. -/
def violation {α : Type} (rule : RequiredRule) : Except ParseError α := .error (.required rule)

/-- Fails with a token that has no place where it stands. -/
def unexpected {α : Type} (token : Token) : Except ParseError α :=
  .error (.unexpectedToken token.text token.start)

/--
Extends `first` by one step after the other, until a step finds nothing that continues it. A step
that takes no token is the last.
-/
def chain (step : Expr → Cursor → Except ParseError (Option (Expr × Cursor))) (first : Expr)
    (c : Cursor) : Reading :=
  match step first c with
  | .error e => .error e
  | .ok none => .ok (first, c)
  | .ok (some (next, c')) =>
    if c'.rest.length < c.rest.length then chain step next c' else .ok (next, c')
termination_by c.rest.length

end SchoolAlgebra.Grammar
