import SchoolAlgebra.Grammar.Cursor
import SchoolAlgebra.Token.Scan

/-!
# The grammar of expressions

From the loosest to the tightest: sums, implicit products, explicit products and quotients, signs,
powers, roots and function calls. Powers associate to the right and everything else to the left. A
sign covers the whole implicit product that follows it, and a root sign only the operand next to it.

Four phrases nest: an expression in parentheses, the operand of a sign, an exponent, and the operand
of a root sign. The readers of this module read one level and take a reader of nested phrases, which
`nested` supplies up to a limit of levels.
-/

namespace SchoolAlgebra.Grammar

/-- The phrases that open a level of nesting. -/
inductive Phrase where
  | expression
  | signedOperand
  | exponent
  | rootOperand
deriving DecidableEq, Repr

/-- What a reading knows of its text as a whole. -/
structure Setting where
  /-- Whether a factor without an operator before it may carry an exponent. -/
  implicitPowers : Bool
  /-- The names to report once a letter without meaning is met. -/
  disallowed : List String

/-- The place behind the parenthesis that closes a group. -/
def closeParen (c : Cursor) : Except ParseError Cursor :=
  match c.rest with
  | [] => violation .unbalancedParentheses
  | token :: _ => if token.kind = .rightParen then .ok c.advance else unexpected token

section Level

variable (setting : Setting) (inner : Phrase → Reader)

/-- An expression in parentheses, from the opening one on. -/
def group : Reader := fun c ↦
  if c.advance.rest.isEmpty then violation .unbalancedParentheses
  else do
    let (e, c) ← inner .expression c.advance
    return (.group e, ← closeParen c)

/-- A call of the function with the given name, from the name on. -/
def call (name : String) : Reader := fun c ↦
  if name ≠ Token.rootName then .error (.unknownFunction name)
  else if c.advance.peek ≠ some .leftParen then violation .functionCallWithoutParentheses
  else do
    let (e, c) ← inner .expression c.advance.advance
    return (.sqrt e, ← closeParen c)

/-- A number, a variable, a group or a call. -/
def primary : Reader := fun c ↦
  match c.rest with
  | [] => violation .missingOperand
  | token :: _ =>
    match token.kind with
    | .integer v => .ok (.constant (.integer v), c.advance)
    | .real x => .ok (.constant (.float x), c.advance)
    | .integerTooLarge => violation .numberTooLarge
    | .name x => .ok (.var x, c.advance)
    | .unresolved _ => .error (.disallowedVariables setting.disallowed)
    | .leftParen => group inner c
    | .function name => call inner name c
    | .rightParen => violation .missingOperand
    | .times | .dividedBy | .caret =>
      if (c.previous.map Token.Kind.isBinaryOperator).getD false then
        violation .subsequentBinaryOperators
      else violation .missingOperand
    | .plus | .minus | .rootSign | .equals | .invalid _ => unexpected token

/-- A root sign with its operand, or a primary. -/
def rootOrPrimary : Reader := fun c ↦
  if c.peek = some .rootSign then
    if c.advance.rest.isEmpty then violation .hangingSquareRoot
    else do
      let (e, c) ← inner .rootOperand c.advance
      return (.sqrt e, c)
  else primary setting inner c

/-- A sign with its operand, which is a phrase of its own, or an operand without a sign. -/
def signed (phrase : Phrase) (unsigned : Reader) : Reader := fun c ↦
  match c.peek with
  | some .plus => do
    let (e, c) ← inner phrase c.advance
    return (.pos e, c)
  | some .minus => do
    let (e, c) ← inner phrase c.advance
    return (.neg e, c)
  | _ => unsigned c

/-- The base with the exponent that follows it, if one does. -/
def withExponent (base : Expr) : Reader := fun c ↦
  if c.peek = some .caret then do
    let (e, c) ← inner .exponent c.advance
    return (.pow base e, c)
  else .ok (base, c)

/-- An operand and its exponent, if it has one. -/
def power : Reader := fun c ↦ do
  let (base, c) ← rootOrPrimary setting inner c
  withExponent inner base c

/-- A factor without an operator before it. -/
def implicitFactor : Reader := fun c ↦ do
  let (base, c) ← rootOrPrimary setting inner c
  if c.peek = some .caret ∧ ¬setting.implicitPowers then violation .exponentOnImplicitOperand
  else withExponent inner base c

/-- Fails before a number, which cannot continue a product without an operator. -/
def rejectNumber (c : Cursor) : Except ParseError Unit :=
  if (c.peek.map Token.Kind.isNumber).getD false then
    match c.previous with
    | some (.name _) => violation .numberAfterVariable
    | some kind =>
      if kind.isNumber then violation .spacesBetweenNumbers else violation .numberAfterOperand
    | none => violation .numberAfterOperand
  else .ok ()

/-- One more factor of an implicit product, read by `factor`. -/
def implicitStep (factor : Reader) (left : Expr) (c : Cursor) :
    Except ParseError (Option (Expr × Cursor)) :=
  if (c.peek.map Token.Kind.startsImplicitFactor).getD false then do
    let (right, c) ← factor c
    return some (.mul left right, c)
  else .ok none

/-- An operand without a sign under a sign: an implicit product. -/
def signedProduct : Reader := fun c ↦ do
  let (first, c) ← power setting inner c
  let (e, c) ← chain (implicitStep (implicitFactor setting inner)) first c
  rejectNumber c
  return (e, c)

/-- An operand of a product or quotient, with its signs. -/
def operand : Reader := fun c ↦
  match c.peek with
  | some .plus | some .minus =>
    signed inner .signedOperand (signedProduct setting inner) c
  | _ => power setting inner c

/-- One more factor or divisor after its sign. -/
def productStep (left : Expr) (c : Cursor) : Except ParseError (Option (Expr × Cursor)) :=
  match c.peek with
  | some .times => do
    let (right, c) ← operand setting inner c.advance
    return some (.mul left right, c)
  | some .dividedBy => do
    let (right, c) ← operand setting inner c.advance
    return some (.div left right, c)
  | _ => .ok none

/-- A chain of explicit products and quotients. -/
def product : Reader := fun c ↦ do
  let (first, c) ← operand setting inner c
  chain (productStep setting inner) first c

/-- A factor without an operator before it, and the explicit products and quotients after it. -/
def implicitProduct : Reader := fun c ↦ do
  let (first, c) ← implicitFactor setting inner c
  chain (productStep setting inner) first c

/-- A summand: an implicit product of explicit ones. -/
def summand : Reader := fun c ↦ do
  let (first, c) ← product setting inner c
  let (e, c) ← chain (implicitStep (implicitProduct setting inner)) first c
  rejectNumber c
  return (e, c)

/-- One more summand after its sign. -/
def sumStep (left : Expr) (c : Cursor) : Except ParseError (Option (Expr × Cursor)) :=
  match c.peek with
  | some .plus => do
    let (right, c) ← summand setting inner c.advance
    return some (.add left right, c)
  | some .minus => do
    let (right, c) ← summand setting inner c.advance
    return some (.sub left right, c)
  | _ => .ok none

/-- A sum. -/
def sum : Reader := fun c ↦ do
  let (first, c) ← summand setting inner c
  chain (sumStep setting inner) first c

/-- One level of a phrase. -/
def level (phrase : Phrase) : Reader :=
  match phrase with
  | .expression => sum setting inner
  | .signedOperand => signed inner .signedOperand (signedProduct setting inner)
  | .exponent => signed inner .exponent (power setting inner)
  | .rootOperand => signed inner .rootOperand (rootOrPrimary setting inner)

end Level

/-- Reads a phrase with at most `limit` levels of nesting, its own included. -/
def nested (setting : Setting) : (limit : Nat) → Phrase → Reader
  | 0, _ => fun _ ↦ violation .nestingTooDeep
  | limit + 1, phrase => level setting (nested setting limit) phrase

end SchoolAlgebra.Grammar
