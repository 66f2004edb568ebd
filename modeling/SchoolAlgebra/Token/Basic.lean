import SchoolAlgebra.Text.Lexeme

/-!
# Tokens

The units from which expressions are read. A token has a kind, which carries the value or the name
that the token stands for, and the characters that it covers with the byte offset of the first.
-/

namespace SchoolAlgebra

namespace Token

/-- What a token stands for. Letters that make no allowed name are `unresolved`. -/
inductive Kind where
  | integer (value : Int64)
  | real (value : Float)
  | integerTooLarge
  | name (text : String)
  | function (name : String)
  | unresolved (letters : String)
  | plus
  | minus
  | times
  | dividedBy
  | caret
  | rootSign
  | leftParen
  | rightParen
  | equals
  | invalid (char : Char)
deriving DecidableEq

namespace Kind

/-- Whether the kind is a numeral. -/
def isNumber : Kind → Bool
  | integer _ | real _ | integerTooLarge => true
  | _ => false

/-- Whether the kind is an operator between two operands. -/
def isBinaryOperator : Kind → Bool
  | plus | minus | times | dividedBy | caret => true
  | _ => false

/-- Whether an operand of this kind may follow another without an operator between them. -/
def startsImplicitFactor : Kind → Bool
  | leftParen | rootSign | function _ | name _ | unresolved _ => true
  | _ => false

/-- The kind of an operator or parenthesis written by one character. -/
def ofSymbol? : Char → Option Kind
  | '+' => some plus
  | '-' | '−' => some minus
  | '*' | '×' => some times
  | '/' | '÷' => some dividedBy
  | '^' => some caret
  | '√' => some rootSign
  | '(' => some leftParen
  | ')' => some rightParen
  | '=' => some equals
  | _ => none

end Kind

end Token

/-- A unit of a text: its kind, its characters, and the byte offset at which they start. -/
structure Token where
  kind : Token.Kind
  start : Nat
  chars : List Char
deriving DecidableEq

namespace Token

/-- The characters of the token as a text. -/
def text (t : Token) : String := String.ofList t.chars

/-- The byte offset just past the token. -/
def stop (t : Token) : Nat := t.start + Text.byteLength t.chars

end Token

end SchoolAlgebra
