/-!
# Tokens of circuit code

A token is a piece of the text with its kind and its place, which is counted in bytes from the
start and, for readers, in characters from one.
-/

namespace CircuitCode

/-- The kinds of tokens. -/
inductive TokenKind where
  | openBracket
  | closeBracket
  | openParen
  | closeParen
  | openBrace
  | closeBrace
  | comma
  | colon
  | equals
  | slash
  /-- The symbol of an element, outside a parameter block. -/
  | symbol
  /-- A parameter's name or the fixed flag, in a parameter block. -/
  | identifier
  /-- What should be a number; whether it is one is decided when it is read. -/
  | number
  /-- Free text between a colon and the closing brace. -/
  | label
deriving DecidableEq, Repr

/-- A token of circuit code. -/
structure Token where
  kind : TokenKind
  text : String
  /-- The number of bytes before the token. -/
  position : Nat
  /-- One more than the number of characters before the token. -/
  column : Nat
deriving DecidableEq, Repr

/-- The kind of a punctuation mark. -/
def TokenKind.punctuation? (c : Char) : Option TokenKind :=
  match c with
  | '[' => some openBracket
  | ']' => some closeBracket
  | '(' => some openParen
  | ')' => some closeParen
  | '\x7b' => some openBrace
  | '\x7d' => some closeBrace
  | ',' => some comma
  | ':' => some colon
  | '=' => some equals
  | '/' => some slash
  | _ => none

/-- The length of a text in bytes. -/
def byteLength (text : List Char) : Nat := text.foldr (fun c bytes => c.utf8Size + bytes) 0

end CircuitCode
