import Reckoner.Operator
import Reckoner.Span

/-!
Tokens of a line. The type of the texts that identifiers and numbers carry is a parameter: it is
`String` while a line is scanned, and `Name` once the texts have been put into a name table. -/

namespace Reckoner

/-- What a token is, with the text of an identifier or a number. -/
inductive TokenKind (α : Type) where
  | ret
  | ident (name : α)
  | number (text : α)
  | plus | minus | star | slash | caret
  | lparen | rparen
  | eq
  | invalid
  | eof
deriving DecidableEq, Repr

/-- A token and where it stands. -/
structure Token (α : Type) where
  kind : TokenKind α
  span : Span
deriving DecidableEq, Repr

namespace TokenKind

variable {α β : Type}

/-- What the token is called in dumps and messages. -/
def describe : TokenKind α → String
  | .ret => "return"
  | .ident _ => "identifier"
  | .number _ => "number"
  | .plus => "+"
  | .minus => "-"
  | .star => "*"
  | .slash => "/"
  | .caret => "^"
  | .lparen => "("
  | .rparen => ")"
  | .eq => "="
  | .invalid => "invalid character"
  | .eof => "end of line"

/-- Whether an expression can begin with the token. -/
def startsExpression : TokenKind α → Bool
  | .ident _ | .number _ | .lparen | .plus | .minus => true
  | _ => false

/-- Whether the token is a character that is part of no token. -/
def isInvalid : TokenKind α → Bool
  | .invalid => true
  | _ => false

/-- Whether the token ends the line. -/
def isEof : TokenKind α → Bool
  | .eof => true
  | _ => false

/-- The operator that the token spells. -/
def operator? : TokenKind α → Option Operator
  | .plus => some .add
  | .minus => some .sub
  | .star => some .mul
  | .slash => some .div
  | _ => none

/-- The text that the token carries. -/
def payload? : TokenKind α → Option α
  | .ident a | .number a => some a
  | _ => none

/-- The kind with another text. -/
def map (f : α → β) : TokenKind α → TokenKind β
  | .ret => .ret
  | .ident a => .ident (f a)
  | .number a => .number (f a)
  | .plus => .plus
  | .minus => .minus
  | .star => .star
  | .slash => .slash
  | .caret => .caret
  | .lparen => .lparen
  | .rparen => .rparen
  | .eq => .eq
  | .invalid => .invalid
  | .eof => .eof

end TokenKind

/-- The token with another text. -/
def Token.map {α β : Type} (f : α → β) (t : Token α) : Token β := ⟨t.kind.map f, t.span⟩

end Reckoner
