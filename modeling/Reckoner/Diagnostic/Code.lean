/-!
The codes that errors are looked up by. The first digit tells the phase that reports the error:
scanning, parsing, evaluation, or a construct that the grammar accepts and evaluation does not. -/

namespace Reckoner

/-- An error code, by what it stands for. -/
inductive Code where
  | invalidCharacter
  | unexpectedToken
  | expectedExpression
  | unclosedParen
  | trailingInput
  | unresolvedVariable
  | notAnInteger
  | arithmeticFailure
  | unsupportedSyntax
deriving DecidableEq, Repr

namespace Code

/-- The code as it is written. -/
def id : Code → String
  | .invalidCharacter => "E0001"
  | .unexpectedToken => "E1001"
  | .expectedExpression => "E1002"
  | .unclosedParen => "E1003"
  | .trailingInput => "E1004"
  | .unresolvedVariable => "E6001"
  | .notAnInteger => "E6002"
  | .arithmeticFailure => "E6003"
  | .unsupportedSyntax => "E9001"

/-- What the code stands for, in one line. -/
def description : Code → String
  | .invalidCharacter => "invalid character in source"
  | .unexpectedToken => "unexpected token"
  | .expectedExpression => "expected an expression"
  | .unclosedParen => "unclosed parenthesis"
  | .trailingInput => "unexpected input after the end of the line"
  | .unresolvedVariable => "variable read before it was assigned"
  | .notAnInteger => "numeric literal is not an integer"
  | .arithmeticFailure => "arithmetic operation failed"
  | .unsupportedSyntax => "syntax the evaluator does not support"

/-- All codes in numeric order. -/
def all : List Code :=
  [.invalidCharacter, .unexpectedToken, .expectedExpression, .unclosedParen, .trailingInput,
   .unresolvedVariable, .notAnInteger, .arithmeticFailure, .unsupportedSyntax]

/-- Whether two texts are equal but for the case of ASCII letters. -/
def equalIgnoringCase (s t : String) : Bool :=
  s.toList.map Char.toLower == t.toList.map Char.toLower

/-- The code that a text writes, in capital or small letters. -/
def parse? (s : String) : Option Code := all.find? fun c => equalIgnoringCase c.id s

/-- Whether the code tells of a gap between grammar and evaluation. -/
def isInternal : Code → Bool
  | .unsupportedSyntax => true
  | _ => false

end Code

end Reckoner
