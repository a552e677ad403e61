import Reckoner.Diagnostic
import Reckoner.Evaluation.Error
import Reckoner.Parse

/-!
What parse errors and evaluation errors report: their wording, their codes and their places. -/

namespace Reckoner

namespace ParseError

/-- The code to look the error up by. -/
def code : ParseError → Code
  | .invalidCharacter .. => .invalidCharacter
  | .expectedEquals .. => .unexpectedToken
  | .expectedExpression .. => .expectedExpression
  | .unclosedParen .. => .unclosedParen
  | .trailingInput .. => .trailingInput

/-- What is wrong with the line. -/
def message : ParseError → String
  | .invalidCharacter _ => "invalid character"
  | .expectedEquals found _ => "expected `=`, found `" ++ found ++ "`"
  | .expectedExpression found _ => "expected expression, found `" ++ found ++ "`"
  | .unclosedParen _ found _ => "expected `)`, found `" ++ found ++ "`"
  | .trailingInput found _ => "unexpected `" ++ found ++ "` after end of equation"

/-- The token at which the line is wrong. -/
def span : ParseError → Span
  | .invalidCharacter span | .expectedEquals _ span | .expectedExpression _ span
  | .unclosedParen _ _ span | .trailingInput _ span => span

/-- Another place that explains the error, with a remark. -/
def related? : ParseError → Option (Span × String)
  | .unclosedParen opened .. => some (opened, "unclosed `(` opened here")
  | _ => none

/-- The remark on the place of the error. -/
def remark : ParseError → String
  | .invalidCharacter .. => "not part of the language"
  | .trailingInput .. => "expected end of line"
  | _ => ""

/-- The report of the error. -/
def diagnostic (e : ParseError) : Diagnostic where
  code := e.code
  message := e.message
  line := none
  labels := ⟨e.span, e.remark, true⟩ :: (e.related?.map fun r => ⟨r.1, r.2, false⟩).toList
  notes := []

end ParseError

namespace EvalError

variable {E : Type}

/-- The code to look the error up by. -/
def code : EvalError E → Code
  | .unresolved .. => .unresolvedVariable
  | .unsupported .. | .gap _ => .unsupportedSyntax
  | .literal .. => .notAnInteger
  | .arithmetic .. => .arithmeticFailure

/-- Where the line failed. -/
def span : EvalError E → Span
  | .unresolved _ span | .unsupported _ span | .literal _ span | .arithmetic _ span => span
  | .gap _ => .none

/-- The error of the values, if that is the cause. -/
def arithmetic? : EvalError E → Option E
  | .arithmetic e _ => some e
  | _ => none

/-- The remark on the place of the error. -/
def remark : EvalError E → String
  | .unresolved .. => "not assigned on an earlier line"
  | .arithmetic .. => "in this operation"
  | _ => ""

/-- What else there is to say. -/
def notes : EvalError E → List String
  | .unresolved name _ => ["assign `" ++ name ++ "` before reading it"]
  | .unsupported .. | .gap _ => ["the grammar accepts this but the evaluator has no meaning for it"]
  | .literal .. => ["only integer literals are evaluated"]
  | .arithmetic .. => []

variable [ToString E]

/-- Why the line has no value. -/
def message : EvalError E → String
  | .unresolved name _ => "unresolved variable `" ++ name ++ "`"
  | .unsupported shape _ => "unsupported " ++ shape.rule ++ ": " ++ shape.detail
  | .literal text _ => "literal `" ++ text ++ "` is not an integer"
  | .arithmetic e _ => toString e
  | .gap id => "node " ++ toString id ++ " is not in the tree"

/-- The report of the error. -/
def diagnostic (e : EvalError E) : Diagnostic where
  code := e.code
  message := e.message
  line := none
  labels := [⟨e.span, e.remark, true⟩]
  notes := e.notes

end EvalError

end Reckoner
