import Reckoner.Phrase

/-!
Why a line has no value. -/

namespace Reckoner

/-- The shapes that have no meaning. -/
inductive Unsupported where
  | notAnEquation (rule : String)
  | malformedEquation
  | target (text : String)
  | tokenAsOperand (rule : Rule) (found : String)
  | exponentiation
  | signPrefix
  | childCount (rule : Rule) (count : Nat)
  | noOperands (rule : Rule)
  | danglingOperator (rule : Rule)
  | notAnOperator (rule : Rule) (found : String)
  | misplacedEquation
deriving DecidableEq, Repr

namespace Unsupported

/-- The rule that gives no meaning to the shape. -/
def rule : Unsupported → String
  | .notAnEquation rule => rule
  | .malformedEquation | .target _ | .misplacedEquation => Rule.equation.name
  | .exponentiation => Rule.factor.name
  | .signPrefix => Rule.signedAtom.name
  | .tokenAsOperand rule _ | .childCount rule _ | .noOperands rule | .danglingOperator rule
  | .notAnOperator rule _ => rule.name

/-- What is wrong with the shape. -/
def detail : Unsupported → String
  | .notAnEquation _ => "a line must be an equation"
  | .malformedEquation => "expected `return expression` or `expression = expression`"
  | .target text => "cannot assign to `" ++ text ++ "`"
  | .tokenAsOperand _ found => "expected an operand, found `" ++ found ++ "`"
  | .exponentiation => "exponentiation `^` is not evaluated"
  | .signPrefix => "a sign prefix is not evaluated"
  | .childCount _ count => "expected one child, found " ++ toString count
  | .noOperands _ => "no operands"
  | .danglingOperator _ => "operator without a right operand"
  | .notAnOperator _ found => "`" ++ found ++ "` is not an operator here"
  | .misplacedEquation => "not valid inside an expression"

end Unsupported

/-- Why the evaluation of a line failed; `E` are the errors of the values. -/
inductive EvalError (E : Type) where
  | unresolved (name : String) (span : Span)
  | unsupported (shape : Unsupported) (span : Span)
  | literal (text : String) (span : Span)
  | arithmetic (error : E) (span : Span)
  | gap (id : Nat)
deriving DecidableEq, Repr

end Reckoner
