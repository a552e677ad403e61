import Reckoner.Token

/-!
The grammar's rules and the phrases that they build. A phrase keeps every operator, keyword and
parenthesis as a leaf among its operands, in the order of the line:

    equation   : 'return' expression | expression '=' expression
    expression : term (('+' | '-') term)*
    term       : factor (('*' | '/') factor)*
    factor     : signedAtom ('^' signedAtom)*
    signedAtom : ('+' | '-') signedAtom | atom
    atom       : scientific | variable | '(' expression ')' -/

namespace Reckoner

/-- The rules with parts of their own. -/
inductive Rule where | equation | expression | term | factor | signedAtom | atom
deriving DecidableEq, Repr

/-- What a node of a syntax tree stands for. -/
inductive NodeKind (α : Type) where
  | rule (rule : Rule)
  | scientific (text : α)
  | variable (name : α)
  | token (kind : TokenKind α)
deriving DecidableEq, Repr

/-- A piece of a line: a leaf, or the parts that a rule puts together. -/
inductive Phrase (α : Type) where
  | leaf (kind : NodeKind α) (span : Span)
  | node (rule : Rule) (parts : List (Phrase α))

/-- The rule's name in dumps and messages. -/
def Rule.name : Rule → String
  | .equation => "equation"
  | .expression => "expression"
  | .term => "term"
  | .factor => "factor"
  | .signedAtom => "signedAtom"
  | .atom => "atom"

namespace NodeKind

variable {α β : Type}

/-- The name of the rule that a node of this kind comes from. -/
def ruleName : NodeKind α → String
  | .rule r => r.name
  | .scientific _ => "scientific"
  | .variable _ => "variable"
  | .token _ => "token"

/-- What a node of this kind is called where an operand or operator is expected. -/
def describe : NodeKind α → String
  | .token k => k.describe
  | kind => kind.ruleName

/-- The text that a node of this kind carries. -/
def payload? : NodeKind α → Option α
  | .scientific a | .variable a => some a
  | .token k => k.payload?
  | .rule _ => none

/-- The kind with another text. -/
def map (f : α → β) : NodeKind α → NodeKind β
  | .rule r => .rule r
  | .scientific a => .scientific (f a)
  | .variable a => .variable (f a)
  | .token k => .token (k.map f)

end NodeKind

namespace Phrase

variable {α : Type}

/-- A token kept as a leaf. -/
def ofToken (t : Token α) : Phrase α := .leaf (.token t.kind) t.span

/-- Operands that each have an operator behind them, the latest pair first. -/
abbrev Links (α : Type) := List (Phrase α × Token α)

/-- The phrase of a rule for chains: the linked operands in order, then the last operand. -/
def chain (rule : Rule) (links : Links α) (last : Phrase α) : Phrase α :=
  .node rule (links.foldl (fun parts link => link.1 :: ofToken link.2 :: parts) [last])

/-- An atom behind its signs, the latest sign first. -/
def signed (signs : List (Token α)) (atom : Phrase α) : Phrase α :=
  signs.foldl (fun inner sign => .node .signedAtom [ofToken sign, inner]) (.node .signedAtom [atom])

end Phrase

end Reckoner
