import Reckoner.Phrase

/-!
Parsing the tokens of a line. The parser is an automaton that reads one token at a time: it either
expects an operand or has just read one, and keeps what is pending in front of that place, level by
level of open parentheses. Reading a token changes the state or ends in an error at that token, so
an error depends on the tokens up to it and on nothing behind it. -/

namespace Reckoner

/-- Why a line is no phrase of the grammar, with the name of the token that was found. -/
inductive ParseError where
  | invalidCharacter (span : Span)
  | expectedEquals (found : String) (span : Span)
  | expectedExpression (found : String) (span : Span)
  | unclosedParen (opened : Span) (found : String) (span : Span)
  | trailingInput (found : String) (span : Span)
deriving DecidableEq, Repr

namespace Parse

variable {α : Type}

open Phrase (Links)

/-- What is pending within one pair of parentheses: the parts that are complete and have an
operator behind them, for each of the three chain rules. -/
structure Pending (α : Type) where
  terms : Links α := []
  factors : Links α := []
  atoms : Links α := []

/-- A level that was left for a parenthesis: what was pending, and the signs in front of it. -/
structure Level (α : Type) where
  pending : Pending α
  signs : List (Token α)
  opening : Token α

/-- What comes next: an operand (behind signs), or something behind the operand just read. -/
inductive Place (α : Type) where
  | operand (signs : List (Token α))
  | behind (operand : Phrase α)

/-- Which side of the equation is read: the left one, or the last one behind `before`. -/
inductive Side (α : Type) where
  | target
  | value (before : List (Phrase α))

/-- The state between two tokens; the innermost open level comes first. -/
structure State (α : Type) where
  side : Side α
  levels : List (Level α)
  pending : Pending α
  place : Place α

/-! ### Completing phrases -/

/-- The factor that ends with `last`. -/
def Pending.factor (p : Pending α) (last : Phrase α) : Phrase α := .chain .factor p.atoms last

/-- The term that ends with `last`. -/
def Pending.term (p : Pending α) (last : Phrase α) : Phrase α :=
  .chain .term p.factors (p.factor last)

/-- The expression that ends with `last`. -/
def Pending.expression (p : Pending α) (last : Phrase α) : Phrase α :=
  .chain .expression p.terms (p.term last)

/-- What is pending behind the operand `last` and the operator `op`, if it is one. -/
def Pending.link? (p : Pending α) (last : Phrase α) (op : Token α) : Option (Pending α) :=
  match op.kind with
  | .caret => some { p with atoms := (last, op) :: p.atoms }
  | .star | .slash => some { p with factors := (p.factor last, op) :: p.factors, atoms := [] }
  | .plus | .minus => some { terms := (p.term last, op) :: p.terms }
  | _ => none

/-! ### Reading tokens -/

namespace State

/-- The state in front of an expression on the given side. -/
def start (side : Side α) : State α := ⟨side, [], {}, .operand []⟩

/-- The state behind an atom that stands behind signs. -/
def afterAtom (s : State α) (signs : List (Token α)) (parts : List (Phrase α)) : State α :=
  { s with place := .behind (.signed signs (.node .atom parts)) }

/-- Reads a token where an operand is expected. -/
def readOperand (s : State α) (signs : List (Token α)) (t : Token α) :
    Except ParseError (State α) :=
  match t.kind with
  | .number text => .ok (s.afterAtom signs [.leaf (.scientific text) t.span])
  | .ident name => .ok (s.afterAtom signs [.leaf (.variable name) t.span])
  | .lparen => .ok ⟨s.side, ⟨s.pending, signs, t⟩ :: s.levels, {}, .operand []⟩
  | .plus | .minus => .ok { s with place := .operand (t :: signs) }
  | kind => .error (.expectedExpression kind.describe t.span)

/-- The error at a token that cannot stand behind an operand. -/
def refusal (s : State α) (t : Token α) : ParseError :=
  match s.levels, s.side with
  | level :: _, _ => .unclosedParen level.opening.span t.kind.describe t.span
  | [], .target => .expectedEquals t.kind.describe t.span
  | [], .value _ => .trailingInput t.kind.describe t.span

/-- Reads a token behind an operand: an operator, a closing parenthesis or the equals sign. -/
def readBehind (s : State α) (last : Phrase α) (t : Token α) : Except ParseError (State α) :=
  match s.pending.link? last t with
  | some pending => .ok { s with pending, place := .operand [] }
  | none =>
    match t.kind, s.levels, s.side with
    | .rparen, level :: levels, side =>
      let parts := [.ofToken level.opening, s.pending.expression last, .ofToken t]
      .ok (afterAtom ⟨side, levels, level.pending, s.place⟩ level.signs parts)
    | .eq, [], .target => .ok (start (.value [s.pending.expression last, .ofToken t]))
    | _, _, _ => .error (s.refusal t)

/-- Reads one token. -/
def step (s : State α) (t : Token α) : Except ParseError (State α) :=
  match s.place with
  | .operand signs => s.readOperand signs t
  | .behind last => s.readBehind last t

/-- Reads tokens from left to right, up to the first error. -/
def read (s : State α) : List (Token α) → Except ParseError (State α)
  | [] => .ok s
  | t :: ts =>
    match s.step t with
    | .ok s' => s'.read ts
    | .error e => .error e

/-- What is read behind some tokens depends only on the state that they lead to. -/
theorem read_append (s : State α) (ts us : List (Token α)) :
    s.read (ts ++ us) = match s.read ts with
      | .ok s' => s'.read us
      | .error e => .error e := by
  induction ts generalizing s with
  | nil => rfl
  | cons t ts ih =>
    simp only [List.cons_append, read]
    cases s.step t with
    | ok s' => exact ih s'
    | error e => rfl

/-- The equation that is complete at the end-of-line token. -/
def finish (s : State α) (eof : Token α) : Except ParseError (Phrase α) :=
  match s.place, s.levels, s.side with
  | .operand _, _, _ => .error (.expectedExpression eof.kind.describe eof.span)
  | .behind last, [], .value before =>
    .ok (.node .equation (before ++ [s.pending.expression last]))
  | .behind _, _, _ => .error (s.refusal eof)

end State

/-- The state in which the first token of a line is read, and the tokens to read: the keyword can
only stand first. -/
def opening : List (Token α) → State α × List (Token α)
  | ⟨.ret, span⟩ :: ts => (.start (.value [.ofToken ⟨.ret, span⟩]), ts)
  | ts => (.start .target, ts)

/-- Reads the tokens in front of the end of a line. -/
def readLine (ts : List (Token α)) : Except ParseError (State α) :=
  let (s, ts) := opening ts
  s.read ts

end Parse

namespace Phrase

variable {α : Type}

/-- The error for the first character that is part of no token. -/
def invalid? (ts : List (Token α)) : Option ParseError :=
  (ts.find? (·.kind.isInvalid)).map fun t => .invalidCharacter t.span

/-- The phrase that a line's tokens `body` and its end-of-line token `eof` spell. A character that
is part of no token is reported before anything else. -/
def ofLine (body : List (Token α)) (eof : Token α) : Except ParseError (Phrase α) :=
  match invalid? body with
  | some e => .error e
  | none =>
    match Parse.readLine body with
    | .ok s => s.finish eof
    | .error e => .error e

/-- The phrase that a list of tokens spells up to its first end-of-line token. There is no answer
when the list is not empty, and ends before it has been decided. -/
def ofTokens? (ts : List (Token α)) : Option (Except ParseError (Phrase α)) :=
  match invalid? ts, ts with
  | some e, _ => some (.error e)
  | none, [] => some (.error (.expectedExpression (.eof : TokenKind α).describe .none))
  | none, ts =>
    match Parse.readLine (ts.takeWhile (!·.kind.isEof)), ts.dropWhile (!·.kind.isEof) with
    | .error e, _ => some (.error e)
    | .ok s, eof :: _ => some (s.finish eof)
    | .ok _, [] => none

end Phrase

end Reckoner
