import Reckoner.Proofs.Parse.Complete

/-!
The parser as a recursive descent over a cursor. Each rule of the grammar reads its phrase at the
cursor and leaves the cursor behind it; there is no check against the end of the list, so asking for
a token behind the last one is an outcome of its own. The automaton gives the same answer on every
list of tokens: it takes its steps in the same order, and what is pending in its state is what the
calls of the descent that have not returned are waiting for. -/

namespace Reckoner

/-- How deep the rule can call others before a token is read. -/
@[simp]
def Rule.rank : Rule → Nat
  | .equation => 5
  | .expression => 4
  | .term => 3
  | .factor => 2
  | .signedAtom => 1
  | .atom => 0

namespace Descent

variable {α : Type} {m n : Nat}

/-! ### The cursor -/

/-- Moves past the current token, which is the first one, but stays at an end-of-line token. -/
def advance : List (Token α) → List (Token α)
  | [] => []
  | t :: ts => if t.kind.isEof then t :: ts else ts

theorem advance_cons {t : Token α} (h : t.kind.isEof = false) (ts : List (Token α)) :
    advance (t :: ts) = ts := by
  rw [advance, h]
  rfl

theorem length_advance_lt {t : Token α} (h : t.kind.isEof = false) (ts : List (Token α)) :
    (advance (t :: ts)).length < (t :: ts).length := by
  rw [advance_cons h, List.length_cons]
  omega

/-- What comes of reading where `n` tokens are left: there is no current token, it is an error, or a
phrase has been read and fewer tokens are left behind it. -/
inductive Reading (α : Type) (n : Nat) where
  | past
  | fails (e : ParseError)
  | reads (p : Phrase α) (rest : List (Token α)) (fewer : rest.length < n)

namespace Reading

/-- Goes on behind the phrase, if there is one. -/
def andThen (x : Reading α n)
    (next : Phrase α → ∀ rest : List (Token α), rest.length < n → Reading α m) : Reading α m :=
  match x with
  | .past => .past
  | .fails e => .fails e
  | .reads p rest fewer => next p rest fewer

/-- The same, where more tokens may have been left. -/
def widen (x : Reading α n) (h : n ≤ m) : Reading α m :=
  match x with
  | .past => .past
  | .fails e => .fails e
  | .reads p rest fewer => .reads p rest (Nat.lt_of_lt_of_le fewer h)

end Reading

/-! ### The rules -/

mutual

/-- Reads a phrase of the rule. -/
def read (rule : Rule) (ts : List (Token α)) : Reading α ts.length :=
  match rule with
  | .equation =>
    match ts with
    | [] => .past
    | t :: ts =>
      match hk : t.kind with
      | .ret =>
        have hlt := length_advance_lt (congrArg TokenKind.isEof hk) ts
        (read .expression (advance (t :: ts))).andThen fun value rest h =>
          .reads (.node .equation [.ofToken t, value]) rest (Nat.lt_trans h hlt)
      | _ =>
        (read .expression (t :: ts)).andThen fun target rest h =>
          match rest, h with
          | [], _ => .past
          | u :: rest, h =>
            match hu : u.kind with
            | .eq =>
              have hlt := Nat.lt_trans (length_advance_lt (congrArg TokenKind.isEof hu) rest) h
              (read .expression (advance (u :: rest))).andThen fun value rest' h' =>
                .reads (.node .equation [target, .ofToken u, value]) rest' (Nat.lt_trans h' hlt)
            | found => .fails (.expectedEquals found.describe u.span)
  | .expression =>
    (read .term ts).andThen fun p rest h => (links .expression .term [p] rest).widen h
  | .term => (read .factor ts).andThen fun p rest h => (links .term .factor [p] rest).widen h
  | .factor =>
    (read .signedAtom ts).andThen fun p rest h => (links .factor .signedAtom [p] rest).widen h
  | .signedAtom =>
    match ts with
    | [] => .past
    | t :: ts =>
      if hsign : t.kind.isSign = true then
        have hlt := length_advance_lt (TokenKind.kind_of_isSign hsign).2 ts
        (read .signedAtom (advance (t :: ts))).andThen fun inner rest h =>
          .reads (.node .signedAtom [.ofToken t, inner]) rest (Nat.lt_trans h hlt)
      else
        (read .atom (t :: ts)).andThen fun atom rest h => .reads (.node .signedAtom [atom]) rest h
  | .atom =>
    match ts with
    | [] => .past
    | t :: ts =>
      match hk : t.kind with
      | .number text =>
        .reads (.node .atom [.leaf (.scientific text) t.span]) (advance (t :: ts))
          (length_advance_lt (congrArg TokenKind.isEof hk) ts)
      | .ident name =>
        .reads (.node .atom [.leaf (.variable name) t.span]) (advance (t :: ts))
          (length_advance_lt (congrArg TokenKind.isEof hk) ts)
      | .lparen =>
        have hlt := length_advance_lt (congrArg TokenKind.isEof hk) ts
        (read .expression (advance (t :: ts))).andThen fun inner rest h =>
          match rest, h with
          | [], _ => .past
          | u :: rest, h =>
            match hu : u.kind with
            | .rparen =>
              .reads (.node .atom [.ofToken t, inner, .ofToken u]) (advance (u :: rest))
                (Nat.lt_trans (length_advance_lt (congrArg TokenKind.isEof hu) rest)
                  (Nat.lt_trans h hlt))
            | found => .fails (.unclosedParen t.span found.describe u.span)
      | found => .fails (.expectedExpression found.describe t.span)
termination_by (ts.length, rule.rank)

/-- Goes on with operators of the rule and operands behind the parts of a chain so far. -/
def links (rule operand : Rule) (parts : List (Phrase α)) (ts : List (Token α)) :
    Reading α (ts.length + 1) :=
  match ts with
  | [] => .past
  | t :: ts =>
    if hop : rule.joins t.kind = true then
      have hlt := length_advance_lt (Rule.kind_of_joins hop).2 ts
      (read operand (advance (t :: ts))).andThen fun next rest h =>
        have hrest := Nat.lt_trans h hlt
        (links rule operand (parts ++ [.ofToken t, next]) rest).widen (Nat.le_succ_of_le hrest)
    else .reads (.node rule parts) (t :: ts) (Nat.lt_succ_self _)
termination_by (ts.length, 0)

end

/-- Reads an equation with nothing but the end of the line behind it. -/
def parseLine (ts : List (Token α)) : Option (Except ParseError (Phrase α)) :=
  match read .equation ts with
  | .past => none
  | .fails e => some (.error e)
  | .reads _ [] _ => none
  | .reads p (t :: _) _ =>
    if t.kind.isEof then some (.ok p) else some (.error (.trailingInput t.kind.describe t.span))

/-- The phrase that a list of tokens spells: an invalid character is reported before anything else.
There is no answer if a token is asked for behind the last one. -/
def parse (ts : List (Token α)) : Option (Except ParseError (Phrase α)) :=
  match Phrase.invalid? ts, ts with
  | some e, _ => some (.error e)
  | none, [] => some (.error (.expectedExpression (.eof : TokenKind α).describe .none))
  | none, ts => parseLine ts

end Descent

end Reckoner
