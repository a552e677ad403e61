import Reckoner.Proofs.Parse.Descent
import Reckoner.Proofs.Tree.Storage

/-!
The descent with its builder. The parser has no phrases: each rule adds its nodes to the storage
while it reads, a leaf when it moves past a token and its own node when its last part is there, and
keeps only the indices that it was given. -/

namespace Reckoner

namespace Building

open Descent

variable {α : Type} {m n : Nat}

/-- Why a rule comes to no end: there is no current token, it is an error, or the builder cannot go
on. -/
inductive Halt where
  | past
  | refused (e : ParseError)
  | stopped (e : BuildError)
deriving DecidableEq, Repr

/-- What comes of reading a rule where `n` tokens are left: the index of its node, what is stored
now, and fewer tokens. -/
structure Reached (α : Type) (n : Nat) where
  id : Nat
  storage : Storage α
  rest : List (Token α)
  fewer : rest.length < n

/-- The same, where more tokens may have been left. -/
def Reached.widen (r : Reached α n) (h : n ≤ m) : Reached α m :=
  { r with fewer := Nat.lt_of_lt_of_le r.fewer h }

/-- Asks the builder for a node. -/
def add (s : Storage α) (step : BuildStep α) : Except Halt (Nat × Storage α) :=
  (s.build step).mapError .stopped

/-- Keeps a token as a leaf. -/
def addToken (s : Storage α) (t : Token α) : Except Halt (Nat × Storage α) :=
  add s (.leaf (.token t.kind) t.span)

/-- Adds the node of a rule over its parts. -/
def close (rule : Rule) (ids : List Nat) (s : Storage α) (rest : List (Token α))
    (fewer : rest.length < n) : Except Halt (Reached α n) := do
  let (id, s) ← add s (.node (.rule rule) ids)
  return ⟨id, s, rest, fewer⟩

/-! ### The rules -/

mutual

/-- Reads a phrase of the rule. -/
def read (rule : Rule) (ts : List (Token α)) (s : Storage α) : Except Halt (Reached α ts.length) :=
  match rule with
  | .equation =>
    match ts with
    | [] => .error .past
    | t :: ts =>
      match hk : t.kind with
      | .ret => do
        have hlt := length_advance_lt (congrArg TokenKind.isEof hk) ts
        let (keyword, s) ← addToken s t
        let ⟨value, s, rest, h⟩ ← read .expression (advance (t :: ts)) s
        close .equation [keyword, value] s rest (Nat.lt_trans h hlt)
      | _ => do
        let ⟨target, s, rest, h⟩ ← read .expression (t :: ts) s
        match rest, h with
        | [], _ => .error .past
        | u :: rest, h =>
          match hu : u.kind with
          | .eq => do
            have hlt := Nat.lt_trans (length_advance_lt (congrArg TokenKind.isEof hu) rest) h
            let (sign, s) ← addToken s u
            let ⟨value, s, rest', h'⟩ ← read .expression (advance (u :: rest)) s
            close .equation [target, sign, value] s rest' (Nat.lt_trans h' hlt)
          | found => .error (.refused (.expectedEquals found.describe u.span))
  | .expression => do
    let ⟨id, s, rest, h⟩ ← read .term ts s
    (links .expression .term [id] rest s).map (·.widen h)
  | .term => do
    let ⟨id, s, rest, h⟩ ← read .factor ts s
    (links .term .factor [id] rest s).map (·.widen h)
  | .factor => do
    let ⟨id, s, rest, h⟩ ← read .signedAtom ts s
    (links .factor .signedAtom [id] rest s).map (·.widen h)
  | .signedAtom =>
    match ts with
    | [] => .error .past
    | t :: ts =>
      if hsign : t.kind.isSign = true then do
        have hlt := length_advance_lt (TokenKind.kind_of_isSign hsign).2 ts
        let (sign, s) ← addToken s t
        let ⟨inner, s, rest, h⟩ ← read .signedAtom (advance (t :: ts)) s
        close .signedAtom [sign, inner] s rest (Nat.lt_trans h hlt)
      else do
        let ⟨atom, s, rest, h⟩ ← read .atom (t :: ts) s
        close .signedAtom [atom] s rest h
  | .atom =>
    match ts with
    | [] => .error .past
    | t :: ts =>
      match hk : t.kind with
      | .number text => do
        let (literal, s) ← add s (.leaf (.scientific text) t.span)
        close .atom [literal] s (advance (t :: ts))
          (length_advance_lt (congrArg TokenKind.isEof hk) ts)
      | .ident text => do
        let (name, s) ← add s (.leaf (.variable text) t.span)
        close .atom [name] s (advance (t :: ts))
          (length_advance_lt (congrArg TokenKind.isEof hk) ts)
      | .lparen => do
        have hlt := length_advance_lt (congrArg TokenKind.isEof hk) ts
        let (opening, s) ← addToken s t
        let ⟨inner, s, rest, h⟩ ← read .expression (advance (t :: ts)) s
        match rest, h with
        | [], _ => .error .past
        | u :: rest, h =>
          match hu : u.kind with
          | .rparen => do
            let (closing, s) ← addToken s u
            close .atom [opening, inner, closing] s (advance (u :: rest))
              (Nat.lt_trans (length_advance_lt (congrArg TokenKind.isEof hu) rest)
                (Nat.lt_trans h hlt))
          | found => .error (.refused (.unclosedParen t.span found.describe u.span))
      | found => .error (.refused (.expectedExpression found.describe t.span))
termination_by (ts.length, rule.rank)

/-- Goes on with operators of the rule and operands behind the parts of a chain so far. -/
def links (rule operand : Rule) (ids : List Nat) (ts : List (Token α)) (s : Storage α) :
    Except Halt (Reached α (ts.length + 1)) :=
  match ts with
  | [] => .error .past
  | t :: ts =>
    if hop : rule.joins t.kind = true then do
      have hlt := length_advance_lt (Rule.kind_of_joins hop).2 ts
      let (op, s) ← addToken s t
      let ⟨next, s, rest, h⟩ ← read operand (advance (t :: ts)) s
      have hrest := Nat.lt_trans h hlt
      (links rule operand (ids ++ [op] ++ [next]) rest s).map (·.widen (Nat.le_succ_of_le hrest))
    else close rule ids s (t :: ts) (Nat.lt_succ_self _)
termination_by (ts.length, 0)

end

/-- Reads an equation with nothing but the end of the line behind it, and gives the index of its
node. -/
def parseLine (ts : List (Token α)) : Except Halt (Nat × Storage α) := do
  let ⟨root, s, rest, _⟩ ← read .equation ts .empty
  match rest with
  | [] => .error .past
  | t :: _ =>
    if t.kind.isEof then .ok (root, s)
    else .error (.refused (.trailingInput t.kind.describe t.span))

/-- The root of the tree that a list of tokens spells, and what is stored for it: an invalid
character is reported before anything is built. -/
def parse (ts : List (Token α)) : Except Halt (Nat × Storage α) :=
  match Phrase.invalid? ts, ts with
  | some e, _ => .error (.refused e)
  | none, [] => .error (.refused (.expectedExpression (.eof : TokenKind α).describe .none))
  | none, ts => parseLine ts

end Building

end Reckoner
