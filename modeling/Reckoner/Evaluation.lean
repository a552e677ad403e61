import Reckoner.Evaluation.Error
import Reckoner.Tree.View
import Reckoner.Value

/-!
The meaning of a line. Each node's value comes from the values of its children and is recorded
under the node's index: an expression or term folds its operands from the left, a literal is its
integer, a variable is what it is bound to, and the other rules pass on the value of their only
operand. The left side of an assignment has no value: it is only read for the variable. -/

namespace Reckoner

/-- Indices of nodes and the values recorded for them, the latest first. -/
abbrev Log (V : Type) := List (Nat × V)

/-- The values of the nodes of a tree that has `size` nodes. -/
structure Attributes (V : Type) where
  size : Nat
  log : Log V

namespace Attributes

variable {V : Type}

/-- The latest value recorded for each node. -/
def slots (t : Attributes V) : Array (Option V) :=
  t.log.foldr (fun e slots => slots.setIfInBounds e.1 (some e.2)) (.replicate t.size none)

/-- The value of a node. -/
def get? (t : Attributes V) (id : Nat) : Option V := t.slots[id]?.join

/-- Number of nodes with a value. -/
def count (t : Attributes V) : Nat := t.slots.countP Option.isSome

/-- The nodes with a value, in order, and their values. -/
def toList (t : Attributes V) : List (Nat × V) :=
  t.slots.toList.zipIdx.filterMap fun (slot, id) => slot.map (id, ·)

end Attributes

/-- What evaluating a line did. -/
inductive Outcome (α V : Type) where
  | assigned (name : α) (value : V)
  | returned (value : V)
deriving DecidableEq, Repr

/-- What the names in a tree mean: the values bound to them, and their texts. -/
structure Scope (α V : Type) where
  value? : α → Option V
  text : α → String

namespace View

variable {α V E : Type}

/-- Whether a node is a token of some kind; there is no telling at a gap. -/
def isToken (p : TokenKind α → Bool) : View α → Except (EvalError E) Bool
  | .gap id => .error (.gap id)
  | .node _ (.token k) _ _ => .ok (p k)
  | .node _ _ _ _ => .ok false

/-- Whether two nodes are a pair of parentheses. -/
def enclosed (opening closing : View α) : Except (EvalError E) Bool :=
  match opening.isToken (· matches .lparen) with
  | .ok true => closing.isToken (· matches .rparen)
  | .ok false => .ok false
  | .error e => .error e

/-- The operators that a rule folds its operands with. -/
def foldsWith (rule : Rule) (op : Operator) : Bool :=
  match rule, op with
  | .expression, .add | .expression, .sub | .term, .mul | .term, .div => true
  | _, _ => false

/-- The operator that a kind of node spells. -/
def operator? : NodeKind α → Option Operator
  | .token k => k.operator?
  | _ => none

/-- The operator that a node spells within a rule. -/
def operatorIn (rule : Rule) : View α → Except (EvalError E) Operator
  | .gap id => .error (.gap id)
  | .node _ kind span _ =>
    match (operator? kind).filter (foldsWith rule) with
    | some op => .ok op
    | none => .error (.unsupported (.notAnOperator rule kind.describe) span)

/-- The span of a node. -/
def span? : View α → Option Span
  | .gap _ => none
  | .node _ _ span _ => some span

/-- The error at a node, or at the gap that it is. -/
def fail (shape : Unsupported) : View α → EvalError E
  | .gap id => .gap id
  | .node _ _ span _ => .unsupported shape span

section Operands

variable [Value V E] (scope : Scope α V)

mutual

/-- The value of a node that is an operand of a rule, when `log` was recorded before. -/
def operand (rule : Rule) : View α → Log V → Except (EvalError E) V × Log V
  | .gap id, log => (.error (.gap id), log)
  | .node _ (.token k) span _, log =>
    (.error (.unsupported (.tokenAsOperand rule k.describe) span), log)
  | .node id (.scientific a) span _, log =>
    match Integer.ofText? (scope.text a) with
    | some n => let v := Value.ofInteger n; (.ok v, (id, v) :: log)
    | none => (.error (.literal (scope.text a) span), log)
  | .node id (.variable a) span _, log =>
    match scope.value? a with
    | some v => (.ok v, (id, v) :: log)
    | none => (.error (.unresolved (scope.text a) span), log)
  | .node id (.rule r) span children, log =>
    match reduce r span children log with
    | (.ok v, log) => (.ok v, (id, v) :: log)
    | (.error e, log) => (.error e, log)

/-- The value of a rule's node from its children. -/
def reduce (rule : Rule) (span : Span) (children : List (View α)) (log : Log V) :
    Except (EvalError E) V × Log V :=
  match rule with
  | .equation => (.error (.unsupported .misplacedEquation span), log)
  | .expression | .term =>
    match children with
    | [] => (.error (.unsupported (.noOperands rule) span), log)
    | first :: rest =>
      match operand rule first log with
      | (.ok v, log) =>
        if rest.length % 2 = 1 then
          (.error ((rest.getLast?.getD first).fail (.danglingOperator rule)), log)
        else fold rule (first.span?.getD .none) v rest log
      | (.error e, log) => (.error e, log)
  | .factor =>
    match children with
    | [] => (.error (.unsupported (.childCount rule 0) span), log)
    | [only] => operand rule only log
    | _ :: _ :: _ => (.error (.unsupported .exponentiation span), log)
  | .signedAtom =>
    match children with
    | [] => (.error (.unsupported (.childCount rule 0) span), log)
    | [only] => operand rule only log
    | _ :: _ :: _ => (.error (.unsupported .signPrefix span), log)
  | .atom =>
    match children with
    | [only] => operand rule only log
    | [opening, inner, closing] =>
      match enclosed opening closing with
      | .ok true => operand rule inner log
      | .ok false => (.error (.unsupported (.childCount rule 3) span), log)
      | .error e => (.error e, log)
    | children => (.error (.unsupported (.childCount rule children.length) span), log)

/-- Applies operators to `acc`, the value of what starts at `first`, and the operands behind. -/
def fold (rule : Rule) (first : Span) (acc : V) :
    List (View α) → Log V → Except (EvalError E) V × Log V
  | op :: right :: rest, log =>
    match operatorIn rule op with
    | .error e => (.error e, log)
    | .ok op =>
      match operand rule right log with
      | (.error e, log) => (.error e, log)
      | (.ok v, log) =>
        match Value.apply op acc v with
        | .ok acc => fold rule first acc rest log
        | .error e => (.error (.arithmetic e (first.merge (right.span?.getD .none))), log)
  | _, log => (.ok acc, log)

end

end Operands

/-! ### Lines -/

mutual

/-- The first gap that a walk meets which does not look below tokens. -/
def firstGap? : View α → Option Nat
  | .gap id => some id
  | .node _ (.token _) _ _ => none
  | .node _ _ _ children => firstGapAll? children

/-- The first gap that walks from nodes meet. -/
def firstGapAll? : List (View α) → Option Nat
  | [] => none
  | v :: vs => (firstGap? v).or (firstGapAll? vs)

end

/-- The variable that a node is, under nothing but rules with a single part. -/
def soleVariable? : View α → Option α
  | .node _ (.variable name) _ _ => some name
  | .node _ (.rule rule) _ [only] => if rule = .equation then none else soleVariable? only
  | _ => none

/-- The variable that the left side of an equation assigns to. -/
def assignee (text : α → String) (v : View α) : Except (EvalError E) α :=
  match v.firstGap?, v.soleVariable? with
  | some id, _ => .error (.gap id)
  | none, some name => .ok name
  | none, none => .error (v.fail (.target ((v.text? text).getD "")))

variable [Value V E]

/-- The value of the last part of an equation, handed on to what becomes of it. -/
def concluding (scope : Scope α V) (value : View α) (log : Log V)
    (next : V → Log V → Outcome α V × Log V) :
    Except (EvalError E) (Outcome α V) × Log V :=
  match operand scope .equation value log with
  | (.ok v, log) => let (outcome, log) := next v log; (.ok outcome, log)
  | (.error e, log) => (.error e, log)

/-- What an equation does, with the values recorded on the way. -/
def evaluate (scope : Scope α V) (v : View α) (log : Log V) :
    Except (EvalError E) (Outcome α V) × Log V :=
  match v with
  | .gap id => (.error (.gap id), log)
  | .node id (.rule .equation) span children =>
    match children with
    | [keyword, value] =>
      match keyword.isToken (· matches .ret) with
      | .ok true => concluding scope value log fun v log => (.returned v, (id, v) :: log)
      | .ok false => (.error (.unsupported .malformedEquation span), log)
      | .error e => (.error e, log)
    | [target, eq, value] =>
      match eq.isToken (· matches .eq) with
      | .ok true =>
        match target.assignee scope.text with
        | .ok name => concluding scope value log fun v log => (.assigned name v, log)
        | .error e => (.error e, log)
      | .ok false => (.error (.unsupported .malformedEquation span), log)
      | .error e => (.error e, log)
    | _ => (.error (.unsupported .malformedEquation span), log)
  | .node _ kind span _ => (.error (.unsupported (.notAnEquation kind.ruleName) span), log)

end View

/-- What a tree does as a line, with the values recorded for its nodes. -/
def Tree.evaluate {α V E : Type} [Value V E] (tree : Tree α) (scope : Scope α V) :
    Except (EvalError E) (Outcome α V) × Attributes V :=
  let (result, log) := (tree.view tree.root).evaluate scope []
  (result, ⟨tree.nodes.size, log⟩)

end Reckoner
