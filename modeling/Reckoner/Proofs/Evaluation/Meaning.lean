import Reckoner.Evaluation
import Reckoner.Proofs.Tree.Extent

/-!
What a line means, read off its derivation. A chain of sums or products applies its operators from
the left: first the shorter chain, then the operand behind it, then the operator, and the first of
these that fails is why the chain has no value. Powers and signs have no meaning, whatever their
operands are. -/

namespace Reckoner

variable {α V E : Type}

/-- The text of a token, or its description if it carries none. -/
def Token.text (text : α → String) (t : Token α) : String :=
  (t.kind.payload?.map text).getD t.kind.describe

/-- The identifier that is all there is. -/
def soleIdent? : List (Token α) → Option α
  | [⟨.ident name, _⟩] => some name
  | _ => none

namespace Derivation

variable [Value V E] {rule : Rule}

/-- The value of a derivation, or why it has none. -/
def meaning (scope : Scope α V) : {rule : Rule} → Derivation α rule → Except (EvalError E) V
  | _, .returned _ value => value.meaning scope
  | _, .assigned _ _ value => value.meaning scope
  | _, .first _ d => d.meaning scope
  | _, .link _ left op _ right =>
    match op.kind.operator? with
    | some o =>
      match left.meaning scope with
      | .error e => .error e
      | .ok acc =>
        match right.meaning scope with
        | .error e => .error e
        | .ok v => (Value.apply o acc v).mapError (.arithmetic · ⟨left.start, right.stop⟩)
    | none => .error (.unsupported .exponentiation ⟨left.start, right.stop⟩)
  | _, .signed sign _ inner => .error (.unsupported .signPrefix ⟨sign.span.start, inner.stop⟩)
  | _, .unsigned atom => atom.meaning scope
  | _, .number text span =>
    match Integer.ofText? (scope.text text) with
    | some n => .ok (Value.ofInteger n)
    | none => .error (.literal (scope.text text) span)
  | _, .ident name span =>
    match scope.value? name with
    | some v => .ok v
    | none => .error (.unresolved (scope.text name) span)
  | _, .parens _ inner _ => inner.meaning scope

/-- What the derivation of a line does. An assignment needs a lone identifier in front of its sign,
and its value is asked for only then. -/
def outcome (scope : Scope α V) :
    Derivation α .equation → Except (EvalError E) (Outcome α V)
  | .returned _ value => (value.meaning scope).map .returned
  | .assigned target _ value =>
    match soleIdent? target.yield with
    | some name => (value.meaning scope).map (.assigned name)
    | none =>
      .error (.unsupported (.target (String.join (target.yield.map (Token.text scope.text))))
        target.extent)

end Derivation

end Reckoner
