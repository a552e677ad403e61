import Reckoner.Proofs.Evaluation.Target

/-!
The two sides of a line. What stands behind the keyword or the equals sign is evaluated; what stands
in front of the equals sign is only read for a variable. Both sides are told by the kinds of the
tokens alone, and in a line of the grammar they are the expressions that it is derived from. -/

namespace Reckoner

variable {α : Type}

/-- Whether the side of a line that is evaluated begins behind the token. -/
def TokenKind.opensValue : TokenKind α → Bool
  | .ret | .eq => true
  | _ => false

/-- The side in front of the equals sign; there is nothing in front of the keyword. -/
def targetSide (ks : List (TokenKind α)) : List (TokenKind α) := ks.takeWhile (!·.opensValue)

/-- The side behind the keyword or the equals sign. -/
def valueSide (ks : List (TokenKind α)) : List (TokenKind α) :=
  (ks.dropWhile (!·.opensValue)).tail

/-- The name that an identifier token stands for. -/
def TokenKind.ident? : TokenKind α → Option α
  | .ident name => some name
  | _ => none

/-- The identifier that is all there is, by the kinds of the tokens. -/
theorem soleIdent?_eq (ts : List (Token α)) :
    soleIdent? ts = match ts.map Token.kind with
      | [k] => k.ident?
      | _ => none := by
  rcases ts with - | ⟨⟨kind, span⟩, - | ⟨u, ts⟩⟩
  · rfl
  · cases kind <;> rfl
  · exact soleIdent?_eq_none (by simp)

theorem soleIdent?_eq_some {ts : List (Token α)} {name : α} :
    soleIdent? ts = some name ↔ ts.map Token.kind = [.ident name] := by
  rw [soleIdent?_eq]
  rcases ts.map Token.kind with - | ⟨k, - | ⟨k', ks⟩⟩
  · simp
  · cases k <;> simp [TokenKind.ident?]
  · simp

namespace Derivation

variable {rule operand : Rule}

/-- The kinds of the tokens of a derivation. -/
def kinds (d : Derivation α rule) : List (TokenKind α) := d.yield.map Token.kind

@[simp] theorem kinds_returned (keyword : Span) (value : Derivation α .expression) :
    (returned keyword value).kinds = .ret :: value.kinds :=
  rfl

@[simp] theorem kinds_assigned (target : Derivation α .expression) (sign : Span)
    (value : Derivation α .expression) :
    (assigned target sign value).kinds = target.kinds ++ .eq :: value.kinds :=
  List.map_append

@[simp] theorem kinds_link (h : rule.Chains operand) (left : Derivation α rule) (op : Token α)
    (hop : rule.joins op.kind = true) (right : Derivation α operand) :
    (link h left op hop right).kinds = left.kinds ++ op.kind :: right.kinds :=
  List.map_append

@[simp] theorem kinds_parens (opening : Span) (inner : Derivation α .expression) (closing : Span) :
    (parens opening inner closing).kinds = .lparen :: (inner.kinds ++ [.rparen]) :=
  congrArg (TokenKind.lparen :: ·) List.map_append

theorem opensValue_of_joins {k : TokenKind α} (h : rule.joins k = true) : k.opensValue = false := by
  cases rule <;> cases k <;> first | rfl | cases h

/-- The keyword and the equals sign stand in no expression. -/
theorem opensValue_of_mem (d : Derivation α rule) (hrule : rule ≠ .equation) :
    ∀ k ∈ d.kinds, k.opensValue = false := by
  induction d with
  | returned | assigned => exact absurd rfl hrule
  | first h d ih => exact ih h.operand_ne
  | link h left op hop right ihl ihr =>
    rw [kinds_link]
    exact List.forall_mem_append.2
      ⟨ihl hrule, List.forall_mem_cons.2 ⟨opensValue_of_joins hop, ihr h.operand_ne⟩⟩
  | signed sign hsign inner ih =>
    have hkind : sign.kind.opensValue = false := by
      cases hk : sign.kind <;> rw [hk] at hsign <;> first | rfl | cases hsign
    exact List.forall_mem_cons.2 ⟨hkind, ih (by decide)⟩
  | unsigned atom ih => exact ih (by decide)
  | number text span => exact List.forall_mem_singleton.2 rfl
  | ident name span => exact List.forall_mem_singleton.2 rfl
  | parens opening inner closing ih =>
    rw [kinds_parens]
    exact List.forall_mem_cons.2
      ⟨rfl, List.forall_mem_append.2 ⟨ih (by decide), List.forall_mem_singleton.2 rfl⟩⟩

/-- A line that begins with the keyword returns what is behind it. -/
theorem eq_returned {d : Derivation α .equation} {keyword : Span} {ts : List (Token α)}
    (h : d.yield = ⟨.ret, keyword⟩ :: ts) :
    ∃ value : Derivation α .expression, d = .returned keyword value ∧ value.yield = ts := by
  cases d with
  | returned keyword' value =>
    obtain ⟨hkeyword, rfl⟩ := List.cons.inj h
    obtain ⟨-, rfl⟩ := Token.mk.inj hkeyword
    exact ⟨value, rfl, rfl⟩
  | assigned target sign value =>
    cases hy : target.yield with
    | nil => exact absurd hy target.yield_ne_nil
    | cons t us =>
      rw [yield, hy] at h
      obtain ⟨rfl, -⟩ := List.cons.inj h
      have hret : (.ret : TokenKind α) ∈ target.kinds := by simp [kinds, hy]
      cases target.opensValue_of_mem (by decide) _ hret
  | first hc => cases hc
  | link hc => cases hc

section Assigned

variable (target value : Derivation α .expression)

theorem opensValue_target : ∀ k ∈ target.kinds, (!k.opensValue) = true := fun k hk => by
  rw [target.opensValue_of_mem (by decide) k hk]
  rfl

@[simp] theorem targetSide_assigned :
    targetSide (target.kinds ++ .eq :: value.kinds) = target.kinds := by
  rw [targetSide, List.takeWhile_append_of_pos target.opensValue_target]
  exact List.append_nil _

@[simp] theorem valueSide_assigned :
    valueSide (target.kinds ++ .eq :: value.kinds) = value.kinds := by
  rw [valueSide, List.dropWhile_append_of_pos target.opensValue_target]
  rfl

end Assigned

/-- A line that starts with an identifier and a sign assigns to this identifier. -/
theorem eq_assigned {d : Derivation α .equation} {name : α} {ks : List (TokenKind α)}
    (h : d.kinds = .ident name :: .eq :: ks) :
    ∃ target sign value, d = .assigned target sign value ∧ soleIdent? target.yield = some name := by
  cases d with
  | returned keyword value => cases h
  | assigned target sign value =>
    refine ⟨target, sign, value, rfl, soleIdent?_eq_some.2 ?_⟩
    have hside := congrArg targetSide h
    rwa [kinds_assigned, targetSide_assigned] at hside
  | first hc => cases hc
  | link hc => cases hc

end Derivation

end Reckoner
