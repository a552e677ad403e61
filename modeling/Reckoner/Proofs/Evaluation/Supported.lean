import Reckoner.Program
import Reckoner.Proofs.Evaluation.Compositional
import Reckoner.Proofs.Parse.Errors
import Reckoner.Proofs.Sides

/-!
What evaluation supports. Of the constructs that the parser accepts, three have no meaning: a target
that is not a variable, a power, and a sign in front of an operand. A line without them never fails
as unsupported and a line with one of them never has a value, however deep it stands; the evaluator's
other refusals are for trees that no line has. -/

namespace Reckoner

variable {α V E : Type}

/-! ### Constructs without a meaning -/

/-- Whether some sign has no operand in front of it, where `behind` says whether all of the tokens
stand behind one. -/
def hasSign (behind : Bool) : List (TokenKind α) → Bool
  | [] => false
  | k :: ks => k.isSign && !behind || hasSign k.endsOperand ks

/-- The tokens of a line whose target, if there is one, is a variable, and whose evaluated side has
neither a power nor a sign in front of an operand. -/
structure Supported (ks : List (TokenKind α)) : Prop where
  target : targetSide ks = [] ∨ ∃ name, targetSide ks = [.ident name]
  powers : .caret ∉ valueSide ks
  signs : hasSign false (valueSide ks) = false

/-- Behind an operand, the signs of what follows are those of what follows alone. -/
theorem hasSign_append {k : TokenKind α} (hk : k.endsOperand = true) (behind : Bool)
    (ks ls : List (TokenKind α)) :
    hasSign behind (ks ++ k :: ls) = (hasSign behind (ks ++ [k]) || hasSign true ls) := by
  induction ks generalizing behind with
  | nil => simp [hasSign, hk]
  | cons k' ks ih => simp only [List.cons_append, hasSign, ih, Bool.or_assoc]

theorem endsOperand_of_joins {rule : Rule} {k : TokenKind α} (h : rule.joins k = true) :
    k.endsOperand = false := by
  cases rule <;> cases k <;> first | rfl | cases h

theorem ne_caret_of_operator? {k : TokenKind α} {o : Operator} (h : k.operator? = some o) :
    k ≠ .caret := by
  rintro rfl
  cases h

namespace Derivation

variable {rule operand : Rule}

/-- An operand ends where a derivation does. -/
theorem exists_last (d : Derivation α rule) :
    ∃ ks k, d.kinds = ks ++ [k] ∧ k.endsOperand = true := by
  induction d with
  | returned keyword value ih =>
    obtain ⟨ks, k, hks, hk⟩ := ih
    exact ⟨.ret :: ks, k, congrArg (TokenKind.ret :: ·) hks, hk⟩
  | assigned target sign value _ ih =>
    obtain ⟨ks, k, hks, hk⟩ := ih
    exact ⟨target.kinds ++ .eq :: ks, k, by rw [kinds_assigned, hks]; simp, hk⟩
  | first h d ih => exact ih
  | link h left op hop right _ ih =>
    obtain ⟨ks, k, hks, hk⟩ := ih
    exact ⟨left.kinds ++ op.kind :: ks, k, by rw [kinds_link, hks]; simp, hk⟩
  | signed sign hsign inner ih =>
    obtain ⟨ks, k, hks, hk⟩ := ih
    exact ⟨sign.kind :: ks, k, congrArg (sign.kind :: ·) hks, hk⟩
  | unsigned atom ih => exact ih
  | number text span => exact ⟨[], _, rfl, rfl⟩
  | ident name span => exact ⟨[], _, rfl, rfl⟩
  | parens opening inner closing => exact ⟨.lparen :: inner.kinds, .rparen, by simp, rfl⟩

/-- The signs of a chain are those of its operands: an operator has an operand in front of it. -/
theorem hasSign_link {h : rule.Chains operand} {left : Derivation α rule} {op : Token α}
    {hop : rule.joins op.kind = true} {right : Derivation α operand} :
    hasSign false (link h left op hop right).kinds
      = (hasSign false left.kinds || hasSign false right.kinds) := by
  obtain ⟨ks, k, hks, hk⟩ := left.exists_last
  rw [kinds_link, hks, List.append_assoc, List.singleton_append, hasSign_append hk, hasSign,
    endsOperand_of_joins hop, Bool.not_true, Bool.and_false, Bool.false_or]

theorem hasSign_signed {sign : Token α} {hsign : sign.kind.isSign = true}
    {inner : Derivation α .signedAtom} : hasSign false (signed sign hsign inner).kinds = true := by
  have hkinds : (signed sign hsign inner).kinds = sign.kind :: inner.kinds := rfl
  rw [hkinds, hasSign, hsign]
  rfl

theorem hasSign_parens {opening closing : Span} {inner : Derivation α .expression} :
    hasSign false (parens opening inner closing).kinds = hasSign false inner.kinds := by
  obtain ⟨ks, k, hks, hk⟩ := inner.exists_last
  have hclosing : hasSign true [(.rparen : TokenKind α)] = false := rfl
  rw [kinds_parens, hasSign, hks, List.append_assoc, List.singleton_append, hasSign_append hk,
    hclosing, Bool.or_false]
  rfl

/-! ### The meaning of an expression -/

variable [Value V E] {scope : Scope α V}

/-- An expression with a value has neither powers nor signs in it. -/
theorem supported_of_meaning_ok {d : Derivation α rule} (hrule : rule ≠ .equation) {v : V}
    (h : d.meaning scope = .ok v) : .caret ∉ d.kinds ∧ hasSign false d.kinds = false := by
  induction d generalizing v with
  | returned | assigned => exact absurd rfl hrule
  | first hc d ih => exact ih hc.operand_ne h
  | link hc left op hop right ihl ihr =>
    rw [meaning] at h
    cases ho : op.kind.operator? with
    | none => rw [ho] at h; cases h
    | some o =>
      cases hl : left.meaning scope with
      | error e => rw [ho, hl] at h; cases h
      | ok a =>
        cases hr : right.meaning scope with
        | error e => rw [ho, hl, hr] at h; cases h
        | ok b =>
          obtain ⟨hcl, hsl⟩ := ihl hrule hl
          obtain ⟨hcr, hsr⟩ := ihr hc.operand_ne hr
          rw [hasSign_link, hsl, hsr, kinds_link, List.mem_append, List.mem_cons]
          refine ⟨?_, rfl⟩
          rintro (hmem | hmem | hmem)
          · exact hcl hmem
          · exact ne_caret_of_operator? ho hmem.symm
          · exact hcr hmem
  | signed => cases h
  | unsigned atom ih => exact ih (by decide) h
  | number text span => exact ⟨by simp [kinds, yield], rfl⟩
  | ident name span => exact ⟨by simp [kinds, yield], rfl⟩
  | parens opening inner closing ih =>
    obtain ⟨hc, hs⟩ := ih (by decide) h
    rw [hasSign_parens]
    exact ⟨by simpa using hc, hs⟩

/-- An expression is only refused for a power or a sign, and only if there is one in it. -/
theorem eq_of_meaning_unsupported {d : Derivation α rule} (hrule : rule ≠ .equation)
    {shape : Unsupported} {span : Span} (h : d.meaning scope = .error (.unsupported shape span)) :
    shape = .exponentiation ∧ .caret ∈ d.kinds ∨
      shape = .signPrefix ∧ hasSign false d.kinds = true := by
  induction d generalizing span with
  | returned | assigned => exact absurd rfl hrule
  | first hc d ih => exact ih hc.operand_ne h
  | link hc left op hop right ihl ihr =>
    rw [hasSign_link, kinds_link]
    rw [meaning] at h
    cases ho : op.kind.operator? with
    | none =>
      rw [ho] at h
      obtain ⟨rfl, hcaret⟩ := Rule.power_of_joins hop ho
      exact .inl ⟨(EvalError.unsupported.inj (Except.error.inj h)).1.symm, by simp [hcaret]⟩
    | some o =>
      cases hl : left.meaning scope with
      | error e =>
        rw [ho, hl] at h
        obtain rfl := Except.error.inj h
        exact (ihl hrule hl).imp (.imp_right (List.mem_append_left _))
          (.imp_right fun hs => by rw [hs, Bool.true_or])
      | ok a =>
        cases hr : right.meaning scope with
        | error e =>
          rw [ho, hl, hr] at h
          obtain rfl := Except.error.inj h
          exact (ihr hc.operand_ne hr).imp
            (.imp_right fun hmem => List.mem_append_right _ (List.mem_cons_of_mem _ hmem))
            (.imp_right fun hs => by rw [hs, Bool.or_true])
        | ok b =>
          simp only [ho, hl, hr] at h
          cases happly : Value.apply o a b <;> rw [happly] at h <;> cases h
  | signed sign hsign inner ih =>
    exact .inr ⟨(EvalError.unsupported.inj (Except.error.inj h)).1.symm, hasSign_signed⟩
  | unsigned atom ih => exact ih (by decide) h
  | number text span =>
    rw [meaning] at h
    cases hn : Integer.ofText? (scope.text text) <;> rw [hn] at h <;> cases h
  | ident name span =>
    rw [meaning] at h
    cases hv : scope.value? name <;> rw [hv] at h <;> cases h
  | parens opening inner closing ih =>
    rw [hasSign_parens]
    exact (ih (by decide) h).imp_left (.imp_right fun hmem => by simp [hmem])

end Derivation

/-! ### Lines -/

/-- What a line is refused for, and what there is among its tokens to refuse. -/
inductive Refused (ks : List (TokenKind α)) : Unsupported → Prop where
  | target (text : String) (hne : targetSide ks ≠ [])
      (h : ∀ name, targetSide ks ≠ [.ident name]) : Refused ks (.target text)
  | power (h : .caret ∈ valueSide ks) : Refused ks .exponentiation
  | sign (h : hasSign false (valueSide ks) = true) : Refused ks .signPrefix

theorem Refused.not_supported {ks : List (TokenKind α)} {shape : Unsupported}
    (h : Refused ks shape) : ¬Supported ks := by
  rintro ⟨htarget, hpowers, hsigns⟩
  cases h with
  | target text hne h =>
    rcases htarget with htarget | ⟨name, htarget⟩
    · exact hne htarget
    · exact h name htarget
  | power h => exact hpowers h
  | sign h => rw [hsigns] at h; cases h

namespace Derivation

variable [Value V E] {scope : Scope α V}

/-- A line that does something is made of supported constructs. -/
theorem supported_of_outcome_ok {d : Derivation α .equation} {outcome : Outcome α V}
    (h : d.outcome scope = .ok outcome) : Supported d.kinds := by
  cases d with
  | returned keyword value =>
    cases hv : value.meaning scope with
    | error e => rw [Derivation.outcome, hv] at h; cases h
    | ok v =>
      obtain ⟨hpowers, hsigns⟩ := supported_of_meaning_ok (by decide) hv
      exact ⟨.inl rfl, hpowers, hsigns⟩
  | assigned target sign value =>
    rw [Derivation.outcome] at h
    cases hs : soleIdent? target.yield with
    | none => rw [hs] at h; cases h
    | some name =>
      cases hv : value.meaning scope with
      | error e => rw [hs, hv] at h; cases h
      | ok v =>
        obtain ⟨hpowers, hsigns⟩ := supported_of_meaning_ok (by decide) hv
        refine ⟨.inr ⟨name, ?_⟩, ?_, ?_⟩
        · rw [kinds_assigned, targetSide_assigned]
          exact soleIdent?_eq_some.1 hs
        · rwa [kinds_assigned, valueSide_assigned]
        · rwa [kinds_assigned, valueSide_assigned]
  | first hc => cases hc
  | link hc => cases hc

/-- The value of a line is only refused for a power or a sign on the evaluated side. -/
theorem refused_of_meaning {value : Derivation α .expression} {ks : List (TokenKind α)}
    (hks : valueSide ks = value.kinds) {shape : Unsupported} {span : Span} {f : V → Outcome α V}
    (h : (value.meaning scope).map f = .error (.unsupported shape span)) : Refused ks shape := by
  cases hv : value.meaning scope with
  | ok v => rw [hv] at h; cases h
  | error e =>
    rw [hv] at h
    obtain rfl := Except.error.inj h
    rcases eq_of_meaning_unsupported (by decide) hv with ⟨rfl, hc⟩ | ⟨rfl, hs⟩
    · exact .power (hks ▸ hc)
    · exact .sign (hks ▸ hs)

/-- A line is only refused for what is on it. -/
theorem refused_of_outcome {d : Derivation α .equation} {shape : Unsupported} {span : Span}
    (h : d.outcome scope = .error (.unsupported shape span)) : Refused d.kinds shape := by
  cases d with
  | returned keyword value => exact refused_of_meaning rfl h
  | assigned target sign value =>
    rw [kinds_assigned]
    rw [Derivation.outcome] at h
    cases hs : soleIdent? target.yield with
    | none =>
      rw [hs] at h
      obtain ⟨rfl, -⟩ := EvalError.unsupported.inj (Except.error.inj h)
      refine .target _ ?_ ?_
      · rw [targetSide_assigned]
        exact mt List.map_eq_nil_iff.1 target.yield_ne_nil
      · intro name hname
        rw [targetSide_assigned] at hname
        rw [soleIdent?_eq_some.2 hname] at hs
        cases hs
    | some name =>
      rw [hs] at h
      exact refused_of_meaning (valueSide_assigned target value) h
  | first hc => cases hc
  | link hc => cases hc

end Derivation

open Token in
/-- What evaluation makes of a line of supported constructs is never a refusal, and a line with any
other construct has no value. Only three constructs are refused, each by the rule that it belongs
to: a target that is not a variable, a power, and a sign in front of an operand. -/
theorem refuses_only_unsupported [Value V E] {names names' : NameTable} {line : String}
    {tree : Tree Name} (h : Tree.ofLine names line = (.ok tree, names')) (table : NameTable)
    (b : Bindings V) :
    let ks := (scanWith names line).1.map Token.kind
    let result := (b.evaluate table tree).1
    (Supported ks → ∀ shape span, result ≠ .error (.unsupported shape span)) ∧
    (¬Supported ks → ∀ outcome, result ≠ .ok outcome) ∧
    ∀ shape span, result = .error (.unsupported shape span) →
      (∃ text, shape = .target text ∧ shape.rule = "equation" ∧
        shape.detail = "cannot assign to `" ++ text ++ "`") ∨
      (shape = .exponentiation ∧ shape.rule = "factor" ∧
        shape.detail = "exponentiation `^` is not evaluated") ∨
      (shape = .signPrefix ∧ shape.rule = "signedAtom" ∧
        shape.detail = "a sign prefix is not evaluated") := by
  obtain ⟨⟨d, rfl, hyield⟩, -⟩ := Tree.ofLine_eq_ok_iff.1 h
  have hd : InOrder d.yield := hyield ▸ inOrder_scanWith names line
  have hresult : (b.evaluate table d.phrase.toTree).1 = d.outcome (b.scope table) :=
    d.evaluate_toTree (b.scope table) hd
  have hkinds : (scanWith names line).1.map Token.kind = d.kinds := hyield ▸ rfl
  dsimp only
  rw [hresult, hkinds]
  refine ⟨?_, ?_, ?_⟩
  · intro hsupported shape span hrefused
    exact (Derivation.refused_of_outcome hrefused).not_supported hsupported
  · intro hunsupported outcome hok
    exact hunsupported (Derivation.supported_of_outcome_ok hok)
  · intro shape span hrefused
    cases Derivation.refused_of_outcome hrefused with
    | target text => exact .inl ⟨text, rfl, rfl, rfl⟩
    | power => exact .inr (.inl ⟨rfl, rfl, rfl⟩)
    | sign => exact .inr (.inr ⟨rfl, rfl, rfl⟩)

open Token in
theorem refuses_only_unsupported_nested_sign :
    ∃ tree names', Tree.ofLine .initial "t = (2 - -x) * 3" = (.ok tree, names') ∧
      ∀ outcome, (((Bindings.empty : Bindings Integer).insert ⟨4⟩
        ⟨7, by decide, by decide⟩).evaluate names' tree).1 ≠ .ok outcome := by
  have hparses : (Tree.ofLine .initial "t = (2 - -x) * 3").1.isOk = true := by cbv
  have hkinds : (scanWith .initial "t = (2 - -x) * 3").1.map Token.kind
      = [.ident ⟨2⟩, .eq, .lparen, .number ⟨3⟩, .minus, .minus, .ident ⟨4⟩, .rparen, .star,
        .number ⟨5⟩] := by cbv
  cases hline : (Tree.ofLine .initial "t = (2 - -x) * 3").1 with
  | error e => rw [hline] at hparses; cases hparses
  | ok tree =>
    refine ⟨tree, _, Prod.ext hline rfl, ?_⟩
    refine (refuses_only_unsupported (Prod.ext hline rfl) _ _).2.1 ?_
    rw [hkinds]
    intro hsupported
    exact absurd hsupported.signs (by decide)

end Reckoner
