import Reckoner.Proofs.Evaluation.Bare
import Reckoner.Proofs.Sides

/-!
Variables and what they stand for. An expression in parentheses can stand wherever a variable can,
and a variable has the value that it is bound to wherever it stands; so a line does the same whether
a variable is bound to the value of an expression, or the expression is written out in its place. -/

namespace Reckoner

variable {α V E : Type}

/-! ### Writing out variables -/

/-- The tokens that stand for a token when each identifier stands for some tokens. -/
def TokenKind.expand (f : α → List (TokenKind α)) : TokenKind α → List (TokenKind α)
  | .ident name => f name
  | k => [k]

variable [DecidableEq α]

/-- The tokens with `inner` in parentheses in place of each identifier `x`. -/
def substitute (x : α) (inner : List (TokenKind α)) (ks : List (TokenKind α)) :
    List (TokenKind α) :=
  ks.flatMap (TokenKind.expand fun name => if name = x then enclose true inner else [.ident name])

/-- The tokens of a line with `inner` in parentheses in place of each identifier `x` behind the
keyword or the equals sign. -/
def substituteValue (x : α) (inner : List (TokenKind α)) : List (TokenKind α) → List (TokenKind α)
  | [] => []
  | k :: ks => k :: if k.opensValue then substitute x inner ks else substituteValue x inner ks

theorem substituteValue_append (x : α) (inner : List (TokenKind α)) {ks : List (TokenKind α)}
    (hks : ∀ k ∈ ks, k.opensValue = false) {k : TokenKind α} (hk : k.opensValue = true)
    (ls : List (TokenKind α)) :
    substituteValue x inner (ks ++ k :: ls) = ks ++ k :: substitute x inner ls := by
  induction ks with
  | nil => rw [List.nil_append, substituteValue, if_pos hk, List.nil_append]
  | cons k' ks ih =>
    obtain ⟨hk', hks⟩ := List.forall_mem_cons.1 hks
    rw [List.cons_append, substituteValue, if_neg (Bool.eq_false_iff.1 hk'), ih hks,
      List.cons_append]

omit [DecidableEq α]

/-! ### What is written renders what is meant -/

variable [Value V E]

namespace Renders

variable {scope : Scope α V} {ks ls : List (TokenKind α)} {r r' : Except (EvalError E) V}

theorem unsigned (hr : Renders scope .atom ks r) : Renders scope .signedAtom ks r := by
  intro ts hts
  obtain ⟨d, hyield, hmeaning⟩ := hr ts hts
  exact ⟨.unsigned d, hyield, hmeaning⟩

/-- A sign is refused, whatever it stands in front of. -/
theorem signed {k : TokenKind α} (hk : k.isSign = true) (hr : Renders scope .signedAtom ks r) :
    Renders scope .signedAtom (k :: ks) (.error (.unsupported .signPrefix .none)) := by
  intro ts hts
  obtain ⟨t, us, rfl, rfl, hus⟩ := List.map_eq_cons_iff.1 hts
  obtain ⟨d, rfl, -⟩ := hr us hus
  exact ⟨.signed t hk d, rfl, rfl⟩

/-- A power is refused, whatever its operands are. -/
theorem power (hl : Renders scope .factor ks r) (hr : Renders scope .signedAtom ls r') :
    Renders scope .factor (ks ++ .caret :: ls) (.error (.unsupported .exponentiation .none)) := by
  intro ts hts
  obtain ⟨us, vs, rfl, hus, hvs⟩ := List.map_eq_append_iff.1 hts
  obtain ⟨⟨kind, span⟩, ws, rfl, ht, hws⟩ := List.map_eq_cons_iff.1 hvs
  obtain rfl : kind = .caret := ht
  obtain ⟨left, rfl, -⟩ := hl us hus
  obtain ⟨right, rfl, -⟩ := hr ws hws
  exact ⟨.link .factor left ⟨.caret, span⟩ rfl right, rfl, rfl⟩

theorem number (scope : Scope α V) (text : α) (span : Span) :
    Renders scope .atom [.number text]
      (((Derivation.number text span).meaning scope).mapError EvalError.bare) := by
  intro ts hts
  obtain ⟨⟨kind, place⟩, us, rfl, hkind, hus⟩ := List.map_eq_cons_iff.1 hts
  obtain rfl := List.map_eq_nil_iff.1 hus
  obtain rfl : kind = .number text := hkind
  refine ⟨.number text place, rfl, ?_⟩
  rw [Derivation.meaning, Derivation.meaning]
  cases Integer.ofText? (scope.text text) <;> rfl

theorem ident (scope : Scope α V) (name : α) (span : Span) :
    Renders scope .atom [.ident name]
      (((Derivation.ident name span).meaning scope).mapError EvalError.bare) := by
  intro ts hts
  obtain ⟨⟨kind, place⟩, us, rfl, hkind, hus⟩ := List.map_eq_cons_iff.1 hts
  obtain rfl := List.map_eq_nil_iff.1 hus
  obtain rfl : kind = .ident name := hkind
  refine ⟨.ident name place, rfl, ?_⟩
  rw [Derivation.meaning, Derivation.meaning]
  cases scope.value? name <;> rfl

end Renders

theorem Operator.token_of_operator? {k : TokenKind α} {o : Operator} (h : k.operator? = some o) :
    o.token = k := by
  cases k <;> first | cases h; rfl | cases h

theorem TokenKind.expand_of_joins {rule : Rule} {k : TokenKind α} (h : rule.joins k = true)
    (f : α → List (TokenKind α)) : k.expand f = [k] := by
  cases k <;> first | rfl | (cases rule <;> cases h)

theorem TokenKind.expand_of_isSign {k : TokenKind α} (h : k.isSign = true)
    (f : α → List (TokenKind α)) : k.expand f = [k] := by
  cases k <;> first | rfl | cases h

namespace Derivation

variable {rule operand : Rule} {scope scope' : Scope α V}

/-- If the tokens that stand for each identifier are derived as an atom with the value that the
identifier has in another scope, then an expression that is written out has a derivation with the
meaning that it has in that scope. -/
theorem renders_expand {f : α → List (TokenKind α)} (htext : scope.text = scope'.text)
    (hf : ∀ name span, Renders scope .atom (f name)
      (((ident name span).meaning scope').mapError EvalError.bare))
    (d : Derivation α rule) (hrule : rule ≠ .equation) :
    Renders scope rule (d.kinds.flatMap (TokenKind.expand f))
      ((d.meaning scope').mapError EvalError.bare) := by
  induction d with
  | returned | assigned => exact absurd rfl hrule
  | first h d ih => exact (ih h.operand_ne).first h
  | @link rule operand h left op hop right ihl ihr =>
    rw [kinds_link, List.flatMap_append, List.flatMap_cons, TokenKind.expand_of_joins hop]
    cases ho : op.kind.operator? with
    | some o =>
      have htoken := Operator.token_of_operator? ho
      rw [bare_meaning_link ho, ← htoken]
      exact (ihl hrule).link h o (htoken ▸ hop) (ihr h.operand_ne)
    | none =>
      rw [meaning, ho]
      obtain ⟨rfl, hcaret⟩ := Rule.power_of_joins hop ho
      cases h
      rw [hcaret]
      exact (ihl hrule).power (ihr (by decide))
  | signed sign hsign inner ih =>
    have hkinds : (signed sign hsign inner).kinds = sign.kind :: inner.kinds := rfl
    rw [hkinds, List.flatMap_cons, TokenKind.expand_of_isSign hsign]
    exact (ih (by decide)).signed hsign
  | unsigned atom ih => exact (ih (by decide)).unsigned
  | number text span =>
    have hnumber := Renders.number scope text span
    rw [meaning, htext] at hnumber
    exact hnumber
  | ident name span =>
    have hkinds : (ident name span).kinds.flatMap (TokenKind.expand f) = f name :=
      List.append_nil _
    rw [hkinds]
    exact hf name span
  | parens opening inner closing ih =>
    rw [kinds_parens, List.flatMap_cons, List.flatMap_append]
    exact (ih (by decide)).parens

/-- Wherever the tokens of an expression stand, they have a derivation with the same meaning. -/
theorem renders (scope : Scope α V) (d : Derivation α rule) (hrule : rule ≠ .equation) :
    Renders scope rule d.kinds ((d.meaning scope).mapError EvalError.bare) := by
  have hself : (TokenKind.expand fun name : α => [.ident name]) = fun k => [k] := by
    funext k
    cases k <;> rfl
  have h := d.renders_expand rfl (Renders.ident scope) hrule
  rwa [hself, List.flatMap_singleton'] at h

end Derivation

/-! ### Lines -/

/-- The identifier that is all there is does not depend on where it stands. -/
theorem soleIdent?_congr {ts us : List (Token α)} (h : ts.map Token.kind = us.map Token.kind) :
    soleIdent? ts = soleIdent? us := by
  rw [soleIdent?_eq, soleIdent?_eq, h]

theorem map_text_congr (text : α → String) {ts us : List (Token α)}
    (h : ts.map Token.kind = us.map Token.kind) :
    ts.map (Token.text text) = us.map (Token.text text) := by
  have hcomp : Token.text text = (fun k => (k.payload?.map text).getD k.describe) ∘ Token.kind :=
    rfl
  rw [hcomp, ← List.map_map, ← List.map_map, h]

/-- What an assignment does, up to the place of a failure, is told by its target and its value. -/
theorem Derivation.bare_outcome_assigned {scope scope' : Scope α V}
    (htext : scope.text = scope'.text) {target target' value value' : Derivation α .expression}
    (htarget : target.kinds = target'.kinds)
    (hvalue : (value.meaning scope).mapError EvalError.bare
      = (value'.meaning scope').mapError EvalError.bare) (sign sign' : Span) :
    ((assigned target sign value).outcome scope).mapError EvalError.bare
      = ((assigned target' sign' value').outcome scope').mapError EvalError.bare := by
  rw [outcome, outcome, soleIdent?_congr htarget, map_text_congr scope.text htarget, htext]
  cases soleIdent? target'.yield with
  | none => rfl
  | some name =>
    show Except.mapError _ (Except.map _ _) = Except.mapError _ (Except.map _ _)
    rw [mapError_map, mapError_map, hvalue]

/-- With a variable written out on its evaluated side, a line has a derivation that does, up to the
place of a failure, what the line does where the variable has the value. -/
theorem Derivation.exists_substituteValue [DecidableEq α] {scope scope' : Scope α V} {x : α}
    {v : V} {inner : List (TokenKind α)} (htext : scope.text = scope'.text)
    (hx : scope'.value? x = some v) (hne : ∀ name ≠ x, scope'.value? name = scope.value? name)
    (hinner : Renders scope .expression inner (.ok v)) (d : Derivation α .equation)
    {line : List (Token α)} (hline : line.map Token.kind = substituteValue x inner d.kinds) :
    ∃ d' : Derivation α .equation, d'.yield = line ∧
      (d'.outcome scope).mapError EvalError.bare = (d.outcome scope').mapError EvalError.bare := by
  have hf : ∀ name span, Renders scope .atom
      (if name = x then enclose true inner else [.ident name])
      (((ident name span).meaning scope').mapError EvalError.bare) := by
    intro name span
    split
    · rename_i hname
      rw [hname, meaning, hx]
      exact hinner.parens
    · rename_i hname
      have hident := Renders.ident scope name span
      rw [meaning, ← hne name hname, htext] at hident
      exact hident
  cases d with
  | returned keyword value =>
    obtain ⟨⟨kind, place⟩, ts, rfl, hkind, hts⟩ := List.map_eq_cons_iff.1 hline
    obtain rfl : kind = .ret := hkind
    obtain ⟨value', rfl, hvalue⟩ := value.renders_expand htext hf (by decide) ts hts
    refine ⟨.returned place value', rfl, ?_⟩
    rw [outcome, outcome, mapError_map, mapError_map, hvalue]
  | assigned target sign value =>
    rw [kinds_assigned, substituteValue_append x inner (target.opensValue_of_mem (by decide)) rfl]
      at hline
    obtain ⟨us, vs, rfl, hus, hvs⟩ := List.map_eq_append_iff.1 hline
    obtain ⟨⟨kind, place⟩, ts, rfl, hkind, hts⟩ := List.map_eq_cons_iff.1 hvs
    obtain rfl : kind = .eq := hkind
    obtain ⟨target', rfl, -⟩ := target.renders scope (by decide) us hus
    obtain ⟨value', rfl, hvalue⟩ := value.renders_expand htext hf (by decide) ts hts
    exact ⟨.assigned target' place value', rfl,
      bare_outcome_assigned htext hus hvalue place sign⟩
  | first hc => cases hc
  | link hc => cases hc

/-- An expression that a line returns renders the value that the line has. -/
theorem Renders.of_evaluate {b : Bindings V} {table : NameTable} {keyword : Span}
    {value : Derivation Name .expression} {v : V}
    (h : (b.evaluate table (Derivation.returned keyword value).phrase.toTree).1
      = .ok (.returned v)) :
    Renders (b.scope table) .expression value.kinds (.ok v) := by
  have houtcome := (Derivation.returned keyword value).bare_evaluate_toTree (b.scope table)
  have hresult : ((Derivation.returned keyword value).phrase.toTree.evaluate (b.scope table)).1
      = .ok (.returned v) := h
  rw [hresult, Derivation.outcome, mapError_map] at houtcome
  have hvalue := value.renders (b.scope table) (by decide)
  cases hm : (value.meaning (b.scope table)).mapError EvalError.bare with
  | error e => rw [hm] at houtcome; cases houtcome
  | ok w =>
    rw [hm] at houtcome hvalue
    obtain rfl := Outcome.returned.inj (Except.ok.inj houtcome)
    exact hvalue

/-- A variable can be replaced by its definition in parentheses: a line with an expression written
out on its evaluated side in place of a variable parses, and does what the line does where the
variable is bound to the value of the expression, with the same error wherever it is found. -/
theorem evaluate_substituteValue {line inner line' : List (Token Name)} {keyword : Span}
    {eof eof' eof'' : Token Name} (hline : ∀ t ∈ line, t.kind.isEof = false)
    (hinner : ∀ t ∈ inner, t.kind.isEof = false) (heof : eof.kind.isEof = true)
    (heof' : eof'.kind.isEof = true) (heof'' : eof''.kind.isEof = true) {p q : Phrase Name}
    (hp : Phrase.ofTokens? (line ++ [eof]) = some (.ok p))
    (hq : Phrase.ofTokens? (⟨.ret, keyword⟩ :: inner ++ [eof']) = some (.ok q))
    {b : Bindings V} {table : NameTable} {v : V}
    (hv : (b.evaluate table q.toTree).1 = .ok (.returned v)) (x : Name)
    (hkinds : line'.map Token.kind
      = substituteValue x (inner.map Token.kind) (line.map Token.kind)) :
    ∃ p', Phrase.ofTokens? (line' ++ [eof'']) = some (.ok p') ∧
      (b.evaluate table p'.toTree).1.mapError EvalError.bare
        = ((b.insert x v).evaluate table p.toTree).1.mapError EvalError.bare := by
  obtain ⟨d, rfl, rfl⟩ := (Phrase.ofTokens?_eq_ok_iff hline heof).1 hp
  have hreturn : ∀ t ∈ ⟨.ret, keyword⟩ :: inner, t.kind.isEof = false :=
    List.forall_mem_cons.2 ⟨rfl, hinner⟩
  obtain ⟨e, rfl, he⟩ := (Phrase.ofTokens?_eq_ok_iff hreturn heof').1 hq
  obtain ⟨value, rfl, rfl⟩ := Derivation.eq_returned he
  have htext : (b.scope table).text = ((b.insert x v).scope table).text := rfl
  obtain ⟨d', rfl, houtcome⟩ := d.exists_substituteValue htext (b.get?_insert_self x v)
    (fun name hname => b.get?_insert_of_ne hname v) (.of_evaluate hv) hkinds
  have hvalid : ∀ t ∈ d'.yield, t.kind.isEof = false := fun t ht => (d'.kind_of_mem_yield t ht).2
  refine ⟨d'.phrase, (Phrase.ofTokens?_eq_ok_iff hvalid heof'').2 ⟨d', rfl, rfl⟩, ?_⟩
  exact (d'.bare_evaluate_toTree (b.scope table)).trans
    (houtcome.trans (d.bare_evaluate_toTree ((b.insert x v).scope table)).symm)

theorem evaluate_substituteValue_of_itself :
    let tokens : List (TokenKind Name) → List (Token Name) := List.map fun k => ⟨k, .none⟩
    let names : NameTable := ⟨#["", "return", "x", "2", "1"]⟩
    let b : Bindings Integer := Bindings.empty.insert ⟨2⟩ ⟨4, by decide, by decide⟩
    -- `x = 2 * x - x` with `x + 1` for `x`
    let line' : List (TokenKind Name) := [.ident ⟨2⟩, .eq, .number ⟨3⟩, .star, .lparen, .ident ⟨2⟩,
      .plus, .number ⟨4⟩, .rparen, .minus, .lparen, .ident ⟨2⟩, .plus, .number ⟨4⟩, .rparen]
    ∃ p', Phrase.ofTokens? (tokens line' ++ tokens [.eof]) = some (.ok p') ∧
      (b.evaluate names p'.toTree).1.mapError EvalError.bare
        = .ok (.assigned ⟨2⟩ ⟨5, by decide, by decide⟩) := by
  intro tokens names b line'
  obtain ⟨p', hp', hresult⟩ := @evaluate_substituteValue Integer _ _
    (tokens [.ident ⟨2⟩, .eq, .number ⟨3⟩, .star, .ident ⟨2⟩, .minus, .ident ⟨2⟩])
    (tokens [.ident ⟨2⟩, .plus, .number ⟨4⟩]) (tokens line') .none ⟨.eof, .none⟩ ⟨.eof, .none⟩
    ⟨.eof, .none⟩ (by decide) (by decide) rfl rfl rfl _ _ rfl rfl b names
    ⟨5, by decide, by decide⟩ (by cbv) ⟨2⟩ rfl
  refine ⟨p', hp', hresult.trans ?_⟩
  cbv

end Reckoner
