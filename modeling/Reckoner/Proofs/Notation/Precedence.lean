import Reckoner.Proofs.Evaluation.Compositional
import Reckoner.Proofs.Names
import Reckoner.Proofs.Notation
import Reckoner.Proofs.Token.Pattern

/-!
Expressions come back from their text. The tokens of an expression have a derivation by the rule of
its outermost operator that means the same; a derivation by one rule gives one by every looser rule,
and parentheses lead back to the tightest, so each operand gets what the operator needs there. The
line that returns the expression is scanned into these tokens, and has the value that was meant. -/

namespace Reckoner

variable {α V E : Type} [Value V E]

/-- Up to its place, a failure of a chain is one of its operands or of its operator. -/
theorem Derivation.bare_meaning_link {scope : Scope α V} {rule operand : Rule}
    {h : rule.Chains operand} {left : Derivation α rule} {op : Token α}
    {hop : rule.joins op.kind = true} {right : Derivation α operand} {o : Operator}
    (ho : op.kind.operator? = some o) :
    ((link h left op hop right).meaning scope).mapError EvalError.bare
      = combine o ((left.meaning scope).mapError EvalError.bare)
          ((right.meaning scope).mapError EvalError.bare) := by
  rw [meaning, ho]
  cases left.meaning scope with
  | error e => rfl
  | ok a =>
    cases right.meaning scope with
    | error e => rfl
    | ok b =>
      simp only [combine, Except.mapError]
      cases Value.apply o a b <;> rfl

/-- Tokens of the kinds `ks` have a derivation by the rule with the result `r`, wherever they
stand. -/
def Renders (scope : Scope α V) (rule : Rule) (ks : List (TokenKind α))
    (r : Except (EvalError E) V) : Prop :=
  ∀ ts : List (Token α), ts.map Token.kind = ks →
    ∃ d : Derivation α rule, d.yield = ts ∧ (d.meaning scope).mapError EvalError.bare = r

namespace Renders

variable {scope : Scope α V} {rule operand : Rule} {ks ls : List (TokenKind α)}
  {r r' : Except (EvalError E) V}

theorem first (h : rule.Chains operand) (hr : Renders scope operand ks r) :
    Renders scope rule ks r := by
  intro ts hts
  obtain ⟨d, hyield, hmeaning⟩ := hr ts hts
  exact ⟨.first h d, hyield, hmeaning⟩

/-- An atom is a factor. -/
theorem factor (hr : Renders scope .atom ks r) : Renders scope .factor ks r := by
  intro ts hts
  obtain ⟨d, hyield, hmeaning⟩ := hr ts hts
  exact ⟨.first .factor (.unsigned d), hyield, hmeaning⟩

theorem parens (hr : Renders scope .expression ks r) :
    Renders scope .atom (.lparen :: (ks ++ [.rparen])) r := by
  intro ts hts
  obtain ⟨⟨kind, opening⟩, us, rfl, hopening, hus⟩ := List.map_eq_cons_iff.1 hts
  obtain ⟨inner, vs, rfl, hinner, hvs⟩ := List.map_eq_append_iff.1 hus
  obtain ⟨⟨kind', closing⟩, ws, rfl, hclosing, hws⟩ := List.map_eq_cons_iff.1 hvs
  obtain rfl := List.map_eq_nil_iff.1 hws
  obtain rfl : kind = .lparen := hopening
  obtain rfl : kind' = .rparen := hclosing
  obtain ⟨d, hyield, hmeaning⟩ := hr inner hinner
  exact ⟨.parens opening d closing, by rw [Derivation.yield, hyield], hmeaning⟩

/-- Operators have the meaning that they spell. -/
theorem link (h : rule.Chains operand) (op : Operator)
    (hop : rule.joins (op.token : TokenKind α) = true)
    (hl : Renders scope rule ks r) (hr : Renders scope operand ls r') :
    Renders scope rule (ks ++ op.token :: ls) (combine op r r') := by
  intro ts hts
  obtain ⟨us, vs, rfl, hus, hvs⟩ := List.map_eq_append_iff.1 hts
  obtain ⟨t, ws, rfl, ht, hws⟩ := List.map_eq_cons_iff.1 hvs
  obtain ⟨left, hleft, rfl⟩ := hl us hus
  obtain ⟨right, hright, rfl⟩ := hr ws hws
  have ho : t.kind.operator? = some op := by
    rw [ht]
    cases op <;> rfl
  exact ⟨.link h left t (ht ▸ hop) right, by rw [Derivation.yield, hleft, hright],
    Derivation.bare_meaning_link ho⟩

/-- A derivation by one of the rules that operators have gives one by the rule of sums. -/
theorem expression {e : Expr} (hr : Renders scope e.rule ks r) :
    Renders scope .expression ks r := by
  cases e with
  | literal | ident => exact first .expression (first .term (factor hr))
  | binary op left right =>
    cases op with
    | add | sub => exact hr
    | mul | div => exact first .expression hr

/-- Expressions with parentheses around sums are linked by the rule of products. -/
theorem term {e : Expr} (hr : Renders scope e.rule ks r) :
    Renders scope .term (enclose (e.rule = .expression) ks) r := by
  cases e with
  | literal | ident => exact first .term (factor hr)
  | binary op left right =>
    cases op with
    | add | sub => exact first .term (factor (parens hr))
    | mul | div => exact hr

/-- Expressions with parentheses around all operations are operands of products. -/
theorem tight {e : Expr} (hr : Renders scope e.rule ks r) :
    Renders scope .factor (enclose (e.rule = .expression || e.rule = .term) ks) r := by
  cases e with
  | literal | ident => exact factor hr
  | binary op left right =>
    cases op with
    | add | sub => exact factor (parens hr)
    | mul | div => exact factor (parens (first .expression hr))

/-- The operands of an operator, with the parentheses that they need, are linked by its rule. -/
theorem binary (op : Operator) {left right : Expr} (hl : Renders scope left.rule ks r)
    (hr : Renders scope right.rule ls r') :
    Renders scope op.rule (enclose (left.isSumBelow op) ks
      ++ op.token :: enclose (right.isSumBelow op || right.rule = op.rule) ls)
      (combine op r r') := by
  cases op with
  | add => exact link .expression .add rfl (expression hl) (term hr)
  | sub => exact link .expression .sub rfl (expression hl) (term hr)
  | mul => exact link .term .mul rfl (term hl) (tight hr)
  | div => exact link .term .div rfl (term hl) (tight hr)

end Renders

@[simp] theorem map_enclose {β : Type} (f : α → β) (needed : Bool) (ks : List (TokenKind α)) :
    (enclose needed ks).map (TokenKind.map f) = enclose needed (ks.map (TokenKind.map f)) := by
  cases needed with
  | false => rfl
  | true =>
    rw [enclose, enclose, if_pos rfl, if_pos rfl, List.map_cons, List.map_append]
    rfl

@[simp] theorem filterMap_payload?_enclose (needed : Bool) (ks : List (TokenKind α)) :
    (enclose needed ks).filterMap TokenKind.payload? = ks.filterMap TokenKind.payload? := by
  cases needed with
  | false => rfl
  | true =>
    have hlparen : (.lparen : TokenKind α).payload? = none := rfl
    have hrparen : (.rparen : TokenKind α).payload? = none := rfl
    rw [enclose, if_pos rfl, List.filterMap_cons_none hlparen, List.filterMap_append,
      List.filterMap_cons_none hrparen, List.filterMap_nil, List.append_nil]

/-- The names of an expression as it is written are those of its operands. -/
theorem Expr.payloads_binary (op : Operator) (left right : Expr) :
    (binary op left right).print.filterMap TokenKind.payload?
      = left.print.filterMap TokenKind.payload? ++ right.print.filterMap TokenKind.payload? := by
  have hop : (op.token : TokenKind String).payload? = none := by cases op <;> rfl
  rw [print, List.filterMap_append, List.filterMap_cons_none hop, filterMap_payload?_enclose,
    filterMap_payload?_enclose]

/-- What an expression is written with, its texts replaced by names for them, has a derivation that
means the expression. -/
theorem Expr.renders_print (scope : Scope α V) (name : String → α) (e : Expr)
    (hname : ∀ s ∈ e.print.filterMap TokenKind.payload?, scope.text (name s) = s) :
    Renders scope e.rule (e.print.map (TokenKind.map name))
      (e.eval fun s => scope.value? (name s)) := by
  induction e with
  | literal n h =>
    show Renders scope .atom _ _
    intro ts hts
    obtain ⟨⟨kind, span⟩, us, rfl, hkind, hus⟩ := List.map_eq_cons_iff.1 hts
    obtain rfl := List.map_eq_nil_iff.1 hus
    obtain rfl : kind = .number (name n.text) := hkind
    refine ⟨.number (name n.text) span, rfl, ?_⟩
    rw [Derivation.meaning, hname _ List.mem_cons_self, Integer.ofText?_text h]
    rfl
  | ident x =>
    show Renders scope .atom _ _
    intro ts hts
    obtain ⟨⟨kind, span⟩, us, rfl, hkind, hus⟩ := List.map_eq_cons_iff.1 hts
    obtain rfl := List.map_eq_nil_iff.1 hus
    obtain rfl : kind = .ident (name x.text) := hkind
    refine ⟨.ident (name x.text) span, rfl, ?_⟩
    rw [Derivation.meaning, hname _ List.mem_cons_self, eval]
    cases scope.value? (name x.text) with
    | none => rfl
    | some v => rfl
  | binary op left right ihl ihr =>
    rw [payloads_binary] at hname
    have hop : (op.token : TokenKind String).map name = op.token := by cases op <;> rfl
    rw [print, List.map_append, List.map_cons, map_enclose, map_enclose, hop]
    exact Renders.binary op (ihl fun s hs => hname s (List.mem_append_left _ hs))
      (ihr fun s hs => hname s (List.mem_append_right _ hs))

/-- The line that returns an expression, with separators around its tokens. -/
def Expr.line (e : Expr) (gap : Nat → Blank) : String :=
  String.ofList (Token.spread gap 0 (.ret :: e.print))

/-- A line that returns an expression is scanned into the keyword and the tokens of the
expression. -/
theorem Expr.kinds_scan_line (e : Expr) {gap : Nat → Blank} (hgap : (gap 1).chars ≠ []) :
    (Token.scan (e.line gap)).map Token.kind = .ret :: e.print := by
  have hspelled : ∀ k ∈ .ret :: e.print, Token.ScansBack k := by
    intro k hk
    refine Token.scansBack_of_spelled ?_
    rcases List.mem_cons.1 hk with rfl | hk
    · trivial
    · exact e.spelled_print k hk
  rw [Token.scan, line, String.toList_ofList]
  exact Token.kinds_scanFrom 0 hspelled ⟨fun _ _ _ _ => hgap, e.apart_print 1⟩

/-- However the tokens of an expression are laid out, the line that returns it parses, and its value
or its error is the one that the expression was meant to have. -/
theorem evaluate_line_eq_eval (e : Expr) {gap : Nat → Blank} (hgap : (gap 1).chars ≠ [])
    (names : NameTable) (b : Bindings V) :
    ∃ tree names', Tree.ofLine names (e.line gap) = (.ok tree, names') ∧
      (b.evaluate names' tree).1.mapError EvalError.bare
        = (e.eval fun s => b.get? (names'.nameOf s)).map Outcome.returned := by
  have hkinds := Token.kinds_scanWith names (e.line gap)
  have horder := Token.inOrder_scanWith names (e.line gap)
  have hname := fun s => @Token.text_nameOf_scanWith names (e.line gap) s
  rw [e.kinds_scan_line hgap] at hkinds hname
  rcases hscan : Token.scanWith names (e.line gap) with ⟨tokens, names'⟩
  rw [hscan] at hkinds hname horder
  obtain ⟨⟨kind, keyword⟩, ts, rfl, hkind, hts⟩ := List.map_eq_cons_iff.1 hkinds
  obtain rfl : kind = .ret := hkind
  -- the tokens behind the keyword are derived as the expression
  have hrenders := e.renders_print (b.scope names') names'.nameOf hname
  obtain ⟨d, rfl, hmeaning⟩ := hrenders.expression ts hts
  have hparse : Tree.ofLine names (e.line gap)
      = (.ok (Derivation.returned keyword d).phrase.toTree, names') :=
    Tree.ofLine_eq_ok_iff.2 ⟨⟨_, rfl, by rw [hscan]; rfl⟩, by rw [hscan]⟩
  refine ⟨_, _, hparse, ?_⟩
  have hresult : (b.evaluate names' (Derivation.returned keyword d).phrase.toTree).1
      = (d.meaning (b.scope names')).map .returned :=
    (Derivation.returned keyword d).evaluate_toTree (b.scope names') horder
  have heval : e.eval (fun s => b.get? (names'.nameOf s))
      = (d.meaning (b.scope names')).mapError EvalError.bare := hmeaning.symm
  rw [hresult, heval]
  cases d.meaning (b.scope names') with
  | error e => rfl
  | ok v => rfl

theorem evaluate_line_eq_eval_nested :
    ∃ tree names', Tree.ofLine .initial "return (8-(3-1))*2" = (.ok tree, names') ∧
      ((Bindings.empty : Bindings Integer).evaluate names' tree).1.mapError EvalError.bare
        = .ok (.returned ⟨12, by decide, by decide⟩) := by
  let gap : Nat → Blank := fun i => if i = 1 then ⟨[' '], List.all_eq_true.1 rfl⟩ else ⟨[], nofun⟩
  let e : Expr := .binary .mul (.binary .sub (.literal ⟨8, by decide, by decide⟩ (by decide))
    (.binary .sub (.literal ⟨3, by decide, by decide⟩ (by decide))
      (.literal ⟨1, by decide, by decide⟩ (by decide))))
    (.literal ⟨2, by decide, by decide⟩ (by decide))
  have hgap : (gap 1).chars ≠ [] := by decide
  have hline : e.line gap = "return (8-(3-1))*2" := by cbv
  obtain ⟨tree, names', hparse, hvalue⟩ :=
    evaluate_line_eq_eval e hgap .initial (Bindings.empty : Bindings Integer)
  rw [hline] at hparse
  exact ⟨tree, names', hparse, hvalue⟩

end Reckoner
