import Mathlib
import Reckoner.Program
import Reckoner.Proofs.Evaluation.Target
import Reckoner.Proofs.Parse.Derivations

/-!
Evaluating a line computes its meaning. The evaluator walks over views of nodes and records a value
for each, which no later step looks at; where a view shows a derivation, the walk through it gives
what the derivation means, with the same error in the same place if there is none. -/

namespace Reckoner

open Token

variable {α V E : Type} [Value V E] (scope : Scope α V)

/-! ### Chains -/

namespace View

/-- Rules whose operands are folded from the left. -/
def Folds (rule : Rule) : Prop := rule = .expression ∨ rule = .term

theorem operatorIn_ofToken {rule : Rule} (hrule : Folds rule) {op : Token α}
    (hop : rule.joins op.kind = true) :
    ∃ o, op.kind.operator? = some o ∧ ∀ n,
      (operatorIn rule ((Phrase.ofToken op).viewFrom n) : Except (EvalError E) Operator)
        = .ok o := by
  obtain ⟨kind, span⟩ := op
  rcases hrule with rfl | rfl <;> cases kind <;> first | exact ⟨_, rfl, fun _ => rfl⟩ | cases hop

/-- The other rule for chains is that of powers. -/
theorem operator?_of_not_folds {rule operand : Rule} (h : rule.Chains operand)
    (hrule : ¬Folds rule) {k : TokenKind α} (hk : rule.joins k = true) :
    rule = .factor ∧ k.operator? = none := by
  cases h with
  | expression => exact absurd (.inl rfl) hrule
  | term => exact absurd (.inr rfl) hrule
  | factor => cases k <;> first | exact ⟨rfl, rfl⟩ | cases hk

/-- Behind pairs of an operator and an operand, folding goes on with the value they give. -/
theorem fold_append (rule : Rule) (first : Span) :
    ∀ (xs ys : List (View α)) (acc : V) (log : Log V), xs.length % 2 = 0 →
      fold scope rule first acc (xs ++ ys) log
        = match fold scope rule first acc xs log with
          | (.ok acc, log) => fold scope rule first acc ys log
          | (.error e, log) => (.error e, log)
  | [], ys, acc, log, _ => rfl
  | [x], ys, acc, log, h => by cases h
  | op :: right :: rest, ys, acc, log, h => by
    rw [List.length_cons, List.length_cons, Nat.add_assoc, Nat.add_mod_right] at h
    rw [List.cons_append, List.cons_append, fold, fold]
    cases operatorIn rule op with
    | error e => rfl
    | ok o =>
      rcases operand scope rule right log with ⟨v | v, log⟩
      · rfl
      · simp only
        cases Value.apply o acc v with
        | error e => rfl
        | ok acc => exact fold_append rule first rest ys acc log h

/-- Rules for folding evaluate the first operand before they look whether the last operator has an
operand behind it. -/
theorem reduce_folds {rule : Rule} (hrule : Folds rule) (span : Span) (first : View α)
    (rest : List (View α)) (log : Log V) :
    reduce scope rule span (first :: rest) log
      = match operand scope rule first log with
        | (.ok v, log) =>
          if rest.length % 2 = 1 then
            (.error ((rest.getLast?.getD first).fail (.danglingOperator rule)), log)
          else fold scope rule (first.span?.getD .none) v rest log
        | (.error e, log) => (.error e, log) := by
  rcases hrule with rfl | rfl
  · rcases hfirst : operand scope .expression first log with ⟨e | v, log'⟩ <;>
      simp only [reduce, hfirst]
  · rcases hfirst : operand scope .term first log with ⟨e | v, log'⟩ <;>
      simp only [reduce, hfirst]

/-- A chain in which every operator has an operand behind it is folded from its first operand on. -/
theorem reduce_chain {rule : Rule} (hrule : Folds rule) (span : Span) (first : View α)
    {rest : List (View α)} (hrest : rest.length % 2 = 0) (log : Log V) :
    reduce scope rule span (first :: rest) log
      = match operand scope rule first log with
        | (.ok v, log) => fold scope rule (first.span?.getD .none) v rest log
        | (.error e, log) => (.error e, log) := by
  have hpaired : ¬rest.length % 2 = 1 := by omega
  rw [reduce_folds scope hrule]
  simp only [if_neg hpaired]

/-- One more operator and operand behind a chain are applied to the value of the chain. -/
theorem reduce_link {rule : Rule} (hrule : Folds rule) (span span' : Span) (first : View α)
    {rest : List (View α)} (hrest : rest.length % 2 = 0) (op right : View α) (log : Log V) :
    reduce scope rule span (first :: (rest ++ [op, right])) log
      = match reduce scope rule span' (first :: rest) log with
        | (.ok acc, log) => fold scope rule (first.span?.getD .none) acc [op, right] log
        | (.error e, log) => (.error e, log) := by
  have hnext : (rest ++ [op, right]).length % 2 = 0 := by
    rw [List.length_append, List.length_cons, List.length_singleton]
    omega
  rw [reduce_chain scope hrule span first hnext, reduce_chain scope hrule span' first hrest]
  rcases operand scope rule first log with ⟨e | v, log⟩
  · rfl
  · exact fold_append scope rule _ rest [op, right] v log hrest

/-- A pair at the end of a chain, its operator known. -/
theorem fold_pair (rule : Rule) (first : Span) (acc : V) {op : View α} {o : Operator}
    (hop : (operatorIn rule op : Except (EvalError E) Operator) = .ok o) (right : View α)
    (log : Log V) :
    (fold scope rule first acc [op, right] log).1
      = match (operand scope rule right log).1 with
        | .error e => .error e
        | .ok v => (Value.apply o acc v).mapError
            (.arithmetic · (first.merge (right.span?.getD .none))) := by
  rw [fold, hop]
  rcases operand scope rule right log with ⟨e | v, log⟩
  · rfl
  · simp only
    cases Value.apply o acc v with
    | error e => rfl
    | ok acc => rfl

/-- A rule with a single part passes on the value of that part. -/
theorem reduce_only {rule : Rule} (hrule : rule ≠ .equation) (span : Span) (only : View α)
    (log : Log V) : reduce scope rule span [only] log = operand scope rule only log := by
  cases rule with
  | equation => exact absurd rfl hrule
  | expression =>
    rw [reduce_chain scope (.inl rfl) span only rfl]
    rcases operand scope .expression only log with ⟨e | v, log⟩ <;> rfl
  | term =>
    rw [reduce_chain scope (.inr rfl) span only rfl]
    rcases operand scope .term only log with ⟨e | v, log⟩ <;> rfl
  | factor | signedAtom | atom => rfl

end View

namespace Phrase

@[simp] theorem span?_viewFrom (p : Phrase α) (n : Nat) : (p.viewFrom n).span? = some p.span := by
  cases p <;> rfl

end Phrase

namespace Derivation

open View Phrase

variable {rule operand : Rule}

/-- A chain has an operand for each operator behind its first operand. -/
theorem parts_eq_cons (h : rule.Chains operand) (d : Derivation α rule) :
    ∃ first rest, d.parts = first :: rest ∧ rest.length % 2 = 0 := by
  induction d with
  | first _ d => exact ⟨d.phrase, [], rfl, rfl⟩
  | link _ left op _ right ih =>
    obtain ⟨first, rest, hparts, hrest⟩ := ih h
    refine ⟨first, rest ++ [.ofToken op, right.phrase], ?_, ?_⟩
    · rw [parts, hparts]
      rfl
    · simp [hrest]
  | _ => cases h

/-- From the first operand of a chain to the operand behind it, the line is taken up by the chain
with that operand. -/
theorem merge_span {left : Derivation α rule} {op : Token α} {right : Derivation α operand}
    {first : Phrase α} {rest : List (Phrase α)} (hparts : left.parts = first :: rest)
    (h : InOrder (left.yield ++ op :: right.yield)) :
    first.span.merge right.phrase.span = ⟨left.start, right.stop⟩ := by
  have hreach := left.reach_parts h.append_left
  rw [hparts, spanAll] at hreach
  obtain ⟨s, hs, hstart⟩ := hreach.first
  obtain rfl := Option.some.inj hs
  have hinside := hreach.inside first.span List.mem_cons_self
  have hleft := start_lt_stop h.append_left
  have hop := stop_le h
  have hright := le_start h.append_right
  have hspan : right.phrase.span = ⟨right.start, right.stop⟩ := span_phrase h.append_right.tail
  have hmin : min left.start right.start = left.start := Nat.min_eq_left (by omega)
  have hmax : max first.span.stop right.stop = right.stop := Nat.max_eq_right (by omega)
  rw [hspan, Span.merge, hstart, hmin, hmax]

/-- An operand has the value that its rule reduces it to. -/
theorem operand_viewFrom (outer : Rule) (d : Derivation α rule) (n : Nat) (log : Log V) :
    (View.operand scope outer (d.phrase.viewFrom n) log).1
      = (reduce scope rule d.phrase.span (viewAllFrom n d.parts) log).1 := by
  rw [phrase, viewFrom, View.operand, Phrase.span]
  rcases reduce scope rule _ (viewAllFrom n d.parts) log with ⟨e | v, log⟩
  · rfl
  · rfl

/-- A sum or product gets its value from those of the chain and the operand that it links. -/
theorem reduce_sum {h : rule.Chains operand} {left : Derivation α rule} {op : Token α}
    {hop : rule.joins op.kind = true} {right : Derivation α operand} (hrule : Folds rule)
    (hd : InOrder (link h left op hop right).yield) (n : Nat) (log : Log V)
    (hleft : (reduce scope rule left.phrase.span (viewAllFrom n left.parts) log).1
      = left.meaning scope)
    (hright : ∀ n log, (View.operand scope rule (right.phrase.viewFrom n) log).1
      = right.meaning scope) (span : Span) :
    (reduce scope rule span (viewAllFrom n (left.parts ++ [.ofToken op, right.phrase])) log).1
      = (link h left op hop right).meaning scope := by
  obtain ⟨o, ho, hop⟩ := operatorIn_ofToken (E := E) hrule hop
  obtain ⟨first, rest, hparts, hrest⟩ := left.parts_eq_cons h
  have hlength : (viewAllFrom (n + first.size) rest).length % 2 = 0 := by
    rwa [length_viewAllFrom]
  rw [hparts, viewAllFrom] at hleft
  rw [viewAllFrom_append, viewAllFrom, viewAllFrom, viewAllFrom, hparts, viewAllFrom,
    List.cons_append, reduce_link scope hrule _ left.phrase.span _ hlength, meaning, ho]
  rcases hreduce : reduce scope rule left.phrase.span
    (first.viewFrom n :: viewAllFrom (n + first.size) rest) log with ⟨e | acc, log'⟩
  · -- the chain fails
    rw [hreduce] at hleft
    rw [← hleft]
  · -- the chain has the value `acc`
    rw [hreduce] at hleft
    rw [← hleft]
    have hpair := fold_pair scope rule ((first.viewFrom n).span?.getD .none) acc
      (hop (n + sizeAll (first :: rest)))
      (right.phrase.viewFrom (n + sizeAll (first :: rest) + (ofToken op).size)) log'
    have hspan : ∀ m, ((first.viewFrom n).span?.getD .none).merge
        ((right.phrase.viewFrom m).span?.getD .none) = ⟨left.start, right.stop⟩ := by
      intro m
      rw [span?_viewFrom, span?_viewFrom]
      exact merge_span hparts hd
    rw [hright, hspan] at hpair
    exact hpair

/-- A power is refused as a whole. -/
theorem reduce_power {h : Rule.factor.Chains operand} {left : Derivation α .factor} {op : Token α}
    {hop : Rule.factor.joins op.kind = true} {right : Derivation α operand}
    (ho : op.kind.operator? = none) (hd : InOrder (link h left op hop right).yield) (n : Nat)
    (log : Log V) :
    (reduce scope .factor (link h left op hop right).phrase.span
      (viewAllFrom n (left.parts ++ [.ofToken op, right.phrase])) log).1
      = (link h left op hop right).meaning scope := by
  have hspan := span_phrase hd
  rw [extent, start_link, stop_link] at hspan
  obtain ⟨first, rest, hparts, -⟩ := left.parts_eq_cons h
  rw [hspan, hparts, meaning, ho]
  cases rest with
  | nil => rfl
  | cons => rfl

/-- Reducing the parts of a derivation computes what it means. -/
theorem reduce_parts (d : Derivation α rule) (hrule : rule ≠ .equation)
    (hd : InOrder d.yield) (n : Nat) (log : Log V) :
    (reduce scope rule d.phrase.span (viewAllFrom n d.parts) log).1 = d.meaning scope := by
  induction d generalizing n log with
  | returned | assigned => exact absurd rfl hrule
  | first h d ih =>
    rw [parts, viewAllFrom, viewAllFrom, reduce_only scope hrule]
    exact (operand_viewFrom scope _ d n log).trans (ih h.operand_ne hd n log)
  | @link rule operand h left op hop right ihl ihr =>
    by_cases hfolds : Folds rule
    · refine reduce_sum scope hfolds hd n log (ihl hrule hd.append_left n log) ?_ _
      intro n log
      rw [operand_viewFrom, ihr h.operand_ne hd.append_right.tail]
    · obtain ⟨rfl, ho⟩ := operator?_of_not_folds h hfolds hop
      exact reduce_power scope ho hd n log
  | signed sign hsign inner ih =>
    have hspan := span_phrase hd
    rw [extent, stop_signed] at hspan
    rw [hspan]
    rfl
  | unsigned atom ih =>
    rw [parts, viewAllFrom, viewAllFrom, reduce_only scope hrule]
    exact (operand_viewFrom scope _ atom n log).trans (ih (by decide) hd n log)
  | number text span =>
    rw [parts, viewAllFrom, viewAllFrom, reduce_only scope hrule, viewFrom, View.operand, meaning]
    cases Integer.ofText? (scope.text text) <;> rfl
  | ident name span =>
    rw [parts, viewAllFrom, viewAllFrom, reduce_only scope hrule, viewFrom, View.operand, meaning]
    cases scope.value? name <;> rfl
  | parens opening inner closing ih =>
    have hinner := (show InOrder ((⟨.lparen, opening⟩ :: inner.yield) ++ [⟨.rparen, closing⟩])
      from hd).append_left.tail
    have hvalue := ih (by decide) hinner (n + 1) log
    exact (operand_viewFrom scope .atom inner (n + 1) log).trans hvalue

/-! ### Lines -/

/-- An operand of any rule has the meaning of its derivation as its value. -/
theorem operand_eq_meaning {d : Derivation α rule} (hrule : rule ≠ .equation)
    (hd : InOrder d.yield) (outer : Rule) (n : Nat) (log : Log V) :
    (View.operand scope outer (d.phrase.viewFrom n) log).1 = d.meaning scope :=
  (operand_viewFrom scope outer d n log).trans (d.reduce_parts scope hrule hd n log)

/-- What becomes of the value of a line is told by the value alone. -/
theorem concluding_viewFrom {d : Derivation α .expression} (hd : InOrder d.yield) (n : Nat)
    (log : Log V) {next : V → Log V → Outcome α V × Log V} {f : V → Outcome α V}
    (hnext : ∀ v log, (next v log).1 = f v) :
    (concluding scope (d.phrase.viewFrom n) log next).1 = (d.meaning scope).map f := by
  have hvalue := operand_eq_meaning scope (by decide) hd .equation n log
  rw [concluding, ← hvalue]
  rcases View.operand scope .equation (d.phrase.viewFrom n) log with ⟨e | v, log⟩
  · rfl
  · exact congrArg Except.ok (hnext v log)

/-- An assignment looks at its target before its value. -/
theorem evaluate_assigned (target : Derivation α .expression) (sign : Span)
    (value : Derivation α .expression) :
    ((assigned target sign value).phrase.viewFrom 0).evaluate scope []
      = match (target.phrase.viewFrom 0).assignee scope.text with
        | .ok name => concluding scope (value.phrase.viewFrom (0 + target.phrase.size + 1)) []
            fun v log => (.assigned name v, log)
        | .error e => (.error e, []) :=
  rfl

/-- Evaluating the tree of a derivation does what the derivation says. -/
theorem evaluate_toTree (d : Derivation α .equation) (hd : InOrder d.yield) :
    (d.phrase.toTree.evaluate scope).1 = d.outcome scope := by
  have hresult : (d.phrase.toTree.evaluate scope).1
      = ((d.phrase.viewFrom 0).evaluate scope []).1 := by
    rw [Tree.evaluate, view_toTree]
  rw [hresult]
  cases d with
  | returned keyword value => exact concluding_viewFrom scope hd.tail _ [] fun _ _ => rfl
  | assigned target sign value =>
    rw [evaluate_assigned, assignee_viewFrom scope.text (by decide) hd.append_left, outcome]
    cases soleIdent? target.yield with
    | none => rfl
    | some name => exact concluding_viewFrom scope hd.append_right.tail _ [] fun _ _ => rfl
  | first h => cases h
  | link h => cases h

end Derivation

/-- A line that parses does what its derivation means, or fails as the derivation does, and binds a
name only if it is an assignment with a value. -/
theorem evaluate_eq_outcome {names names' : NameTable} {line : String} {tree : Tree Name}
    (h : Tree.ofLine names line = (.ok tree, names')) (table : NameTable) (b : Bindings V) :
    ∃ d : Derivation Name .equation, d.yield = (scanWith names line).1 ∧
      tree.phrase? = some d.phrase ∧
      (b.evaluate table tree).1 = d.outcome (b.scope table) ∧
      (b.evaluate table tree).2.2 = b.after (d.outcome (b.scope table)) := by
  obtain ⟨⟨d, rfl, hyield⟩, -⟩ := Tree.ofLine_eq_ok_iff.1 h
  have hd : InOrder d.yield := hyield ▸ inOrder_scanWith names line
  have hresult := d.evaluate_toTree (b.scope table) hd
  refine ⟨d, hyield, d.reads_toTree.1, hresult, ?_⟩
  rw [← hresult]
  rfl

theorem evaluate_eq_outcome_difference :
    ∃ d : Derivation Name .equation, d.yield = (scanWith .initial "return 8 - 3 - 2").1 ∧
      d.outcome ((Bindings.empty : Bindings Integer).scope (scanWith .initial "return 8 - 3 - 2").2)
        = .ok (.returned ⟨3, by decide, by decide⟩) := by
  have hvalue : (Tree.ofLine .initial "return 8 - 3 - 2").1.map
      (fun tree => ((Bindings.empty : Bindings Integer).evaluate
        (scanWith .initial "return 8 - 3 - 2").2 tree).1)
      = .ok (.ok (.returned ⟨3, by decide, by decide⟩)) := by cbv
  cases hline : (Tree.ofLine .initial "return 8 - 3 - 2").1 with
  | error e => rw [hline] at hvalue; cases hvalue
  | ok tree =>
    rw [hline] at hvalue
    obtain ⟨d, hyield, -, hresult, -⟩ := evaluate_eq_outcome (Prod.ext hline rfl)
      (scanWith .initial "return 8 - 3 - 2").2 (Bindings.empty : Bindings Integer)
    exact ⟨d, hyield, hresult.symm.trans (Except.ok.inj hvalue)⟩

end Reckoner
