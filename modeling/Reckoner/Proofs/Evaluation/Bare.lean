import Reckoner.Proofs.Notation.Precedence

/-!
Evaluation wherever the tokens stand. The spans of tokens are only used to tell where a failure is,
so what a line does, apart from the places in its errors, is the meaning of its derivation even if
its tokens are not in the order of a line. -/

namespace Reckoner

variable {α V E : Type} [Value V E] (scope : Scope α V)

theorem mapError_map {ε ε' β γ : Type} (g : ε → ε') (f : β → γ) (x : Except ε β) :
    (x.map f).mapError g = (x.mapError g).map f := by
  cases x <;> rfl

/-- One more operator and operand behind a chain, where the operand has the same result however much
was recorded before. -/
theorem View.bare_reduce_link {rule : Rule} (hrule : Folds rule) (span span' : Span)
    (first : View α) {rest : List (View α)} (hrest : rest.length % 2 = 0) {op right : View α}
    {o : Operator} (hop : (operatorIn rule op : Except (EvalError E) Operator) = .ok o)
    {r : Except (EvalError E) V}
    (hright : ∀ log, (operand scope rule right log).1.mapError EvalError.bare = r) (log : Log V) :
    (reduce scope rule span (first :: (rest ++ [op, right])) log).1.mapError EvalError.bare
      = combine o ((reduce scope rule span' (first :: rest) log).1.mapError EvalError.bare) r := by
  rw [reduce_link scope hrule span span' first hrest]
  rcases reduce scope rule span' (first :: rest) log with ⟨e | acc, log'⟩
  · rfl
  · show (fold scope rule _ acc [op, right] log').1.mapError EvalError.bare = _
    rw [fold_pair scope rule _ acc hop right log', ← hright log']
    cases (operand scope rule right log').1 with
    | error e => rfl
    | ok v =>
      simp only [combine, Except.mapError]
      cases Value.apply o acc v <;> rfl

namespace Derivation

open View Phrase

variable {rule operand : Rule}

/-- Reducing the parts of a derivation computes what it means, and fails as it does up to the place
of the failure. -/
theorem bare_reduce_parts (d : Derivation α rule) (hrule : rule ≠ .equation) (span : Span) (n : Nat)
    (log : Log V) :
    (reduce scope rule span (viewAllFrom n d.parts) log).1.mapError EvalError.bare
      = (d.meaning scope).mapError EvalError.bare := by
  induction d generalizing span n log with
  | returned | assigned => exact absurd rfl hrule
  | first h d ih =>
    rw [parts, viewAllFrom, viewAllFrom, reduce_only scope hrule]
    exact (congrArg (Except.mapError _) (d.operand_viewFrom scope _ n log)).trans
      (ih h.operand_ne _ n log)
  | @link rule operand h left op hop right ihl ihr =>
    obtain ⟨first, rest, hparts, hrest⟩ := left.parts_eq_cons h
    by_cases hfolds : Folds rule
    · obtain ⟨o, ho, hop⟩ := operatorIn_ofToken (E := E) hfolds hop
      have hlength : (viewAllFrom (n + first.size) rest).length % 2 = 0 := by
        rwa [length_viewAllFrom]
      have hleft := ihl hrule span n log
      have hright : ∀ m log, (View.operand scope rule (right.phrase.viewFrom m) log).1.mapError
          EvalError.bare = (right.meaning scope).mapError EvalError.bare := by
        intro m log
        rw [operand_viewFrom]
        exact ihr h.operand_ne _ m log
      rw [hparts, viewAllFrom] at hleft
      rw [bare_meaning_link ho, ← hleft, parts, viewAllFrom_append, viewAllFrom, viewAllFrom,
        viewAllFrom, hparts, viewAllFrom, List.cons_append]
      exact bare_reduce_link scope hfolds span span _ hlength (hop _) (hright _) log
    · -- a power is refused for the number of its parts
      obtain ⟨rfl, ho⟩ := operator?_of_not_folds h hfolds hop
      rw [meaning, ho, parts, hparts]
      cases rest <;> rfl
  | signed sign hsign inner ih => rfl
  | unsigned atom ih =>
    rw [parts, viewAllFrom, viewAllFrom, reduce_only scope hrule]
    exact (congrArg (Except.mapError _) (atom.operand_viewFrom scope _ n log)).trans
      (ih (by decide) _ n log)
  | number text place =>
    rw [parts, viewAllFrom, viewAllFrom, reduce_only scope hrule, viewFrom, View.operand, meaning]
    cases Integer.ofText? (scope.text text) <;> rfl
  | ident name place =>
    rw [parts, viewAllFrom, viewAllFrom, reduce_only scope hrule, viewFrom, View.operand, meaning]
    cases scope.value? name <;> rfl
  | parens opening inner closing ih =>
    exact (congrArg (Except.mapError _) (inner.operand_viewFrom scope .atom (n + 1) log)).trans
      (ih (by decide) _ (n + 1) log)

/-- The left side of an assignment gives the identifier that it consists of, and is refused with its
text if it is none. -/
theorem bare_assignee_viewFrom (text : α → String) (d : Derivation α rule)
    (hrule : rule ≠ .equation) (n : Nat) :
    ((d.phrase.viewFrom n).assignee text : Except (EvalError E) α).mapError EvalError.bare
      = match soleIdent? d.yield with
        | some name => .ok name
        | none => .error (.unsupported (.target (String.join (d.yield.map (Token.text text))))
            .none) := by
  obtain ⟨hphrase, hleaves⟩ := d.reads_viewFrom n
  have htext := View.text?_of_phrase? text hphrase
  have hleaf : View.leafText text ∘ Token.asLeaf = Token.text text :=
    funext (Token.leafText_asLeaf text)
  rw [hleaves, List.map_map, hleaf] at htext
  rw [View.assignee, View.firstGap?_eq_none hphrase, d.soleVariable?_viewFrom hrule n, htext]
  cases soleIdent? d.yield <;> rfl

/-- What becomes of a value does not change how there came to be none. -/
theorem bare_concluding_viewFrom (d : Derivation α .expression) (n : Nat)
    {next : V → Log V → Outcome α V × Log V} {f : V → Outcome α V}
    (hnext : ∀ v log, (next v log).1 = f v) :
    (concluding scope (d.phrase.viewFrom n) [] next).1.mapError EvalError.bare
      = ((d.meaning scope).map f).mapError EvalError.bare := by
  have hvalue := d.bare_reduce_parts scope (by decide) d.phrase.span n []
  rw [← operand_viewFrom scope .equation] at hvalue
  have hresult : (concluding scope (d.phrase.viewFrom n) [] next).1
      = (View.operand scope .equation (d.phrase.viewFrom n) []).1.map f := by
    rw [concluding]
    rcases View.operand scope .equation (d.phrase.viewFrom n) [] with ⟨e | v, log⟩
    · rfl
    · exact congrArg Except.ok (hnext v log)
  rw [hresult, mapError_map, mapError_map, hvalue]

/-- Evaluating the tree of a derivation does what the derivation says, up to the place of a
failure. -/
theorem bare_evaluate_toTree (d : Derivation α .equation) :
    (d.phrase.toTree.evaluate scope).1.mapError EvalError.bare
      = (d.outcome scope).mapError EvalError.bare := by
  have hresult : (d.phrase.toTree.evaluate scope).1
      = ((d.phrase.viewFrom 0).evaluate scope []).1 := by
    rw [Tree.evaluate, view_toTree]
  rw [hresult]
  cases d with
  | returned keyword value => exact value.bare_concluding_viewFrom scope _ fun _ _ => rfl
  | assigned target sign value =>
    have htarget := target.bare_assignee_viewFrom (E := E) scope.text (by decide) 0
    rw [evaluate_assigned, outcome]
    cases hs : soleIdent? target.yield with
    | none =>
      rw [hs] at htarget
      cases ha : (target.phrase.viewFrom 0).assignee (E := E) scope.text with
      | ok name => rw [ha] at htarget; cases htarget
      | error e => rw [ha] at htarget; exact congrArg Except.error (Except.error.inj htarget)
    | some name =>
      rw [hs] at htarget
      cases ha : (target.phrase.viewFrom 0).assignee (E := E) scope.text with
      | error e => rw [ha] at htarget; cases htarget
      | ok name' =>
        rw [ha] at htarget
        obtain rfl := Except.ok.inj htarget
        exact value.bare_concluding_viewFrom scope _ fun _ _ => rfl
  | first hc => cases hc
  | link hc => cases hc

end Derivation

end Reckoner
