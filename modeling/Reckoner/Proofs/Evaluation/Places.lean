import Reckoner.Proofs.Evaluation.Compositional
import Reckoner.Proofs.Tree.Places

/-!
Where evaluation fails. A failure is at the span of one node or at what merging the spans of two
nodes gives; so a property of all spans of a tree that merging keeps is one of every failure's place.
A walk through a tree without gaps meets none. -/

namespace Reckoner

variable {α V E β : Type}

/-- The failure is at a node of the tree, in a place with a property. -/
def EvalError.At (P : Span → Prop) : EvalError E → Prop
  | .gap _ => False
  | .unresolved _ span | .unsupported _ span | .literal _ span | .arithmetic _ span => P span

/-- A result that is a failure in a place with a property, if it is one. -/
def FailsAt (P : Span → Prop) (r : Except (EvalError E) β) : Prop := ∀ e, r = .error e → e.At P

section

variable {P : Span → Prop}

theorem failsAt_ok (x : β) : FailsAt P (.ok x : Except (EvalError E) β) := nofun

theorem failsAt_error {e : EvalError E} (h : e.At P) : FailsAt P (.error e : Except _ β) := by
  rintro _ ⟨⟩
  exact h

end

namespace View

/-! ### Parts of a walk -/

variable {P : Span → Prop}

theorem Placed.isToken {v : View α} (h : v.Placed P) (p : TokenKind α → Bool) :
    FailsAt P (v.isToken p : Except (EvalError E) Bool) := by
  rcases h with @⟨_, kind, span, children, -, -⟩
  cases kind <;> exact failsAt_ok _

theorem Placed.enclosed {opening closing : View α} (h : opening.Placed P) (h' : closing.Placed P) :
    FailsAt P (enclosed opening closing : Except (EvalError E) Bool) := by
  rw [View.enclosed]
  split
  · exact h'.isToken _
  · exact failsAt_ok false
  · rename_i e he
    exact failsAt_error (h.isToken _ e he)

theorem Placed.fail {v : View α} (h : v.Placed P) (shape : Unsupported) :
    (v.fail shape : EvalError E).At P := by
  rcases h with ⟨hspan, -⟩
  exact hspan

theorem Placed.operatorIn {v : View α} (h : v.Placed P) (rule : Rule) :
    FailsAt P (operatorIn rule v : Except (EvalError E) Operator) := by
  rcases h with ⟨hspan, -⟩
  rw [View.operatorIn]
  split
  · exact failsAt_ok _
  · exact failsAt_error hspan

theorem Placed.span? {v : View α} (h : v.Placed P) : P (v.span?.getD .none) := by
  rcases h with ⟨hspan, -⟩
  exact hspan

mutual

theorem firstGap?_of_placed : ∀ {v : View α}, v.Placed P → v.firstGap? = none
  | .gap _, h => by cases h
  | .node _ (.token _) _ _, _ => rfl
  | .node _ (.rule _) _ children, h | .node _ (.scientific _) _ children, h
  | .node _ (.variable _) _ children, h => by
    rcases h with ⟨-, hchildren⟩
    exact firstGapAll?_of_placed hchildren

theorem firstGapAll?_of_placed : ∀ {vs : List (View α)}, (∀ v ∈ vs, v.Placed P) →
    firstGapAll? vs = none
  | [], _ => rfl
  | v :: vs, h => by
    obtain ⟨hv, hvs⟩ := List.forall_mem_cons.1 h
    simp [firstGapAll?, firstGap?_of_placed hv, firstGapAll?_of_placed hvs]

end

theorem Placed.assignee {v : View α} (h : v.Placed P) (text : α → String) :
    FailsAt P (v.assignee text : Except (EvalError E) α) := by
  rw [View.assignee, firstGap?_of_placed h]
  cases v.soleVariable? with
  | some name => exact failsAt_ok name
  | none => exact failsAt_error (h.fail _)

/-! ### Operands -/

variable [Value V E] (scope : Scope α V)

/-- Folding a chain starts from the value of its first operand. -/
theorem failsAt_reduce_folds {rule : Rule} (hrule : Folds rule) (span : Span) {first : View α}
    {rest : List (View α)} (hplaced : ∀ v ∈ first :: rest, v.Placed P) (log : Log V)
    (hfirst : FailsAt P (operand scope rule first log).1)
    (hfold : ∀ acc log, FailsAt P (fold scope rule (first.span?.getD .none) acc rest log).1) :
    FailsAt P (reduce scope rule span (first :: rest) log).1 := by
  rw [reduce_folds scope hrule]
  generalize operand scope rule first log = r at hfirst ⊢
  rcases r with ⟨e | acc, log⟩
  · exact failsAt_error (hfirst e rfl)
  · dsimp only
    split
    · exact failsAt_error (Placed.fail (hplaced _ (List.mem_of_getLast? List.getLast?_cons)) _)
    · exact hfold acc log

mutual

theorem failsAt_operand (hP : Span.Mergeable P) (rule : Rule) : ∀ {v : View α}, v.Placed P →
    ∀ log : Log V, FailsAt P (operand scope rule v log).1
  | .gap _, h, _ => by cases h
  | .node _ (.token _) _ _, h, _ => by
    rcases h with ⟨hspan, -⟩
    exact failsAt_error hspan
  | .node _ (.scientific a) _ _, h, log => by
    rcases h with ⟨hspan, -⟩
    rw [operand]
    cases Integer.ofText? (scope.text a) with
    | none => exact failsAt_error hspan
    | some n => exact failsAt_ok _
  | .node _ (.variable a) _ _, h, log => by
    rcases h with ⟨hspan, -⟩
    rw [operand]
    cases scope.value? a with
    | none => exact failsAt_error hspan
    | some v => exact failsAt_ok v
  | .node _ (.rule r) span children, h, log => by
    rcases h with ⟨hspan, hchildren⟩
    have hreduce := failsAt_reduce hP r hspan hchildren log
    rw [operand]
    generalize reduce scope r span children log = result at hreduce ⊢
    rcases result with ⟨e | v, log'⟩
    · exact failsAt_error (hreduce e rfl)
    · exact failsAt_ok v

theorem failsAt_reduce (hP : Span.Mergeable P) (rule : Rule) {span : Span} (hspan : P span) :
    ∀ {children : List (View α)}, (∀ v ∈ children, v.Placed P) → ∀ log : Log V,
      FailsAt P (reduce scope rule span children log).1
  | [], _, _ => by cases rule <;> exact failsAt_error hspan
  | first :: rest, h, log => by
    obtain ⟨hfirst, hrest⟩ := List.forall_mem_cons.1 h
    cases rule with
    | equation => exact failsAt_error hspan
    | expression =>
      exact failsAt_reduce_folds scope (.inl rfl) span h log (failsAt_operand hP _ hfirst log)
        fun acc log => failsAt_fold hP _ hfirst.span? hrest acc log
    | term =>
      exact failsAt_reduce_folds scope (.inr rfl) span h log (failsAt_operand hP _ hfirst log)
        fun acc log => failsAt_fold hP _ hfirst.span? hrest acc log
    | factor | signedAtom =>
      cases rest with
      | nil => exact failsAt_operand hP _ hfirst log
      | cons => exact failsAt_error hspan
    | atom =>
      match rest, hrest with
      | [], _ => exact failsAt_operand hP _ hfirst log
      | [_], _ => exact failsAt_error hspan
      | [inner, closing], hrest =>
        obtain ⟨hinner, hclosing⟩ : inner.Placed P ∧ closing.Placed P := by simpa using hrest
        rw [reduce]
        split
        · exact failsAt_operand hP _ hinner log
        · exact failsAt_error hspan
        · rename_i e he
          exact failsAt_error (hfirst.enclosed hclosing e he)
      | _ :: _ :: _ :: _, _ => exact failsAt_error hspan

theorem failsAt_fold (hP : Span.Mergeable P) (rule : Rule) {first : Span} (hfirst : P first) :
    ∀ {vs : List (View α)}, (∀ v ∈ vs, v.Placed P) → ∀ (acc : V) (log : Log V),
      FailsAt P (fold scope rule first acc vs log).1
  | [], _, acc, _ | [_], _, acc, _ => failsAt_ok acc
  | op :: right :: rest, h, acc, log => by
    obtain ⟨hop, hright, hrest⟩ : op.Placed P ∧ right.Placed P ∧ ∀ v ∈ rest, v.Placed P := by
      simpa using h
    have hoperand := failsAt_operand hP rule hright log
    rw [fold]
    split
    · rename_i e he
      exact failsAt_error (hop.operatorIn rule e he)
    · rename_i o _
      generalize operand scope rule right log = result at hoperand ⊢
      rcases result with ⟨e | v, log'⟩
      · exact failsAt_error (hoperand e rfl)
      · dsimp only
        split
        · rename_i acc _
          exact failsAt_fold hP rule hfirst hrest acc log'
        · exact failsAt_error (hP.merge hfirst hright.span?)

end

/-! ### Lines -/

theorem failsAt_concluding (hP : Span.Mergeable P) {value : View α} (h : value.Placed P)
    (log : Log V) (next : V → Log V → Outcome α V × Log V) :
    FailsAt P (concluding scope value log next).1 := by
  have hoperand := failsAt_operand scope hP .equation h log
  rw [concluding]
  generalize operand scope .equation value log = result at hoperand ⊢
  rcases result with ⟨e | v, log'⟩
  · exact failsAt_error (hoperand e rfl)
  · exact failsAt_ok _

/-- A line that fails does so in a place with the property. -/
theorem failsAt_evaluate (hP : Span.Mergeable P) {v : View α} (h : v.Placed P) (log : Log V) :
    FailsAt P (v.evaluate scope log).1 := by
  rcases h with @⟨_, kind, span, children, hspan, hchildren⟩
  cases kind with
  | rule rule =>
    cases rule with
    | equation =>
      match children, hchildren with
      | [], _ | [_], _ | _ :: _ :: _ :: _ :: _, _ => exact failsAt_error hspan
      | [keyword, value], hchildren =>
        obtain ⟨hkeyword, hvalue⟩ : keyword.Placed P ∧ value.Placed P := by simpa using hchildren
        rw [evaluate]
        split
        · exact failsAt_concluding scope hP hvalue log _
        · exact failsAt_error hspan
        · rename_i e he
          exact failsAt_error (hkeyword.isToken _ e he)
      | [target, sign, value], hchildren =>
        obtain ⟨htarget, hsign, hvalue⟩ : target.Placed P ∧ sign.Placed P ∧ value.Placed P := by
          simpa using hchildren
        rw [evaluate]
        split
        · split
          · exact failsAt_concluding scope hP hvalue log _
          · rename_i e he
            exact failsAt_error (htarget.assignee scope.text e he)
        · exact failsAt_error hspan
        · rename_i e he
          exact failsAt_error (hsign.isToken _ e he)
    | _ => exact failsAt_error hspan
  | _ => exact failsAt_error hspan

end View

theorem Tree.failsAt_evaluate [Value V E] {P : Span → Prop} (hP : Span.Mergeable P) {t : Tree α}
    (h : (t.view t.root).Placed P) (scope : Scope α V) : FailsAt P (t.evaluate scope).1 :=
  View.failsAt_evaluate scope hP h []

end Reckoner
