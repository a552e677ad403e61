import Reckoner.Proofs.Notation
import Reckoner.Tree.View

/-!
Trees without places. A tree is what it is, apart from the spans of its nodes; evaluation reads a
span only to put it into an error, so without spans it does the same thing, records the same values
and fails in the same way, in no place. -/

namespace Reckoner

variable {α V E : Type}

/-- The node in no place. -/
def Node.bare (n : Node α) : Node α := { n with span := .none }

/-- The tree with its nodes in no place. -/
def Tree.bare (t : Tree α) : Tree α := ⟨t.nodes.map Node.bare, t.root⟩

namespace View

mutual

/-- The view with its nodes in no place. -/
def bare : View α → View α
  | .gap id => .gap id
  | .node id kind _ children => .node id kind .none (bareAll children)

/-- Views with their nodes in no place. -/
def bareAll : List (View α) → List (View α)
  | [] => []
  | v :: vs => bare v :: bareAll vs

end

theorem bareAll_eq (vs : List (View α)) : bareAll vs = vs.map bare := by
  induction vs with
  | nil => rfl
  | cons v vs ih => rw [bareAll, ih, List.map_cons]

@[simp] theorem length_bareAll (vs : List (View α)) : (bareAll vs).length = vs.length := by
  rw [bareAll_eq, List.length_map]

end View

theorem Arena.view_bare (a : Arena α) : ∀ depth id : Nat,
    Arena.view (Array.map Node.bare a) depth id = (a.view depth id).bare
  | 0, id => rfl
  | depth + 1, id => by
    rw [view, view, Array.getElem?_map]
    cases a[id]? with
    | none => rfl
    | some n =>
      have hchildren := funext (Arena.view_bare a depth)
      simp only [Option.map_some, View.bare, View.bareAll_eq, List.map_map]
      rw [hchildren]
      rfl

theorem Tree.view_bare (t : Tree α) (id : Nat) : t.bare.view id = (t.view id).bare := by
  rw [view, view, ← Arena.view_bare, bare, Array.size_map]

/-! ### Nodes -/

namespace View

theorem isToken_bare (p : TokenKind α → Bool) (v : View α) :
    v.bare.isToken p = (v.isToken p : Except (EvalError E) Bool).mapError EvalError.bare := by
  cases v with
  | gap id => rfl
  | node id kind span children => cases kind <;> rfl

theorem enclosed_bare (opening closing : View α) : enclosed opening.bare closing.bare
    = (enclosed opening closing : Except (EvalError E) Bool).mapError EvalError.bare := by
  rw [enclosed, enclosed, isToken_bare, isToken_bare]
  rcases opening.isToken (E := E) _ with e | ⟨_ | _⟩ <;> rfl

theorem operatorIn_bare (rule : Rule) (v : View α) : operatorIn rule v.bare
    = (operatorIn rule v : Except (EvalError E) Operator).mapError EvalError.bare := by
  cases v with
  | gap id => rfl
  | node id kind span children =>
    rw [bare, operatorIn, operatorIn]
    cases (operator? kind).filter (foldsWith rule) <;> rfl

@[simp] theorem getD_span?_bare (v : View α) : v.bare.span?.getD .none = .none := by
  cases v <;> rfl

theorem fail_bare (shape : Unsupported) (v : View α) :
    v.bare.fail shape = (v.fail shape : EvalError E).bare := by
  cases v <;> rfl

mutual

@[simp] theorem text?_bare (text : α → String) : ∀ v : View α, v.bare.text? text = v.text? text
  | .gap _ => rfl
  | .node _ kind _ children => by
    rw [bare, text?, text?, textAll?_bare text children]

theorem textAll?_bare (text : α → String) : ∀ vs : List (View α),
    textAll? text (bareAll vs) = textAll? text vs
  | [] => rfl
  | v :: vs => by rw [bareAll, textAll?, textAll?, text?_bare text v, textAll?_bare text vs]

end

mutual

@[simp] theorem firstGap?_bare : ∀ v : View α, v.bare.firstGap? = v.firstGap?
  | .gap _ => rfl
  | .node _ (.token _) _ _ => rfl
  | .node _ (.rule _) _ children
  | .node _ (.scientific _) _ children
  | .node _ (.variable _) _ children => firstGapAll?_bare children

theorem firstGapAll?_bare : ∀ vs : List (View α), firstGapAll? (bareAll vs) = firstGapAll? vs
  | [] => rfl
  | v :: vs => by rw [bareAll, firstGapAll?, firstGap?_bare v, firstGapAll?_bare vs, firstGapAll?]

end

@[simp] theorem soleVariable?_bare : ∀ v : View α, v.bare.soleVariable? = v.soleVariable?
  | .gap _ => rfl
  | .node _ (.token _) _ _ => rfl
  | .node _ (.scientific _) _ _ => rfl
  | .node _ (.variable _) _ _ => rfl
  | .node _ (.rule _) _ [] => rfl
  | .node _ (.rule rule) _ [only] => by
    rw [bare, bareAll, bareAll, soleVariable?, soleVariable?, soleVariable?_bare only]
  | .node _ (.rule _) _ (_ :: _ :: _) => rfl

theorem assignee_bare (text : α → String) (v : View α) : v.bare.assignee text
    = (v.assignee text : Except (EvalError E) α).mapError EvalError.bare := by
  rw [assignee, assignee, firstGap?_bare, soleVariable?_bare, text?_bare, fail_bare]
  cases v.firstGap? with
  | some id => rfl
  | none => cases v.soleVariable? <;> rfl

/-! ### Evaluation -/

/-- The result with its error in no place; what was recorded stays. -/
abbrev bared {β γ : Type} (result : Except (EvalError E) β × γ) : Except (EvalError E) β × γ :=
  (result.1.mapError EvalError.bare, result.2)

variable [Value V E] (scope : Scope α V)

/-- Folding a chain in no place starts from its first operand in no place. -/
theorem reduce_folds_bare {rule : Rule} (hrule : rule = .expression ∨ rule = .term) (span : Span)
    (first : View α) (rest : List (View α)) (log : Log V)
    (hfirst : first.bare.operand scope rule log = bared (first.operand scope rule log))
    (hfold : ∀ acc log, fold scope rule .none acc (bareAll rest) log
      = bared (fold scope rule (first.span?.getD .none) acc rest log)) :
    reduce scope rule .none (bareAll (first :: rest)) log
      = bared (reduce scope rule span (first :: rest) log) := by
  have hlast : (bareAll rest).getLast?.getD first.bare = (rest.getLast?.getD first).bare := by
    rw [bareAll_eq, List.getLast?_map, Option.getD_map]
  rcases hrule with rfl | rfl <;>
  · simp only [bareAll, reduce, hfirst]
    rcases operand scope _ first log with ⟨e | v, log⟩
    · rfl
    · simp only [bared, Except.mapError, getD_span?_bare, length_bareAll, hlast, hfold, fail_bare]
      split <;> rfl

mutual

theorem operand_bare (rule : Rule) : ∀ (v : View α) (log : Log V),
    v.bare.operand scope rule log = bared (v.operand scope rule log)
  | .gap _, _ => rfl
  | .node _ (.token _) _ _, _ => rfl
  | .node _ (.scientific a) _ _, _ => by
    rw [bare, operand, operand]
    cases Integer.ofText? (scope.text a) <;> rfl
  | .node _ (.variable a) _ _, _ => by
    rw [bare, operand, operand]
    cases scope.value? a <;> rfl
  | .node _ (.rule r) span children, log => by
    rw [bare, operand, operand, reduce_bare r span children log]
    rcases reduce scope r span children log with ⟨e | v, log⟩ <;> rfl

theorem reduce_bare (rule : Rule) (span : Span) : ∀ (children : List (View α)) (log : Log V),
    reduce scope rule .none (bareAll children) log = bared (reduce scope rule span children log)
  | [], log => by cases rule <;> rfl
  | first :: rest, log => by
    cases rule with
    | equation => rfl
    | expression =>
      exact reduce_folds_bare scope (.inl rfl) span first rest log (operand_bare _ first log)
        (fold_bare .expression _ rest)
    | term =>
      exact reduce_folds_bare scope (.inr rfl) span first rest log (operand_bare _ first log)
        (fold_bare .term _ rest)
    | factor | signedAtom =>
      cases rest with
      | nil => exact operand_bare _ first log
      | cons => rfl
    | atom =>
      match rest with
      | [] => exact operand_bare _ first log
      | [_] => rfl
      | [inner, closing] =>
        simp only [bareAll, reduce, enclosed_bare, operand_bare _ inner log]
        rcases enclosed (E := E) first closing with e | ⟨_ | _⟩ <;> rfl
      | _ :: _ :: _ :: _ => simp only [bareAll, reduce, List.length_cons, length_bareAll]; rfl

theorem fold_bare (rule : Rule) (first : Span) : ∀ (vs : List (View α)) (acc : V) (log : Log V),
    fold scope rule .none acc (bareAll vs) log = bared (fold scope rule first acc vs log)
  | [], _, _ => rfl
  | [_], _, _ => rfl
  | op :: right :: rest, acc, log => by
    rw [bareAll, bareAll, fold, fold, operatorIn_bare, operand_bare rule right log]
    cases operatorIn (E := E) rule op with
    | error e => rfl
    | ok o =>
      rcases operand scope rule right log with ⟨e | v, log⟩
      · rfl
      · simp only [bared, Except.mapError, getD_span?_bare]
        cases Value.apply o acc v with
        | error e => rfl
        | ok acc => exact fold_bare rule first rest acc log

end

theorem concluding_bare (value : View α) (log : Log V) (next : V → Log V → Outcome α V × Log V) :
    concluding scope value.bare log next = bared (concluding scope value log next) := by
  rw [concluding, concluding, operand_bare]
  rcases operand scope .equation value log with ⟨e | v, log⟩ <;> rfl

theorem evaluate_return_bare (id : Nat) (span : Span) (keyword value : View α) (log : Log V) :
    let v : View α := .node id (.rule .equation) span [keyword, value]
    v.bare.evaluate scope log = bared (v.evaluate scope log) := by
  simp only [bare, bareAll, evaluate, isToken_bare]
  rcases keyword.isToken (E := E) _ with e | ⟨_ | _⟩
  · rfl
  · rfl
  · exact concluding_bare scope value log _

theorem evaluate_assignment_bare (id : Nat) (span : Span) (target eq value : View α)
    (log : Log V) :
    let v : View α := .node id (.rule .equation) span [target, eq, value]
    v.bare.evaluate scope log = bared (v.evaluate scope log) := by
  simp only [bare, bareAll, evaluate, isToken_bare, assignee_bare]
  rcases eq.isToken (E := E) _ with e | ⟨_ | _⟩
  · rfl
  · rfl
  · rcases target.assignee (E := E) scope.text with e | name
    · rfl
    · exact concluding_bare scope value log _

theorem evaluate_bare (v : View α) (log : Log V) :
    v.bare.evaluate scope log = bared (v.evaluate scope log) := by
  cases v with
  | gap id => rfl
  | node id kind span children =>
    cases kind with
    | rule rule =>
      cases rule with
      | equation =>
        match children with
        | [] | [_] | _ :: _ :: _ :: _ :: _ => rfl
        | [keyword, value] => exact evaluate_return_bare scope id span keyword value log
        | [target, eq, value] => exact evaluate_assignment_bare scope id span target eq value log
      | _ => rfl
    | _ => rfl

end View

/-- In no place, a tree does what it does anywhere. -/
theorem Tree.evaluate_bare [Value V E] (scope : Scope α V) (t : Tree α) :
    t.bare.evaluate scope
      = ((t.evaluate scope).1.mapError EvalError.bare, (t.evaluate scope).2) := by
  rw [evaluate, view_bare, View.evaluate_bare, evaluate, bare, Array.size_map]

end Reckoner
