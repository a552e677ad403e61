import Reckoner.Evaluation
import Reckoner.Proofs.Renaming.Parse

/-!
Evaluation meets texts only through its scope. A tree with other texts has the views of the tree, is
written with what the other texts stand for, and does in a scope what the tree does in the scope
that looks the other texts up. -/

namespace Reckoner

variable {α β V E : Type} (f : α → β)

namespace NodeKind

@[simp] theorem describe_map (k : NodeKind α) : (k.map f).describe = k.describe := by
  cases k with
  | token k => exact TokenKind.describe_map f k
  | _ => rfl

end NodeKind

/-! ### Views -/

namespace View

mutual

/-- The view of a tree with other texts. -/
def map (f : α → β) : View α → View β
  | .gap id => .gap id
  | .node id kind span children => .node id (kind.map f) span (mapAll f children)

/-- Views of trees with other texts. -/
def mapAll (f : α → β) : List (View α) → List (View β)
  | [] => []
  | v :: vs => map f v :: mapAll f vs

end

theorem mapAll_eq : ∀ vs : List (View α), mapAll f vs = vs.map (map f)
  | [] => rfl
  | v :: vs => by rw [mapAll, mapAll_eq vs, List.map_cons]

theorem ownText?_map (text : β → String) (k : NodeKind α) :
    ownText? text (k.map f) = ownText? (text ∘ f) k := by
  cases k with
  | token k => cases k <;> rfl
  | _ => rfl

mutual

theorem text?_map (text : β → String) : ∀ v : View α, (v.map f).text? text = v.text? (text ∘ f)
  | .gap _ => rfl
  | .node _ kind _ children => by
    rw [map, text?, text?, ownText?_map, textAll?_map text children]

theorem textAll?_map (text : β → String) : ∀ vs : List (View α),
    textAll? text (mapAll f vs) = textAll? (text ∘ f) vs
  | [] => rfl
  | v :: vs => by rw [mapAll, textAll?, textAll?, text?_map text v, textAll?_map text vs]

end

def Entry.map (e : Entry α) : Entry β := ⟨e.depth, e.kind.map f, e.span⟩

theorem Entry.line_map (text : β → String) (e : Entry α) :
    (e.map f).line text = e.line (text ∘ f) := by
  obtain ⟨depth, kind, span⟩ := e
  cases kind with
  | token k => simp [map, line, NodeKind.map]
  | _ => rfl

mutual

theorem entries?_map : ∀ (v : View α) (depth : Nat),
    (v.map f).entries? depth = (v.entries? depth).map (List.map (Entry.map f))
  | .gap _, _ => rfl
  | .node _ kind span children, depth => by
    rw [map, entries?, entries?, entriesAll?_map children, Option.map_map, Option.map_map]
    rfl

theorem entriesAll?_map : ∀ (vs : List (View α)) (depth : Nat),
    entriesAll? depth (mapAll f vs) = (entriesAll? depth vs).map (List.map (Entry.map f))
  | [], _ => rfl
  | v :: vs, depth => by
    rw [mapAll, entriesAll?, entriesAll?, entries?_map v, entriesAll?_map vs]
    cases entries? depth v with
    | none => rfl
    | some es => cases entriesAll? depth vs <;> simp

end

theorem dump?_map (text : β → String) (v : View α) :
    (v.map f).dump? text = v.dump? (text ∘ f) := by
  have hline : Entry.line text ∘ Entry.map f = Entry.line (text ∘ f) :=
    funext (Entry.line_map f text)
  rw [dump?, entries?_map, Option.map_map, dump?]
  congr 1
  funext es
  rw [Function.comp_apply, List.map_map, hline]

end View

theorem Arena.view_map (a : Arena α) : ∀ depth id : Nat,
    Arena.view (Array.map (Node.map f) a) depth id = (a.view depth id).map f
  | 0, id => rfl
  | depth + 1, id => by
    rw [view, view, Array.getElem?_map]
    cases a[id]? with
    | none => rfl
    | some n =>
      have hchildren := funext (Arena.view_map a depth)
      simp only [Option.map_some, View.map, View.mapAll_eq, List.map_map]
      rw [hchildren]
      rfl

namespace Tree

variable (t : Tree α)

theorem view_map (id : Nat) : (t.map f).view id = (t.view id).map f := by
  rw [view, view, ← Arena.view_map, map, Array.size_map]

theorem text?_map (text : β → String) (id : Nat) :
    (t.map f).text? text id = t.text? (text ∘ f) id := by
  rw [text?, view_map, View.text?_map, text?]

theorem dump?_map (text : β → String) : (t.map f).dump? text = t.dump? (text ∘ f) := by
  rw [dump?, view_map, View.dump?_map]
  rfl

end Tree

/-! ### Evaluation -/

/-- The scope in which the texts stand for what others mean in a scope. -/
def Scope.comap (scope : Scope β V) : Scope α V := ⟨scope.value? ∘ f, scope.text ∘ f⟩

/-- The outcome for a variable with another text. -/
def Outcome.map : Outcome α V → Outcome β V
  | .assigned name v => .assigned (f name) v
  | .returned v => .returned v

namespace View

theorem operatorIn_map (rule : Rule) (v : View α) :
    operatorIn rule (v.map f) = (operatorIn rule v : Except (EvalError E) Operator) := by
  cases v with
  | gap id => rfl
  | node id kind span children =>
    have hop : operator? (kind.map f) = operator? kind := by
      cases kind with
      | token k => exact TokenKind.operator?_map f k
      | _ => rfl
    rw [map, operatorIn, operatorIn, hop, NodeKind.describe_map]

theorem span?_map (v : View α) : (v.map f).span? = v.span? := by
  cases v <;> rfl

theorem fail_map (shape : Unsupported) (v : View α) :
    (v.map f).fail shape = (v.fail shape : EvalError E) := by
  cases v <;> rfl

theorem enclosed_map (opening closing : View α) : enclosed (opening.map f) (closing.map f)
    = (enclosed opening closing : Except (EvalError E) Bool) := by
  cases opening with
  | gap id => rfl
  | node _ kind _ _ =>
    cases kind with
    | token k =>
      cases k with
      | lparen =>
        cases closing with
        | gap id => rfl
        | node _ kind _ _ =>
          cases kind with
          | token k => cases k <;> rfl
          | _ => rfl
      | _ => rfl
    | _ => rfl

section Operands

variable [Value V E] (scope : Scope β V)

mutual

theorem operand_map (rule : Rule) : ∀ (v : View α) (log : Log V),
    operand scope rule (v.map f) log = operand (scope.comap f) rule v log
  | .gap _, _ => rfl
  | .node _ (.token k) _ _, _ => by
    rw [map, NodeKind.map, operand, operand, TokenKind.describe_map]
  | .node _ (.scientific _) _ _, _ => rfl
  | .node _ (.variable _) _ _, _ => rfl
  | .node _ (.rule r) _ children, log => by
    rw [map, NodeKind.map, operand, operand, reduce_map r _ children log]

theorem reduce_map (rule : Rule) (span : Span) : ∀ (children : List (View α)) (log : Log V),
    reduce scope rule span (mapAll f children) log = reduce (scope.comap f) rule span children log
  | [], log => by cases rule <;> rfl
  | first :: rest, log => by
    have hfold := fold_map rule (first.span?.getD .none) rest
    have hlength : (mapAll f rest).length = rest.length := by rw [mapAll_eq, List.length_map]
    have hlast : ((mapAll f rest).getLast?.getD (first.map f)) = (rest.getLast?.getD first).map f := by
      rw [mapAll_eq, List.getLast?_map, Option.getD_map]
    cases rule with
    | equation => rfl
    | expression | term =>
      simp only [mapAll, reduce, operand_map _ first log, span?_map, hfold, hlength, hlast, fail_map]
    | factor | signedAtom =>
      cases rest with
      | nil => simp only [mapAll, reduce, operand_map _ first log]
      | cons => rfl
    | atom =>
      match rest with
      | [] => simp only [mapAll, reduce, operand_map _ first log]
      | [_] => rfl
      | [inner, closing] =>
        simp only [mapAll, reduce, enclosed_map, operand_map _ inner log]
      | _ :: _ :: _ :: _ =>
        simp only [mapAll, reduce, List.length_cons, mapAll_eq, List.length_map]

theorem fold_map (rule : Rule) (first : Span) : ∀ (vs : List (View α)) (acc : V) (log : Log V),
    fold scope rule first acc (mapAll f vs) log = fold (scope.comap f) rule first acc vs log
  | [], _, _ => rfl
  | [_], _, _ => rfl
  | op :: right :: rest, acc, log => by
    rw [mapAll, mapAll, fold, fold, operatorIn_map, operand_map rule right log, span?_map]
    simp only [fold_map rule first rest]

end

end Operands

mutual

theorem firstGap?_map : ∀ v : View α, (v.map f).firstGap? = v.firstGap?
  | .gap _ => rfl
  | .node _ (.token _) _ _ => rfl
  | .node _ (.rule _) _ children
  | .node _ (.scientific _) _ children
  | .node _ (.variable _) _ children => firstGapAll?_map children

theorem firstGapAll?_map : ∀ vs : List (View α), firstGapAll? (mapAll f vs) = firstGapAll? vs
  | [] => rfl
  | v :: vs => by rw [mapAll, firstGapAll?, firstGap?_map v, firstGapAll?_map vs, firstGapAll?]

end

theorem soleVariable?_map : ∀ v : View α, (v.map f).soleVariable? = v.soleVariable?.map f
  | .gap _ => rfl
  | .node _ (.token _) _ _ => rfl
  | .node _ (.scientific _) _ _ => rfl
  | .node _ (.variable _) _ _ => rfl
  | .node _ (.rule _) _ [] => rfl
  | .node _ (.rule rule) _ [only] => by
    rw [map, mapAll, mapAll, NodeKind.map, soleVariable?, soleVariable?, soleVariable?_map only]
    split <;> rfl
  | .node _ (.rule _) _ (_ :: _ :: _) => rfl

theorem assignee_map (text : β → String) (v : View α) :
    assignee text (v.map f) = (assignee (text ∘ f) v : Except (EvalError E) α).map f := by
  rw [assignee, assignee, firstGap?_map, soleVariable?_map, text?_map, fail_map]
  cases v.firstGap? with
  | some id => rfl
  | none => cases v.soleVariable? <;> rfl

variable [Value V E] (scope : Scope β V)

/-- The result for a line with other texts. -/
abbrev renamed (result : Except (EvalError E) (Outcome α V) × Log V) :
    Except (EvalError E) (Outcome β V) × Log V :=
  (result.1.map (Outcome.map f), result.2)

theorem concluding_map (value : View α) (log : Log V) (next' : V → Log V → Outcome α V × Log V)
    {next : V → Log V → Outcome β V × Log V}
    (hnext : ∀ v log, next v log = ((next' v log).1.map f, (next' v log).2)) :
    concluding scope (value.map f) log next
      = renamed f (concluding (scope.comap f) value log next') := by
  rw [concluding, concluding, operand_map]
  rcases operand (scope.comap f) .equation value log with ⟨_ | v, log⟩
  · rfl
  · simp only [hnext]
    rfl

theorem evaluate_return_map (id : Nat) (span : Span) (keyword value : View α) (log : Log V) :
    let v : View α := .node id (.rule .equation) span [keyword, value]
    evaluate scope (v.map f) log = renamed f (evaluate (scope.comap f) v log) := by
  cases keyword with
  | gap id => rfl
  | node _ kind _ _ =>
    cases kind with
    | token k =>
      cases k with
      | ret =>
        exact concluding_map f scope value log (fun v log => (.returned v, (id, v) :: log))
          fun _ _ => rfl
      | _ => rfl
    | _ => rfl

theorem evaluate_assignment_map (id : Nat) (span : Span) (target eq value : View α) (log : Log V) :
    let v : View α := .node id (.rule .equation) span [target, eq, value]
    evaluate scope (v.map f) log = renamed f (evaluate (scope.comap f) v log) := by
  have htarget := assignee_map (E := E) f scope.text target
  cases eq with
  | gap id => rfl
  | node _ kind _ _ =>
    cases kind with
    | token k =>
      cases k with
      | eq =>
        simp only [map, mapAll, NodeKind.map, TokenKind.map, evaluate, isToken, htarget,
          Scope.comap]
        rcases target.assignee (scope.text ∘ f) with _ | name
        · rfl
        · exact concluding_map f scope value log (fun v log => (.assigned name v, log))
            fun _ _ => rfl
      | _ => rfl
    | _ => rfl

theorem evaluate_map (v : View α) (log : Log V) :
    evaluate scope (v.map f) log = renamed f (evaluate (scope.comap f) v log) := by
  cases v with
  | gap id => rfl
  | node id kind span children =>
    cases kind with
    | rule rule =>
      cases rule with
      | equation =>
        match children with
        | [] | [_] | _ :: _ :: _ :: _ :: _ => rfl
        | [keyword, value] => exact evaluate_return_map f scope id span keyword value log
        | [target, eq, value] => exact evaluate_assignment_map f scope id span target eq value log
      | _ => rfl
    | _ => rfl

end View

/-- A tree with other texts does what the tree does, to the variables with these texts. -/
theorem Tree.evaluate_map [Value V E] (scope : Scope β V) (t : Tree α) :
    (t.map f).evaluate scope
      = ((t.evaluate (scope.comap f)).1.map (Outcome.map f), (t.evaluate (scope.comap f)).2) := by
  rw [evaluate, view_map, View.evaluate_map, evaluate, map, Array.size_map]

end Reckoner
