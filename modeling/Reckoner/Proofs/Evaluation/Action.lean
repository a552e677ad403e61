import Reckoner.Proofs.Evaluation.Compositional
import Reckoner.Proofs.Tree.Postorder

/-!
What the value of a node comes from. Each node has an action, which makes its value from the values
of its operands. Evaluation walks through the nodes with values in post-order: for an initial part
of them it records what their actions give, and it ends either behind all of them or where an action
fails. The statements are about any assignment of values to indices that agrees with what was
recorded, so that they need not follow the values from where they are recorded to where they are
used. -/

namespace Reckoner

variable {α V E : Type} [Value V E]

/-! ### Actions -/

namespace View

/-- Applies operators to `acc`, the value of what starts at `first`, and to the values of the
operands behind, as long as these are there. -/
def foldValues (value? : Nat → Option V) (rule : Rule) (first : Span) (acc : V) :
    List (View α) → Option (Except (EvalError E) V)
  | [] => some (.ok acc)
  | [_] => none
  | op :: right :: rest =>
    match (operatorIn rule op : Except (EvalError E) Operator), value? right.index with
    | .ok o, some v =>
      match Value.apply o acc v with
      | .ok acc => foldValues value? rule first acc rest
      | .error e => some (.error (.arithmetic e (first.merge (right.span?.getD .none))))
    | _, _ => none

/-- What a rule makes of the values of its operands. -/
def ruleAction (value? : Nat → Option V) (rule : Rule) (span : Span) (children : List (View α)) :
    Option (Except (EvalError E) V) :=
  match rule, children with
  | .equation, [_, value] => (value? value.index).map .ok
  | .expression, first :: rest | .term, first :: rest =>
    (value? first.index).bind fun v =>
      foldValues value? rule (first.span?.getD .none) v rest
  | .factor, [only] | .signedAtom, [only] | .atom, [only] => (value? only.index).map .ok
  | .atom, [_, inner, _] => (value? inner.index).map .ok
  | .factor, _ :: _ :: _ => some (.error (.unsupported .exponentiation span))
  | .signedAtom, _ :: _ :: _ => some (.error (.unsupported .signPrefix span))
  | _, _ => none

/-- The action of a node: its value, or why it has none, from the values of its operands. There is
no answer where the value of an operand is missing. -/
def action (scope : Scope α V) (value? : Nat → Option V) :
    View α → Option (Except (EvalError E) V)
  | .node _ (.scientific a) span _ =>
    match Integer.ofText? (scope.text a) with
    | some n => some (.ok (Value.ofInteger n))
    | none => some (.error (.literal (scope.text a) span))
  | .node _ (.variable a) span _ =>
    match scope.value? a with
    | some v => some (.ok v)
    | none => some (.error (.unresolved (scope.text a) span))
  | .node _ (.rule rule) span children => ruleAction value? rule span children
  | _ => none

/-- One action and then another, which starts from the value of the first. -/
def andThen (act : Option (Except (EvalError E) V)) (next : V → Option (Except (EvalError E) V)) :
    Option (Except (EvalError E) V) :=
  match act with
  | some (.ok v) => next v
  | act => act

variable (value? : Nat → Option V)

theorem ruleAction_only {rule : Rule} (hrule : rule ≠ .equation) (span : Span) (only : View α) :
    (ruleAction value? rule span [only] : Option (Except (EvalError E) V))
      = (value? only.index).map .ok := by
  cases rule with
  | equation => exact absurd rfl hrule
  | expression | term => cases h : value? only.index <;> simp [ruleAction, foldValues, h]
  | factor | signedAtom | atom => rfl

theorem foldValues_append (rule : Rule) (first : Span) :
    ∀ (xs ys : List (View α)) (acc : V), xs.length % 2 = 0 →
      (foldValues value? rule first acc (xs ++ ys) : Option (Except (EvalError E) V))
        = andThen (foldValues value? rule first acc xs)
            fun acc => foldValues value? rule first acc ys
  | [], ys, acc, _ => by simp [foldValues, andThen]
  | [x], ys, acc, h => by simp at h
  | op :: right :: rest, ys, acc, h => by
    have hrest : rest.length % 2 = 0 := by
      simp only [List.length_cons] at h
      omega
    simp only [List.cons_append, foldValues]
    cases (operatorIn rule op : Except (EvalError E) Operator) with
    | error e => simp [andThen]
    | ok o =>
      cases value? right.index with
      | none => simp [andThen]
      | some v =>
        simp only
        cases Value.apply o acc v with
        | error e => rfl
        | ok acc => exact foldValues_append rule first rest ys acc hrest

/-- One more operator and operand behind a chain start from the value of the chain. -/
theorem ruleAction_link {rule : Rule} (hrule : Folds rule) (span : Span) (first : View α)
    {rest : List (View α)} (hrest : rest.length % 2 = 0) (op right : View α) :
    (ruleAction value? rule span (first :: (rest ++ [op, right])) : Option (Except (EvalError E) V))
      = andThen (ruleAction value? rule span (first :: rest))
          fun acc => foldValues value? rule (first.span?.getD .none) acc [op, right] := by
  rcases hrule with rfl | rfl <;> cases h : value? first.index <;>
    simp [ruleAction, h, andThen, foldValues_append value? _ _ rest _ _ hrest]

end View

/-! ### Walks -/

open View Phrase

section Walks

variable (scope : Scope α V) (value? : Nat → Option V)

/-- The values are those of a log, where it has any. -/
def Agrees (log : Log V) : Prop := ∀ e ∈ log, value? e.1 = some e.2

/-- The value of a node is the one that its action gives. -/
def Settled (w : View α) : Prop :=
  ∃ v, value? w.index = some v ∧ w.action scope value? = some (.ok v)

/-- Evaluating something with the action `act` is a walk through the nodes `vs`: one after the other
they get the values that their actions give. In the end there is the value that `act` gives, or an
error of `act` or of one of the nodes that have no values yet. -/
inductive Walks (act : Option (Except (EvalError E) V)) (vs : List (View α)) (log : Log V) :
    Except (EvalError E) V × Log V → Prop where
  | ok {v : V} (es : Log V) (hids : es.map Prod.fst = (vs.map index).reverse)
      (h : Agrees value? es → (∀ w ∈ vs, Settled scope value? w) ∧ act = some (.ok v)) :
      Walks act vs log (.ok v, es ++ log)
  | error {e : EvalError E} (es : Log V) (done rest : List (View α)) (hvs : vs = done ++ rest)
      (hids : es.map Prod.fst = (done.map index).reverse)
      (h : Agrees value? es → (∀ w ∈ done, Settled scope value? w) ∧
        (act = some (.error e) ∨ ∃ w ∈ rest, w.action scope value? = some (.error e))) :
      Walks act vs log (.error e, es ++ log)

variable {scope value?}

theorem agrees_append {xs ys : Log V} :
    Agrees value? (xs ++ ys) ↔ Agrees value? xs ∧ Agrees value? ys := by
  simp only [Agrees, List.forall_mem_append]

namespace Walks

variable {act act' : Option (Except (EvalError E) V)} {vs us : List (View α)} {log : Log V}
  {result result' : Except (EvalError E) V × Log V}

/-- What is refused before anything below it is looked at. -/
theorem refused {e : EvalError E} (h : act = some (.error e)) (vs : List (View α)) (log : Log V) :
    Walks scope value? act vs log (.error e, log) :=
  .error [] [] vs rfl rfl fun _ => ⟨by simp, .inl h⟩

/-- What has no nodes below it. -/
theorem now {x : Except (EvalError E) V} (h : act = some x) (log : Log V) :
    Walks scope value? act [] log (x, log) := by
  cases x with
  | ok v => exact .ok [] rfl fun _ => ⟨by simp, h⟩
  | error e => exact refused h [] log

/-- A walk, and another one behind it if it ends with a value. -/
theorem bind (h : Walks scope value? act vs log result) (next : V → Option (Except (EvalError E) V))
    (hact : act' = andThen act next)
    (hok : ∀ v log', result = (.ok v, log') → Walks scope value? (next v) us log' result')
    (herror : ∀ e log', result = (.error e, log') → result' = (.error e, log')) :
    Walks scope value? act' (vs ++ us) log result' := by
  cases h with
  | @error e es done rest hvs hids hwalk =>
    obtain rfl := herror e _ rfl
    refine .error es done (rest ++ us) (by rw [hvs, List.append_assoc]) hids fun hes => ?_
    obtain ⟨hdone, hact' | ⟨w, hw, hfail⟩⟩ := hwalk hes
    · exact ⟨hdone, .inl (by rw [hact, hact']; rfl)⟩
    · exact ⟨hdone, .inr ⟨w, List.mem_append_left us hw, hfail⟩⟩
  | @ok v es hids hwalk =>
    have hfront : ∀ es', Agrees value? (es' ++ es) → Agrees value? es' ∧
        (∀ w ∈ vs, Settled scope value? w) ∧ act' = next v := by
      intro es' h
      obtain ⟨hes', hes⟩ := agrees_append.1 h
      obtain ⟨hsettled, hv⟩ := hwalk hes
      exact ⟨hes', hsettled, by rw [hact, hv]; rfl⟩
    cases hok v _ rfl with
    | error es' done rest hvs hids' hwalk' =>
      rw [← List.append_assoc]
      refine .error (es' ++ es) (vs ++ done) rest (by rw [hvs, List.append_assoc]) ?_ fun h => ?_
      · simp [hids, hids']
      · obtain ⟨hes', hsettled, rfl⟩ := hfront es' h
        exact ⟨List.forall_mem_append.2 ⟨hsettled, (hwalk' hes').1⟩, (hwalk' hes').2⟩
    | ok es' hids' hwalk' =>
      rw [← List.append_assoc]
      refine .ok (es' ++ es) (by simp [hids, hids']) fun h => ?_
      obtain ⟨hes', hsettled, rfl⟩ := hfront es' h
      exact ⟨List.forall_mem_append.2 ⟨hsettled, (hwalk' hes').1⟩, (hwalk' hes').2⟩

/-- A node whose own value is recorded behind the values of the nodes below it. -/
theorem record {w : View α} (h : Walks scope value? (w.action scope value?) vs log result)
    (hok : ∀ v log', result = (.ok v, log') → result' = (.ok v, (w.index, v) :: log'))
    (herror : ∀ e log', result = (.error e, log') → result' = (.error e, log')) :
    Walks scope value? ((value? w.index).map .ok) (vs ++ [w]) log result' := by
  cases h with
  | @error e es done rest hvs hids hwalk =>
    obtain rfl := herror e _ rfl
    refine .error es done (rest ++ [w]) (by rw [hvs, List.append_assoc]) hids fun hes => ?_
    obtain ⟨hdone, hact | ⟨u, hu, hfail⟩⟩ := hwalk hes
    · exact ⟨hdone, .inr ⟨w, List.mem_append_right rest List.mem_cons_self, hact⟩⟩
    · exact ⟨hdone, .inr ⟨u, List.mem_append_left [w] hu, hfail⟩⟩
  | @ok v es hids hwalk =>
    obtain rfl := hok v _ rfl
    refine .ok ((w.index, v) :: es) (by simp [hids]) fun h => ?_
    obtain ⟨hv, hes⟩ := List.forall_mem_cons.1 h
    obtain ⟨hvs, hact⟩ := hwalk hes
    refine ⟨List.forall_mem_append.2 ⟨hvs, ?_⟩, by rw [hv]; rfl⟩
    exact List.forall_mem_singleton.2 ⟨v, hv, hact⟩

/-- A node without operands. -/
theorem leaf {w : View α} {x : Except (EvalError E) V} (h : w.action scope value? = some x)
    (log : Log V) :
    Walks scope value? ((value? w.index).map .ok) [w] log
      (match x with
        | .ok v => (.ok v, (w.index, v) :: log)
        | .error e => (.error e, log)) := by
  refine Walks.record (.now h log) ?_ ?_
  · rintro v log' ⟨⟩
    rfl
  · rintro e log' ⟨⟩
    rfl

/-- A walk that ends with a value has been to all nodes. -/
theorem of_ok {v : V} (h : Walks scope value? act vs [] (.ok v, log)) :
    log.map Prod.fst = (vs.map index).reverse ∧
      (Agrees value? log → (∀ w ∈ vs, Settled scope value? w) ∧ act = some (.ok v)) := by
  cases h with
  | ok es hids hwalk => simpa only [List.append_nil] using ⟨hids, hwalk⟩

/-- A walk that ends with an error has been to the nodes in front of some node. -/
theorem of_error {e : EvalError E} (h : Walks scope value? act vs [] (.error e, log)) :
    ∃ done rest, vs = done ++ rest ∧ log.map Prod.fst = (done.map index).reverse ∧
      (Agrees value? log → (∀ w ∈ done, Settled scope value? w) ∧
        (act = some (.error e) ∨ ∃ w ∈ rest, w.action scope value? = some (.error e))) := by
  cases h with
  | error es done rest hvs hids hwalk =>
    exact ⟨done, rest, hvs, by simpa only [List.append_nil] using ⟨hids, hwalk⟩⟩

end Walks

namespace Derivation

variable {rule operand : Rule}

/-- An operand is walked through like its parts, and recorded behind what is below it. -/
theorem operand_walks {d : Derivation α rule} {n : Nat} {log : Log V}
    (h : ∀ span, Walks scope value? (ruleAction value? rule span (viewAllFrom n d.parts))
      (valuedAll (viewAllFrom n d.parts)) log (reduce scope rule span (viewAllFrom n d.parts) log))
    (outer : Rule) :
    Walks scope value? ((value? (d.phrase.viewFrom n).index).map .ok)
      (valuedAll [d.phrase.viewFrom n]) log
      (View.operand scope outer (d.phrase.viewFrom n) log) := by
  rw [phrase, viewFrom, valuedAll_node rfl, View.operand]
  refine Walks.record (h _) ?_ ?_
  · intro v log' hv
    rw [hv]
    rfl
  · intro e log' he
    rw [he]

/-- The operator and the operand behind a chain are walked through after it. -/
theorem pair_walks (hrule : Folds rule) {op : Token α} (hop : rule.joins op.kind = true)
    {right : View α} {log : Log V}
    (hright : Walks scope value? ((value? right.index).map .ok) (valuedAll [right]) log
      (View.operand scope rule right log)) (n : Nat) (first : Span) (acc : V) :
    Walks scope value? (foldValues value? rule first acc [(ofToken op).viewFrom n, right])
      (valuedAll [right]) log
      (fold scope rule first acc [(ofToken op).viewFrom n, right] log) := by
  obtain ⟨o, -, hop⟩ := operatorIn_ofToken (E := E) hrule hop
  rw [← List.append_nil (valuedAll [right])]
  refine hright.bind (fun v => some ((Value.apply o acc v).mapError
    (.arithmetic · (first.merge (right.span?.getD .none))))) ?_ ?_ ?_
  · rw [foldValues, hop]
    cases value? right.index with
    | none => rfl
    | some v => cases h : Value.apply o acc v <;> simp [andThen, foldValues, h, Except.mapError]
  · intro v log' hv
    rw [fold, hop, hv]
    cases h : Value.apply o acc v <;> simp only [fold, h, Except.mapError] <;> exact .now rfl log'
  · intro e log' he
    rw [fold, hop, he]

/-- Reducing the parts of a derivation walks through them. -/
theorem reduce_walks (d : Derivation α rule) (hrule : rule ≠ .equation) (span : Span) (n : Nat)
    (log : Log V) :
    Walks scope value? (ruleAction value? rule span (viewAllFrom n d.parts))
      (valuedAll (viewAllFrom n d.parts)) log
      (reduce scope rule span (viewAllFrom n d.parts) log) := by
  induction d generalizing span n log with
  | returned | assigned => exact absurd rfl hrule
  | first h d ih =>
    rw [parts, viewAllFrom, viewAllFrom, reduce_only scope hrule, ruleAction_only value? hrule]
    exact operand_walks (ih h.operand_ne · n log) _
  | @link rule operand h left op hop right ihl ihr =>
    obtain ⟨first, rest, hparts, hrest⟩ := left.parts_eq_cons h
    by_cases hfolds : Folds rule
    · -- the shorter chain is no node, so its walk only goes on with one more pair
      have hleft := ihl hrule span n log
      have hlength : (viewAllFrom (n + first.size) rest).length % 2 = 0 := by
        rwa [length_viewAllFrom]
      rw [parts, viewAllFrom_append, valuedAll_append]
      rw [hparts, viewAllFrom] at hleft ⊢
      simp only [viewAllFrom, List.cons_append]
      rw [reduce_link scope hfolds span span _ hlength, valuedAll_ofToken]
      refine hleft.bind _ (ruleAction_link value? hfolds span _ hlength _ _) ?_ ?_
      · intro acc log' hacc
        rw [hacc]
        exact pair_walks hfolds hop (operand_walks (ihr h.operand_ne · _ log') _) _ _ acc
      · intro e log' he
        rw [he]
    · obtain ⟨rfl, -⟩ := operator?_of_not_folds h hfolds hop
      rw [parts, hparts]
      cases rest with
      | nil => exact .refused rfl _ log
      | cons => exact .refused rfl _ log
  | signed sign hsign inner ih => exact .refused rfl _ log
  | unsigned atom ih =>
    rw [parts, viewAllFrom, viewAllFrom, reduce_only scope hrule, ruleAction_only value? hrule]
    exact operand_walks (ih (by decide) · n log) _
  | number text tokenSpan =>
    rw [parts, viewAllFrom, viewAllFrom, reduce_only scope hrule, ruleAction_only value? hrule,
      viewFrom, valuedAll_node rfl, View.operand]
    cases h : Integer.ofText? (scope.text text) with
    | none => exact .leaf (x := .error _) (by rw [action, h]) log
    | some k => exact .leaf (x := .ok _) (by rw [action, h]) log
  | ident name tokenSpan =>
    rw [parts, viewAllFrom, viewAllFrom, reduce_only scope hrule, ruleAction_only value? hrule,
      viewFrom, valuedAll_node rfl, View.operand]
    cases h : scope.value? name with
    | none => exact .leaf (x := .error _) (by rw [action, h]) log
    | some v => exact .leaf (x := .ok _) (by rw [action, h]) log
  | parens opening inner closing ih =>
    have hinner := operand_walks (ih (by decide) · (n + 1) log) .atom
    rw [phrase] at hinner
    simp only [parts, viewAllFrom, valuedAll_ofToken]
    rw [valuedAll_cons, valuedAll_ofToken, valuedAll_nil, List.append_nil]
    exact hinner

end Derivation

end Walks

end Reckoner
