import Reckoner.Proofs.Evaluation.Exact

/-!
Evaluation does not look into values. It builds values from literals, combines them with the
operators and takes them from the scope; so where values of two types correspond to each other in
literals, under every operation and in the scopes, a line does corresponding things. Only the names
on the evaluated side have to have values that correspond, as no other name is looked up. -/

namespace Reckoner

variable {α V W E F : Type}

/-! ### What corresponds -/

/-- Both are values that correspond, or both are failures that do. -/
inductive Corresponds (Q : E → F → Prop) (R : V → W → Prop) : Except E V → Except F W → Prop where
  | ok {v : V} {w : W} (h : R v w) : Corresponds Q R (.ok v) (.ok w)
  | error {e : E} {f : F} (h : Q e f) : Corresponds Q R (.error e) (.error f)

/-- Failures of one kind in one place, whose contents correspond if they are errors of values and
are the same otherwise. -/
inductive EvalError.Corresponds (Q : E → F → Prop) : EvalError E → EvalError F → Prop where
  | same (e : EvalError Empty) : Corresponds Q (e.map nofun) (e.map nofun)
  | arithmetic {e : E} {f : F} (h : Q e f) (span : Span) :
      Corresponds Q (.arithmetic e span) (.arithmetic f span)

/-- Outcomes of one kind, for the same name, with values that correspond. -/
inductive Outcome.Corresponds (R : V → W → Prop) : Outcome α V → Outcome α W → Prop where
  | assigned (name : α) {v : V} {w : W} (h : R v w) : Corresponds R (.assigned name v)
      (.assigned name w)
  | returned {v : V} {w : W} (h : R v w) : Corresponds R (.returned v) (.returned w)

namespace Corresponds

variable {Q : E → F → Prop} {R : V → W → Prop}

/-- A failure that is none of values corresponds to itself. -/
theorem same (e : EvalError Empty) :
    Corresponds (EvalError.Corresponds Q) R (.error (e.map nofun)) (.error (e.map nofun)) :=
  .error (.same e)

theorem unsupported (shape : Unsupported) (span : Span) :
    Corresponds (EvalError.Corresponds Q) R (.error (.unsupported shape span))
      (.error (.unsupported shape span)) :=
  same (.unsupported shape span)

theorem fail (shape : Unsupported) (v : View α) :
    Corresponds (EvalError.Corresponds Q) R (.error (v.fail shape)) (.error (v.fail shape)) := by
  cases v with
  | gap id => exact same (.gap id)
  | node _ _ span _ => exact unsupported shape span

theorem isToken (p : TokenKind α → Bool) (v : View α) :
    Corresponds (EvalError.Corresponds Q) Eq (v.isToken p) (v.isToken p) := by
  cases v with
  | gap id => exact same (.gap id)
  | node _ kind _ _ => cases kind <;> exact .ok rfl

theorem enclosed (opening closing : View α) :
    Corresponds (EvalError.Corresponds Q) Eq (View.enclosed opening closing)
      (View.enclosed opening closing) := by
  cases opening with
  | gap id => exact same (.gap id)
  | node _ kind _ _ =>
    cases kind with
    | token k =>
      cases k with
      | lparen => exact isToken _ closing
      | _ => exact .ok rfl
    | _ => exact .ok rfl

theorem operatorIn (rule : Rule) (v : View α) :
    Corresponds (EvalError.Corresponds Q) Eq (View.operatorIn rule v) (View.operatorIn rule v) := by
  cases v with
  | gap id => exact same (.gap id)
  | node _ kind span _ =>
    rw [View.operatorIn, View.operatorIn]
    cases (View.operator? kind).filter (View.foldsWith rule) with
    | none => exact unsupported _ span
    | some op => exact .ok rfl

theorem assignee (text : α → String) (v : View α) :
    Corresponds (EvalError.Corresponds Q) Eq (v.assignee text) (v.assignee text) := by
  rw [View.assignee, View.assignee]
  cases v.firstGap? with
  | some id => exact same (.gap id)
  | none =>
    cases v.soleVariable? with
    | some name => exact .ok rfl
    | none => exact fail _ v

end Corresponds

/-- Values of two types that correspond, so that literals do, and operations on values that
correspond give values or errors that correspond. -/
structure Correspondence (V W : Type) {E F : Type} [Value V E] [Value W F] where
  values : V → W → Prop
  faults : E → F → Prop
  ofInteger : ∀ n, values (Value.ofInteger n) (Value.ofInteger n)
  apply : ∀ op {v v' : V} {w w' : W}, values v w → values v' w' →
    Corresponds faults values (Value.apply op v v') (Value.apply op w w')

/-! ### Names that are looked up -/

namespace View

mutual

/-- The names of the variables in a view. -/
def names : View α → List α
  | .gap _ => []
  | .node _ (.variable a) _ children => a :: namesAll children
  | .node _ (.rule _) _ children | .node _ (.scientific _) _ children
  | .node _ (.token _) _ children => namesAll children

/-- The names of the variables in views, one after the other. -/
def namesAll : List (View α) → List α
  | [] => []
  | v :: vs => names v ++ namesAll vs

end

/-- The nodes right below a node. -/
def children : View α → List (View α)
  | .gap _ => []
  | .node _ _ _ children => children

/-- The names that a line looks up: those on the side that is evaluated, which comes last. -/
def reads (v : View α) : List α := (v.children.getLast?.map names).getD []

end View

namespace Correspondence

variable [Value V E] [Value W F] (c : Correspondence V W)

/-- Results of evaluation that correspond. -/
abbrev Results : Except (EvalError E) V → Except (EvalError F) W → Prop :=
  Corresponds (EvalError.Corresponds c.faults) c.values

/-- Scopes with the same texts, in which each of some names has values that correspond. -/
structure Scopes (names : List α) (s : Scope α V) (s' : Scope α W) : Prop where
  text : s.text = s'.text
  value? : ∀ a ∈ names, Option.Rel c.values (s.value? a) (s'.value? a)

variable {c} {s : Scope α V} {s' : Scope α W}

theorem Scopes.mono {names names' : List α}
    (h : c.Scopes names s s') (hsub : names' ⊆ names) : c.Scopes names' s s' :=
  ⟨h.text, fun a ha => h.value? a (hsub ha)⟩

/-- Folding a chain starts from values of its first operand that correspond. -/
theorem reduce_folds {rule : Rule} (hrule : View.Folds rule) (span : Span) {first : View α}
    (rest : List (View α)) {log : Log V} {log' : Log W}
    (hfirst : c.Results (first.operand s rule log).1 (first.operand s' rule log').1)
    (hfold : ∀ {acc : V} {acc' : W} (log : Log V) (log' : Log W), c.values acc acc' →
      c.Results (View.fold s rule (first.span?.getD .none) acc rest log).1
        (View.fold s' rule (first.span?.getD .none) acc' rest log').1) :
    c.Results (View.reduce s rule span (first :: rest) log).1
      (View.reduce s' rule span (first :: rest) log').1 := by
  rw [View.reduce_folds s hrule, View.reduce_folds s' hrule]
  generalize first.operand s rule log = x at hfirst ⊢
  generalize first.operand s' rule log' = y at hfirst ⊢
  rcases x with ⟨x, log⟩
  rcases y with ⟨y, log'⟩
  cases hfirst with
  | error h => exact .error h
  | ok hacc =>
    dsimp only
    split
    · exact .fail _ _
    · exact hfold log log' hacc

open View in
mutual

theorem operand (rule : Rule) : ∀ (v : View α) (log : Log V) (log' : Log W),
    c.Scopes v.names s s' → c.Results (v.operand s rule log).1 (v.operand s' rule log').1
  | .gap id, _, _, _ => .same (.gap id)
  | .node _ (.token k) span _, _, _, _ => .unsupported (.tokenAsOperand rule k.describe) span
  | .node id (.scientific a) span _, _, _, h => by
    rw [View.operand, View.operand, h.text]
    cases Integer.ofText? (s'.text a) with
    | none => exact .same (.literal (s'.text a) span)
    | some n => exact .ok (c.ofInteger n)
  | .node id (.variable a) span children, _, _, h => by
    have ha := h.value? a (by rw [names]; exact List.mem_cons_self)
    rw [View.operand, View.operand, h.text]
    cases hs : s.value? a with
    | none =>
      rw [hs] at ha
      cases hs' : s'.value? a with
      | none => exact .same (.unresolved (s'.text a) span)
      | some w => rw [hs'] at ha; cases ha
    | some v =>
      rw [hs] at ha
      cases hs' : s'.value? a with
      | none => rw [hs'] at ha; cases ha
      | some w =>
        rw [hs'] at ha
        cases ha with
        | some h => exact .ok h
  | .node id (.rule r) span children, log, log', h => by
    have hr := reduce r span children log log' h
    rw [View.operand, View.operand]
    generalize View.reduce s r span children log = x at hr ⊢
    generalize View.reduce s' r span children log' = y at hr ⊢
    rcases x with ⟨x, _⟩
    rcases y with ⟨y, _⟩
    cases hr with
    | ok h => exact .ok h
    | error h => exact .error h

theorem reduce (rule : Rule) (span : Span) : ∀ (children : List (View α)) (log : Log V)
    (log' : Log W), c.Scopes (namesAll children) s s' →
    c.Results (View.reduce s rule span children log).1 (View.reduce s' rule span children log').1
  | [], _, _, _ => by cases rule <;> exact .unsupported _ span
  | first :: rest, log, log', h => by
    have hfirst := h.mono (List.subset_append_left (names first) (namesAll rest))
    have hrest := h.mono (List.subset_append_right (names first) (namesAll rest))
    cases rule with
    | equation => exact .unsupported _ span
    | expression =>
      exact reduce_folds (.inl rfl) span rest (operand .expression first log log' hfirst)
        fun log log' hacc => fold .expression _ rest log log' hrest hacc
    | term =>
      exact reduce_folds (.inr rfl) span rest (operand .term first log log' hfirst)
        fun log log' hacc => fold .term _ rest log log' hrest hacc
    | factor | signedAtom =>
      cases rest with
      | nil => exact operand _ first log log' hfirst
      | cons => exact .unsupported _ span
    | atom =>
      match rest with
      | [] => exact operand _ first log log' hfirst
      | [_] => exact .unsupported _ span
      | [inner, closing] =>
        have hparens : Corresponds (EvalError.Corresponds c.faults) Eq _ _ :=
          .enclosed first closing
        have hv := operand .atom inner log log'
          (hrest.mono (List.subset_append_left inner.names (namesAll [closing])))
        rw [View.reduce, View.reduce]
        generalize View.enclosed (E := E) first closing = x at hparens ⊢
        generalize View.enclosed (E := F) first closing = y at hparens ⊢
        cases hparens with
        | error h => exact .error h
        | @ok b _ h =>
          subst h
          cases b with
          | true => exact hv
          | false => exact .unsupported _ span
      | _ :: _ :: _ :: _ => exact .unsupported _ span

theorem fold (rule : Rule) (first : Span) : ∀ (vs : List (View α)) {acc : V} {acc' : W}
    (log : Log V) (log' : Log W), c.Scopes (namesAll vs) s s' → c.values acc acc' →
    c.Results (View.fold s rule first acc vs log).1 (View.fold s' rule first acc' vs log').1
  | [], _, _, _, _, _, hacc => .ok hacc
  | [_], _, _, _, _, _, hacc => .ok hacc
  | op :: right :: rest, acc, acc', log, log', h, hacc => by
    have hright := h.mono (List.subset_append_of_subset_right op.names
      (List.subset_append_left right.names (namesAll rest)))
    have hrest := h.mono (List.subset_append_of_subset_right op.names
      (List.subset_append_right right.names (namesAll rest)))
    have hop : Corresponds (EvalError.Corresponds c.faults) Eq _ _ := .operatorIn rule op
    have hv := operand rule right log log' hright
    rw [View.fold, View.fold]
    generalize View.operatorIn (E := E) rule op = x at hop ⊢
    generalize View.operatorIn (E := F) rule op = y at hop ⊢
    generalize View.operand s rule right log = z at hv ⊢
    generalize View.operand s' rule right log' = z' at hv ⊢
    rcases z with ⟨z, log⟩
    rcases z' with ⟨z', log'⟩
    cases hop with
    | error h => exact .error h
    | @ok o _ h =>
      subst h
      cases hv with
      | error h => exact .error h
      | @ok v w h =>
        dsimp only
        have happly := c.apply o hacc h
        generalize Value.apply o acc v = x at happly ⊢
        generalize Value.apply o acc' w = y at happly ⊢
        cases happly with
        | error h => exact .error (.arithmetic h _)
        | ok h => exact fold rule first rest log log' hrest h

end

/-! ### Lines -/

/-- Results of lines that correspond. -/
abbrev Outcomes (c : Correspondence V W) :
    Except (EvalError E) (Outcome α V) → Except (EvalError F) (Outcome α W) → Prop :=
  Corresponds (EvalError.Corresponds c.faults) (Outcome.Corresponds c.values)

theorem concluding {value : View α} (h : c.Scopes value.names s s') (log : Log V) (log' : Log W)
    {next : V → Log V → Outcome α V × Log V} {next' : W → Log W → Outcome α W × Log W}
    (hnext : ∀ {v w} log log', c.values v w →
      Outcome.Corresponds c.values (next v log).1 (next' w log').1) :
    c.Outcomes (View.concluding s value log next).1 (View.concluding s' value log' next').1 := by
  have hv := operand .equation value log log' h
  rw [View.concluding, View.concluding]
  generalize value.operand s .equation log = x at hv ⊢
  generalize value.operand s' .equation log' = y at hv ⊢
  rcases x with ⟨x, log⟩
  rcases y with ⟨y, log'⟩
  cases hv with
  | error h => exact .error h
  | ok h => exact .ok (hnext log log' h)

theorem evaluate_return {id : Nat} {span : Span} {keyword value : View α}
    (h : c.Scopes value.names s s') (log : Log V) (log' : Log W) :
    let v : View α := .node id (.rule .equation) span [keyword, value]
    c.Outcomes (v.evaluate s log).1 (v.evaluate s' log').1 := by
  cases keyword with
  | gap id => exact .same (.gap id)
  | node _ kind _ _ =>
    cases kind with
    | token k =>
      cases k with
      | ret => exact concluding h log log' fun _ _ h => .returned h
      | _ => exact .unsupported _ span
    | _ => exact .unsupported _ span

theorem evaluate_assignment {id : Nat} {span : Span} {target eq value : View α}
    (h : c.Scopes value.names s s') (log : Log V) (log' : Log W) :
    let v : View α := .node id (.rule .equation) span [target, eq, value]
    c.Outcomes (v.evaluate s log).1 (v.evaluate s' log').1 := by
  cases eq with
  | gap id => exact .same (.gap id)
  | node _ kind _ _ =>
    cases kind with
    | token k =>
      cases k with
      | eq =>
        have htarget : Corresponds (EvalError.Corresponds c.faults) Eq _ _ :=
          .assignee s'.text target
        dsimp only
        rw [View.evaluate, View.evaluate, h.text]
        generalize target.assignee (E := E) s'.text = z at htarget ⊢
        generalize target.assignee (E := F) s'.text = z' at htarget ⊢
        cases htarget with
        | error h => exact .error h
        | ok hname =>
          subst hname
          exact concluding h log log' fun _ _ h => .assigned _ h
      | _ => exact .unsupported _ span
    | _ => exact .unsupported _ span

/-- Lines do corresponding things where the names that they look up have values that correspond. -/
theorem evaluate (v : View α) (h : c.Scopes v.reads s s') (log : Log V) (log' : Log W) :
    c.Outcomes (v.evaluate s log).1 (v.evaluate s' log').1 := by
  match v with
  | .gap id => exact .same (.gap id)
  | .node id (.rule .equation) span children =>
    match children with
    | [] | [_] | _ :: _ :: _ :: _ :: _ => exact .unsupported _ span
    | [keyword, value] => exact evaluate_return h log log'
    | [target, eq, value] => exact evaluate_assignment h log log'
  | .node _ (.rule .expression) span _ | .node _ (.rule .term) span _
  | .node _ (.rule .factor) span _ | .node _ (.rule .signedAtom) span _
  | .node _ (.rule .atom) span _ | .node _ (.scientific _) span _
  | .node _ (.variable _) span _ | .node _ (.token _) span _ => exact .unsupported _ span

end Correspondence

/-- The names that a line looks up. -/
def Tree.reads (t : Tree α) : List α := (t.view t.root).reads

theorem Correspondence.evaluate_tree [Value V E] [Value W F] (c : Correspondence V W)
    {s : Scope α V} {s' : Scope α W} (t : Tree α) (h : c.Scopes t.reads s s') :
    c.Outcomes (t.evaluate s).1 (t.evaluate s').1 :=
  Correspondence.evaluate _ h [] []

/-! ### Values of one type -/

/-- Equal values have equal literals and operations. -/
def Correspondence.refl (V : Type) {E : Type} [Value V E] : Correspondence V V where
  values := Eq
  faults := Eq
  ofInteger _ := rfl
  apply op v v' w w' hv hw := by
    subst hv hw
    cases Value.apply op v v' with
    | error e => exact .error rfl
    | ok x => exact .ok rfl

theorem Corresponds.eq {Q : E → E → Prop} {R : V → V → Prop} {x y : Except E V}
    (h : Corresponds Q R x y) (hQ : ∀ {e f}, Q e f → e = f) (hR : ∀ {v w}, R v w → v = w) :
    x = y := by
  cases h with
  | ok h => rw [hR h]
  | error h => rw [hQ h]

theorem EvalError.Corresponds.eq {e f : EvalError E} (h : Corresponds Eq e f) : e = f := by
  cases h with
  | same => rfl
  | arithmetic h => rw [h]

theorem Outcome.Corresponds.eq {o o' : Outcome α V} (h : Corresponds Eq o o') : o = o' := by
  cases h with
  | assigned name h => rw [h]
  | returned h => rw [h]

theorem rel_eq_iff {x y : Option V} : Option.Rel Eq x y ↔ x = y := by
  constructor
  · rintro (h | -)
    · rw [h]
    · rfl
  · rintro rfl
    cases x with
    | none => exact .none
    | some v => exact .some rfl

end Reckoner
