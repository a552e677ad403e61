import Reckoner.Proofs.Evaluation.Places
import Reckoner.Proofs.Tree.Postorder
import Reckoner.Proofs.Tree.Storage

/-!
Walks through what a builder has stored. Whatever nodes it was asked for, as long as they are over
earlier ones, a walk from any of them comes to an end and looks at nothing that is not stored; that
goes for the text of a node, for dumps, and for evaluation, which records values for nodes of the
tree only. -/

namespace Reckoner

variable {α V E : Type}

/-- The view is what a walk through the storage comes by: each of its nodes is stored, with the
children that the view has below it. -/
inductive Storage.Shows (s : Storage α) : View α → Prop where
  | node {id : Nat} {kind : NodeKind α} {span : Span} {children : List (View α)}
      (hnode : s.node? id = some ⟨kind, span, children.map View.index⟩)
      (hchildren : ∀ v ∈ children, Shows s v) : Shows s (.node id kind span children)

namespace Storage

variable {s : Storage α} {a : Arena α} {v : View α} {n : Nat}

theorem Shows.placed (h : s.Shows v) : v.Placed fun _ => True := by
  induction h with
  | node _ _ ih => exact .node trivial ih

theorem Shows.index_lt (h : s.Shows v) : v.index < s.nodes.size := by
  rcases h with ⟨hnode, -⟩
  obtain ⟨r, hstored, -⟩ := node?_eq_some_iff.1 hnode
  exact (Array.getElem?_eq_some_iff.1 hstored).1

/-- A walk may go on for as many nodes as stand in front of its first one, and needs no more. -/
theorem Holds.shows_view (h : s.Holds a) (hfirst : a.ChildrenFirst) : ∀ (depth : Nat) {id : Nat},
    id < a.size → id < depth → s.Shows (a.view depth id) ∧ (a.view depth id).index = id
  | 0, id, _, hdepth => absurd hdepth (Nat.not_lt_zero id)
  | depth + 1, id, hid, hdepth => by
    have hnode : a[id]? = some a[id] := Array.getElem?_eq_getElem hid
    have hbelow : ∀ child ∈ a[id].children,
        s.Shows (a.view depth child) ∧ (a.view depth child).index = child := by
      intro child hchild
      have hlt := hfirst id a[id] hnode child hchild
      exact shows_view h hfirst depth (by omega) (by omega)
    have hids : (a[id].children.map (a.view depth)).map View.index = a[id].children := by
      rw [List.map_map]
      exact (List.map_congr_left fun child hchild => (hbelow child hchild).2).trans (List.map_id' _)
    rw [Arena.view, hnode]
    refine ⟨.node ?_ ?_, rfl⟩
    · rw [h.node?, hnode, hids]
    · intro v hv
      obtain ⟨child, hchild, rfl⟩ := List.mem_map.1 hv
      exact (hbelow child hchild).1

end Storage

/-! ### What is recorded -/

/-- All values are recorded for nodes that are stored. -/
def Log.Inside {V : Type} (s : Storage α) (log : Log V) : Prop := ∀ e ∈ log, e.1 < s.nodes.size

namespace View

variable [Value V E] (scope : Scope α V) {s : Storage α}

/-- Folding a chain records what is recorded for its first operand, and then for the others. -/
theorem inside_reduce_folds {rule : Rule} (hrule : Folds rule) (span : Span) {first : View α}
    {rest : List (View α)} {log : Log V} (hfirst : (operand scope rule first log).2.Inside s)
    (hfold : ∀ acc log, log.Inside s →
      (fold scope rule (first.span?.getD .none) acc rest log).2.Inside s) :
    (reduce scope rule span (first :: rest) log).2.Inside s := by
  rw [reduce_folds scope hrule]
  generalize operand scope rule first log = r at hfirst ⊢
  rcases r with ⟨e | acc, log⟩
  · exact hfirst
  · dsimp only
    split
    · exact hfirst
    · exact hfold acc log hfirst

mutual

theorem inside_operand (rule : Rule) : ∀ {v : View α}, s.Shows v → ∀ {log : Log V},
    log.Inside s → (operand scope rule v log).2.Inside s
  | .gap _, h, _, _ => by cases h
  | .node _ (.token _) _ _, _, _, hlog => hlog
  | .node _ (.scientific a) _ _, h, log, hlog => by
    rw [operand]
    cases Integer.ofText? (scope.text a) with
    | none => exact hlog
    | some n => exact List.forall_mem_cons.2 ⟨h.index_lt, hlog⟩
  | .node _ (.variable a) _ _, h, log, hlog => by
    rw [operand]
    cases scope.value? a with
    | none => exact hlog
    | some v => exact List.forall_mem_cons.2 ⟨h.index_lt, hlog⟩
  | .node _ (.rule r) span children, h, log, hlog => by
    have hid := h.index_lt
    rcases h with ⟨-, hchildren⟩
    have hreduce := inside_reduce r span hchildren hlog
    rw [operand]
    generalize reduce scope r span children log = result at hreduce ⊢
    rcases result with ⟨e | v, log'⟩
    · exact hreduce
    · exact List.forall_mem_cons.2 ⟨hid, hreduce⟩

theorem inside_reduce (rule : Rule) (span : Span) : ∀ {children : List (View α)},
    (∀ v ∈ children, s.Shows v) → ∀ {log : Log V}, log.Inside s →
      (reduce scope rule span children log).2.Inside s
  | [], _, _, hlog => by cases rule <;> exact hlog
  | first :: rest, h, log, hlog => by
    obtain ⟨hfirst, hrest⟩ := List.forall_mem_cons.1 h
    cases rule with
    | equation => exact hlog
    | expression =>
      exact inside_reduce_folds scope (.inl rfl) span (inside_operand _ hfirst hlog)
        fun acc _ hlog => inside_fold _ _ hrest acc hlog
    | term =>
      exact inside_reduce_folds scope (.inr rfl) span (inside_operand _ hfirst hlog)
        fun acc _ hlog => inside_fold _ _ hrest acc hlog
    | factor | signedAtom =>
      cases rest with
      | nil => exact inside_operand _ hfirst hlog
      | cons => exact hlog
    | atom =>
      match rest, hrest with
      | [], _ => exact inside_operand _ hfirst hlog
      | [_], _ | _ :: _ :: _ :: _, _ => exact hlog
      | [inner, closing], hrest =>
        obtain ⟨hinner, -⟩ := List.forall_mem_cons.1 hrest
        rw [reduce]
        split
        · exact inside_operand _ hinner hlog
        · exact hlog
        · exact hlog

theorem inside_fold (rule : Rule) (first : Span) : ∀ {vs : List (View α)},
    (∀ v ∈ vs, s.Shows v) → ∀ (acc : V) {log : Log V}, log.Inside s →
      (fold scope rule first acc vs log).2.Inside s
  | [], _, _, _, hlog | [_], _, _, _, hlog => hlog
  | op :: right :: rest, h, acc, log, hlog => by
    obtain ⟨-, h⟩ := List.forall_mem_cons.1 h
    obtain ⟨hright, hrest⟩ := List.forall_mem_cons.1 h
    have hoperand := inside_operand rule hright hlog
    rw [fold]
    split
    · exact hlog
    · generalize operand scope rule right log = result at hoperand ⊢
      rcases result with ⟨e | v, log'⟩
      · exact hoperand
      · dsimp only
        split
        · rename_i acc _
          exact inside_fold rule first hrest acc hoperand
        · exact hoperand

end

theorem inside_concluding {value : View α} (h : s.Shows value) {log : Log V} (hlog : log.Inside s)
    {next : V → Log V → Outcome α V × Log V}
    (hnext : ∀ v log, log.Inside s → (next v log).2.Inside s) :
    (concluding scope value log next).2.Inside s := by
  have hoperand := inside_operand scope .equation h hlog
  rw [concluding]
  generalize operand scope .equation value log = result at hoperand ⊢
  rcases result with ⟨e | v, log'⟩
  · exact hoperand
  · exact hnext v log' hoperand

/-- A line records values for stored nodes only. -/
theorem inside_evaluate {v : View α} (h : s.Shows v) {log : Log V} (hlog : log.Inside s) :
    (v.evaluate scope log).2.Inside s := by
  have hid := h.index_lt
  rcases h with @⟨_, kind, span, children, -, hchildren⟩
  cases kind with
  | rule rule =>
    cases rule with
    | equation =>
      match children, hchildren, hid with
      | [], _, _ | [_], _, _ | _ :: _ :: _ :: _ :: _, _, _ => exact hlog
      | [keyword, value], hchildren, hid =>
        obtain ⟨-, hvalue⟩ : s.Shows keyword ∧ s.Shows value := by simpa using hchildren
        rw [evaluate]
        split
        -- only a line that returns has its root recorded
        · exact inside_concluding scope hvalue hlog fun v log hlog =>
            List.forall_mem_cons.2 ⟨hid, hlog⟩
        · exact hlog
        · exact hlog
      | [target, sign, value], hchildren, _ =>
        obtain ⟨-, -, hvalue⟩ : s.Shows target ∧ s.Shows sign ∧ s.Shows value := by
          simpa using hchildren
        rw [evaluate]
        split
        · split
          · exact inside_concluding scope hvalue hlog fun v log hlog => hlog
          · exact hlog
        · exact hlog
        · exact hlog
    | _ => exact hlog
  | _ => exact hlog

end View

/-! ### Histories -/

/-- What a walk from a node of a stored tree gives: there is an end to it, each node that it comes
by is stored, and the text, the search for a gap and the one for a variable get to their ends. -/
structure Storage.WalksFrom (s : Storage α) (t : Tree α) (id : Nat) : Prop where
  shows : s.Shows (t.view id)
  index : (t.view id).index = id
  text : ∀ text, ∃ source, t.text? text id = some source
  suppressed : (t.view id).firstGap? = none
  target : ∀ (E : Type) text gap,
    ((t.view id).assignee text : Except (EvalError E) α) ≠ .error (.gap gap)

/-- What evaluating a stored tree does: it looks at nothing that is not stored, and records values
for nodes that its table has an entry for. -/
structure Tree.EvaluatesInside [Value V E] (t : Tree α) (scope : Scope α V) : Prop where
  result : ∀ gap, (t.evaluate scope).1 ≠ .error (.gap gap)
  recorded : ∀ e ∈ (t.evaluate scope).2.log, e.1 < (t.evaluate scope).2.size

/-- Trees that a builder made can be walked through safely. -/
theorem built_walks_inside {steps : List (BuildStep α)} {ids : List Nat} {s : Storage α}
    (h : Storage.Made steps ids s) :
    ids = List.range steps.length ∧
    (∀ id step, steps[id]? = some step →
      (∃ span, s.node? id = some ⟨step.kind, span, step.children⟩) ∧
        ∀ child ∈ step.children, child < id) ∧
    (∀ step : BuildStep α, (∀ child ∈ step.children, child ∈ ids) →
      if s.HasRoom step then ∃ s', s.build step = .ok (steps.length, s')
      else s.build step = .error .full) ∧
    ∃ a, Arena.buildAll? #[] steps = some a ∧ s.Holds a ∧ ∀ root ∈ ids,
      (∀ id ∈ ids, s.WalksFrom ⟨a, root⟩ id) ∧
      (∀ text, ∃ dump, (⟨a, root⟩ : Tree α).dump? text = some dump) ∧
      ∀ (V E : Type) [Value V E] (scope : Scope α V),
        (⟨a, root⟩ : Tree α).EvaluatesInside scope := by
  obtain ⟨hsize, hids⟩ := h.ids_eq
  obtain ⟨a, hbuild, hbuilt, hholds⟩ := h.holds
  have hwalk : ∀ root, ∀ id ∈ ids, s.Shows ((⟨a, root⟩ : Tree α).view id) ∧
      ((⟨a, root⟩ : Tree α).view id).index = id := by
    intro root id hid
    have hlt : id < a.size := by
      rw [← hholds.size, hsize]
      exact List.mem_range.1 (hids ▸ hid)
    exact hholds.shows_view hbuilt.childrenFirst a.size hlt hlt
  refine ⟨hids, fun id step hstep => h.node?_eq hstep, fun step hstep => ?_, a, hbuild, hholds,
    fun root hroot => ⟨fun id hid => ?_, fun text => ?_, fun V E _ scope => ⟨fun gap he => ?_, ?_⟩⟩⟩
  · rw [← hsize]
    exact Storage.build_of_stored (h.children_lt hstep)
  · obtain ⟨hshows, hindex⟩ := hwalk root id hid
    refine ⟨hshows, hindex, hshows.placed.exists_text, View.firstGap?_of_placed hshows.placed, ?_⟩
    intro E text gap he
    exact hshows.placed.assignee text _ he
  · exact (hwalk root root hroot).1.placed.exists_dump text
  · exact Tree.failsAt_evaluate ⟨trivial, fun _ _ => trivial⟩ (hwalk root root hroot).1.placed scope
      _ he
  · have hnil : Log.Inside s ([] : Log V) := nofun
    have hinside := View.inside_evaluate scope (hwalk root root hroot).1 hnil
    rwa [Log.Inside, hholds.size] at hinside

/-- A product whose two operands are one node. -/
theorem built_walks_inside_square : ∃ s : Storage String,
    Storage.Made [.leaf (.scientific "2") ⟨0, 1⟩, .leaf (.token .star) ⟨2, 3⟩,
      .node (.rule .term) [0, 1, 0]] [0, 1, 2] s ∧
    s.children = #[0, 1, 0] ∧ s.node? 2 = some ⟨.rule .term, ⟨0, 1⟩, [0, 1, 0]⟩ ∧
    ∃ a, s.Holds a ∧ ∀ id ∈ [0, 1, 2], s.WalksFrom ⟨a, 2⟩ id := by
  have hnumber : Storage.Made [.leaf (.scientific "2") ⟨0, 1⟩] [0] _ := .step .nothing nofun rfl
  have hsign : Storage.Made [.leaf (.scientific "2") ⟨0, 1⟩, .leaf (.token .star) ⟨2, 3⟩]
    [0, 1] _ := .step hnumber nofun rfl
  have hmade : Storage.Made [.leaf (.scientific "2") ⟨0, 1⟩, .leaf (.token .star) ⟨2, 3⟩,
    .node (.rule .term) [0, 1, 0]] [0, 1, 2] _ := .step hsign (by decide) rfl
  obtain ⟨-, -, -, a, -, hholds, hwalks⟩ := built_walks_inside hmade
  exact ⟨_, hmade, rfl, rfl, a, hholds, (hwalks 2 (by decide)).1⟩

end Reckoner
