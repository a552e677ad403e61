import Reckoner.Program
import Reckoner.Proofs.Evaluation.Action

/-!
The values of the nodes of a line. Each value is recorded once and comes from the values of the
operands; a line that returns leaves a value for each node of its tree that is no token, and one
that assigns for each such node of its right side. On an error, the nodes on the way from the root
to where it comes from have no values. -/

namespace Reckoner

open View Phrase

variable {α V E : Type}

/-! ### Looking up what was recorded -/

namespace Attributes

theorem size_slots (t : Attributes V) : t.slots.size = t.size := by
  obtain ⟨size, log⟩ := t
  induction log with
  | nil => simp [slots]
  | cons e log ih => simpa [slots] using ih

theorem get?_nil (size id : Nat) : (⟨size, []⟩ : Attributes V).get? id = none := by
  rw [get?, slots, List.foldr_nil, Array.getElem?_replicate]
  split <;> rfl

theorem get?_cons {size : Nat} {e : Nat × V} (he : e.1 < size) (log : Log V) (id : Nat) :
    (⟨size, e :: log⟩ : Attributes V).get? id
      = if e.1 = id then some e.2 else (⟨size, log⟩ : Attributes V).get? id := by
  have hsize : e.1 < (slots ⟨size, log⟩).size := by rwa [size_slots]
  show ((slots ⟨size, log⟩).setIfInBounds e.1 (some e.2))[id]?.join = _
  rw [Array.getElem?_setIfInBounds]
  simp only [hsize, if_true]
  split <;> rfl

/-- Where no index was recorded twice, all that was recorded can be looked up. -/
theorem get?_eq_some_iff {size : Nat} : ∀ {log : Log V}, (log.map Prod.fst).Nodup →
    (∀ e ∈ log, e.1 < size) → ∀ {id : Nat} {v : V},
      (⟨size, log⟩ : Attributes V).get? id = some v ↔ (id, v) ∈ log
  | [], _, _, id, v => by simp [get?_nil]
  | (i, u) :: log, hids, hsize, id, v => by
    obtain ⟨hi, hids⟩ := List.nodup_cons.1 hids
    obtain ⟨hlt, hsize⟩ := List.forall_mem_cons.1 hsize
    rw [get?_cons hlt, List.mem_cons, Prod.mk.injEq, ← get?_eq_some_iff hids hsize]
    split
    · rename_i heq
      obtain rfl : i = id := heq
      have hlater : (⟨size, log⟩ : Attributes V).get? i ≠ some v := fun hv =>
        hi (List.mem_map.2 ⟨(i, v), (get?_eq_some_iff hids hsize).1 hv, rfl⟩)
      simp [hlater, eq_comm]
    · rename_i hne
      have hne : id ≠ i := fun h => hne h.symm
      simp [hne]

end Attributes

/-! ### What is recorded for a tree -/

section Trees

variable [Value V E]

/-- Each value was recorded once, for a node of the tree, and is what the action of the node makes
of the values of its operands. -/
structure Attributes.Sound (t : Attributes V) (tree : Tree α) (scope : Scope α V) : Prop where
  once : (t.log.map Prod.fst).Nodup
  inside : ∀ e ∈ t.log, e.1 < tree.nodes.size
  action : ∀ id v, t.get? id = some v → (tree.view id).action scope t.get? = some (.ok v)

theorem Attributes.sound_nil (size : Nat) (tree : Tree α) (scope : Scope α V) :
    (⟨size, []⟩ : Attributes V).Sound tree scope :=
  ⟨.nil, by simp, by simp [get?_nil]⟩

/-- The nodes with values are those from `top` on down, other than tokens. -/
def Attributes.Covers (t : Attributes V) (tree : Tree α) (top : Nat) : Prop :=
  ∀ id, (t.get? id).isSome = true ↔ id ∈ tree.below top ∧ (tree.view id).hasValue = true

/-- What goes wrong at a node: its action fails, or it is the left side of an assignment and no
variable. -/
inductive Tree.StuckAt (tree : Tree α) (scope : Scope α V) (value? : Nat → Option V) (id : Nat)
    (e : EvalError E) : Prop where
  | action (h : (tree.view id).action scope value? = some (.error e))
  | target {span : Span} {target sign value : View α}
      (hroot : tree.view tree.root = .node tree.root (.rule .equation) span [target, sign, value])
      (hid : id = target.index) (h : target.assignee scope.text = .error e)

/-- Which nodes have values when a line has done this. If it returned, all nodes other than tokens
have, and the root the value that was returned; if it assigned, all such nodes of the right side
have, the top of it the value that was assigned, and neither the left side nor the root has any. If
it failed, neither the node where the error comes from nor any node above it has a value. -/
def Attributes.Accounts (t : Attributes V) (tree : Tree α) (scope : Scope α V) :
    Except (EvalError E) (Outcome α V) → Prop
  | .ok (.returned v) => t.get? tree.root = some v ∧ t.Covers tree tree.root
  | .ok (.assigned _ v) => ∃ span target sign value,
    tree.view tree.root = .node tree.root (.rule .equation) span [target, sign, value] ∧
    t.get? value.index = some v ∧ t.Covers tree value.index ∧
    (∀ id ∈ tree.below target.index, t.get? id = none) ∧ t.get? tree.root = none
  | .error e => ∃ id, tree.StuckAt scope t.get? id e ∧
    ∀ above, id ∈ tree.below above → t.get? above = none

/-- There is one value for each of the nodes `done` in the tree of a phrase, recorded in the order
in which a walk meets them. -/
structure Attributes.Logs (t : Attributes V) (p : Phrase α) (done : List (View α)) : Prop where
  size : t.size = p.toTree.nodes.size
  ids : t.log.map Prod.fst = (done.map index).reverse
  nodes : done.Sublist (valuedAll [p.viewFrom 0])

namespace Attributes.Logs

variable {t : Attributes V} {p : Phrase α} {done : List (View α)} {scope : Scope α V}
  (h : t.Logs p done)
include h

theorem mem_postorder {w : View α} (hw : w ∈ done) : w ∈ (p.viewFrom 0).postorder :=
  (mem_valued.1 (h.nodes.subset hw)).1

theorem once : (t.log.map Prod.fst).Nodup := by
  rw [h.ids, List.nodup_reverse]
  exact ((pairwise_valued p 0).sublist (h.nodes.map index)).imp Nat.ne_of_lt

theorem mem_ids_iff {id : Nat} : id ∈ t.log.map Prod.fst ↔ ∃ w ∈ done, w.index = id := by
  rw [h.ids, List.mem_reverse, List.mem_map]

theorem inside : ∀ e ∈ t.log, e.1 < p.toTree.nodes.size := by
  intro e he
  obtain ⟨w, hw, hindex⟩ := h.mem_ids_iff.1 (List.mem_map_of_mem he)
  have hlt := (index_of_mem_postorder (h.mem_postorder hw)).2
  rwa [hindex, Nat.zero_add, ← size_nodes_toTree] at hlt

theorem get?_eq_some_iff {id : Nat} {v : V} : t.get? id = some v ↔ (id, v) ∈ t.log :=
  Attributes.get?_eq_some_iff h.once (h.size ▸ h.inside)

theorem agrees : Agrees t.get? t.log := fun _ he => h.get?_eq_some_iff.2 he

theorem isSome_get?_iff {id : Nat} : (t.get? id).isSome = true ↔ ∃ w ∈ done, w.index = id := by
  rw [← h.mem_ids_iff, Option.isSome_iff_exists, List.mem_map]
  constructor
  · rintro ⟨v, hv⟩
    exact ⟨(id, v), h.get?_eq_some_iff.1 hv, rfl⟩
  · rintro ⟨⟨_, v⟩, he, rfl⟩
    exact ⟨v, h.get?_eq_some_iff.2 he⟩

theorem sound (hdone : ∀ w ∈ done, Settled scope t.get? w) : t.Sound p.toTree scope := by
  refine ⟨h.once, h.inside, fun id v hv => ?_⟩
  obtain ⟨w, hw, rfl⟩ := h.isSome_get?_iff.1 (Option.isSome_of_mem hv)
  obtain ⟨u, hu, hact⟩ := hdone w hw
  rw [view_index (h.mem_postorder hw), hact]
  exact congrArg (some ∘ Except.ok) (Option.some.inj (hu.symm.trans hv))

end Attributes.Logs

variable {t : Attributes V} {p : Phrase α} {top : View α} {scope : Scope α V}

/-- Below a node that is met stands what a walk from there on meets. -/
theorem mem_below_iff (htop : top.postorder.Sublist (p.viewFrom 0).postorder) {id : Nat} :
    id ∈ p.toTree.below top.index ↔ ∃ w ∈ top.postorder, w.index = id := by
  rw [Tree.below, view_index (htop.subset top.mem_postorder), List.mem_map]

theorem valuedAll_sublist (htop : top.postorder.Sublist (p.viewFrom 0).postorder) :
    (valuedAll [top]).Sublist (valuedAll [p.viewFrom 0]) := by
  simpa [valuedAll, postorderAll] using htop.filter hasValue

/-- A walk that ends with a value leaves values for all nodes that can have one. -/
theorem Walks.covers (hsize : t.size = p.toTree.nodes.size)
    (htop : top.postorder.Sublist (p.viewFrom 0).postorder) {v : V}
    (h : Walks scope t.get? ((t.get? top.index).map .ok) (valuedAll [top]) [] (.ok v, t.log)) :
    t.Sound p.toTree scope ∧ t.get? top.index = some v ∧ t.Covers p.toTree top.index := by
  obtain ⟨hids, hwalk⟩ := h.of_ok
  have hlogs : t.Logs p (valuedAll [top]) := ⟨hsize, hids, valuedAll_sublist htop⟩
  obtain ⟨hsettled, hact⟩ := hwalk hlogs.agrees
  refine ⟨hlogs.sound hsettled, ?_, fun id => ?_⟩
  · obtain ⟨u, hu, heq⟩ := Option.map_eq_some_iff.1 hact
    rwa [← Except.ok.inj heq]
  · rw [hlogs.isSome_get?_iff, mem_below_iff htop]
    simp only [valuedAll, postorderAll, List.append_nil, List.mem_filter]
    constructor
    · rintro ⟨w, ⟨hw, hvalue⟩, rfl⟩
      exact ⟨⟨w, hw, rfl⟩, by rwa [view_index (htop.subset hw)]⟩
    · rintro ⟨⟨w, hw, rfl⟩, hvalue⟩
      rw [view_index (htop.subset hw)] at hvalue
      exact ⟨w, ⟨hw, hvalue⟩, rfl⟩

/-- A walk that ends with an error leaves no values for the nodes above the one that failed. -/
theorem Walks.fails (hsize : t.size = p.toTree.nodes.size)
    (htop : top.postorder.Sublist (p.viewFrom 0).postorder) {e : EvalError E}
    (h : Walks scope t.get? ((t.get? top.index).map .ok) (valuedAll [top]) [] (.error e, t.log)) :
    t.Sound p.toTree scope ∧ ∃ id, p.toTree.StuckAt scope t.get? id e ∧
      ∀ above, id ∈ p.toTree.below above → t.get? above = none := by
  obtain ⟨done, rest, hvs, hids, hwalk⟩ := h.of_error
  have hsub : (done ++ rest).Sublist (valuedAll [p.viewFrom 0]) := hvs ▸ valuedAll_sublist htop
  have hlogs : t.Logs p done := ⟨hsize, hids, (List.sublist_append_left done rest).trans hsub⟩
  obtain ⟨hsettled, hact | ⟨w, hw, hfail⟩⟩ := hwalk hlogs.agrees
  · -- what was recorded for the top is no error
    obtain ⟨v, -, hv⟩ := Option.map_eq_some_iff.1 hact
    cases hv
  · have hmet := (mem_valued.1 (hsub.subset (List.mem_append_right done hw))).1
    rw [← view_index hmet] at hfail
    refine ⟨hlogs.sound hsettled, w.index, .action hfail, fun above hbelow => ?_⟩
    by_contra hrecorded
    obtain ⟨u, hu, rfl⟩ := hlogs.isSome_get?_iff.1 (Option.isSome_iff_ne_none.2 hrecorded)
    have hle : w.index ≤ u.index := by
      rw [Tree.below, view_index (hlogs.mem_postorder hu)] at hbelow
      obtain ⟨w', hw', heq⟩ := List.mem_map.1 hbelow
      exact heq ▸ index_le_of_mem (hlogs.mem_postorder hu) hw'
    have hlt : u.index < w.index := by
      have hpairwise := (pairwise_valued p 0).sublist (hsub.map index)
      rw [List.map_append] at hpairwise
      exact (List.pairwise_append.1 hpairwise).2.2 _ (List.mem_map_of_mem hu) _
        (List.mem_map_of_mem hw)
    omega

/-! ### Lines -/

namespace Derivation

theorem line_walks (value : Derivation α .expression) (scope : Scope α V) (value? : Nat → Option V)
    (n : Nat) :
    Walks scope value? ((value? (value.phrase.viewFrom n).index).map .ok)
      (valuedAll [value.phrase.viewFrom n]) []
      (View.operand scope .equation (value.phrase.viewFrom n) []) :=
  operand_walks (reduce_walks value (by decide) · n []) .equation

/-- A line that returns is walked through as a whole. -/
theorem evaluate_returned (keyword : Span) (value : Derivation α .expression)
    (scope : Scope α V) :
    let p := (returned keyword value).phrase
    ∃ (x : Except (EvalError E) V) (log : Log V),
      p.toTree.evaluate scope = (x.map .returned, ⟨p.toTree.nodes.size, log⟩) ∧
      ∀ value?, Walks scope value? ((value? (p.viewFrom 0).index).map .ok)
        (valuedAll [p.viewFrom 0]) [] (x, log) := by
  intro p
  have hline : (p.viewFrom 0).evaluate scope []
      = concluding scope (value.phrase.viewFrom (0 + 1)) []
          fun v log => (.returned v, ((p.viewFrom 0).index, v) :: log) := rfl
  have hvalued : valuedAll [p.viewFrom 0]
      = valuedAll [value.phrase.viewFrom (0 + 1)] ++ [p.viewFrom 0] := valuedAll_node rfl
  rw [Tree.evaluate, view_toTree, hline, concluding, hvalued]
  have hwalk := fun value? => line_walks value scope value? (0 + 1)
  generalize View.operand scope .equation (value.phrase.viewFrom (0 + 1)) [] = result at hwalk ⊢
  rcases result with ⟨e | v, log⟩
  · refine ⟨.error e, log, rfl, fun value? => (hwalk value?).record (w := p.viewFrom 0) ?_ ?_⟩
    · rintro _ _ ⟨⟩
    · rintro _ _ ⟨⟩
      rfl
  · refine ⟨.ok v, _, rfl, fun value? => (hwalk value?).record (w := p.viewFrom 0) ?_ ?_⟩
    · rintro _ _ ⟨⟩
      rfl
    · rintro _ _ ⟨⟩

/-- Of a line that assigns, the right side is walked through once the left one is a variable. -/
theorem evaluate_assigned_walks (target : Derivation α .expression) (sign : Span)
    (value : Derivation α .expression) (scope : Scope α V) {name : α}
    (hname : (target.phrase.viewFrom 0).assignee scope.text
      = (.ok name : Except (EvalError E) α)) :
    let p := (assigned target sign value).phrase
    ∃ (x : Except (EvalError E) V) (log : Log V),
      p.toTree.evaluate scope = (x.map (.assigned name), ⟨p.toTree.nodes.size, log⟩) ∧
      ∀ value?, Walks scope value?
        ((value? (value.phrase.viewFrom (0 + target.phrase.size + 1)).index).map .ok)
        (valuedAll [value.phrase.viewFrom (0 + target.phrase.size + 1)]) [] (x, log) := by
  intro p
  rw [Tree.evaluate, view_toTree, evaluate_assigned, hname]
  simp only [concluding]
  have hwalk := fun value? => line_walks value scope value? (0 + target.phrase.size + 1)
  generalize View.operand scope .equation
    (value.phrase.viewFrom (0 + target.phrase.size + 1)) [] = result at hwalk ⊢
  rcases result with ⟨e | v, log⟩
  · exact ⟨.error e, log, rfl, hwalk⟩
  · exact ⟨.ok v, log, rfl, hwalk⟩

/-- Of a line that assigns, nothing is walked through if the left one is no variable. -/
theorem evaluate_refused {target : Derivation α .expression} (sign : Span)
    (value : Derivation α .expression) (scope : Scope α V) {e : EvalError E}
    (hname : (target.phrase.viewFrom 0).assignee scope.text = .error e) :
    (assigned target sign value).phrase.toTree.evaluate scope
      = (.error e, ⟨(assigned target sign value).phrase.toTree.nodes.size, []⟩) := by
  rw [Tree.evaluate, view_toTree, evaluate_assigned, hname]

section Assigned

variable {target : Derivation α .expression} {sign : Span} {value : Derivation α .expression}

theorem viewFrom_assigned (target : Derivation α .expression) (sign : Span)
    (value : Derivation α .expression) : ∃ span keyword,
    (assigned target sign value).phrase.viewFrom 0
      = .node (assigned target sign value).phrase.toTree.root (.rule .equation) span
          [target.phrase.viewFrom 0, keyword,
            value.phrase.viewFrom (0 + target.phrase.size + 1)] :=
  ⟨_, _, by rw [root_toTree]; rfl⟩

theorem target_sublist : (target.phrase.viewFrom 0).postorder.Sublist
    ((assigned target sign value).phrase.viewFrom 0).postorder := by
  obtain ⟨span, keyword, hline⟩ := viewFrom_assigned target sign value
  rw [hline]
  exact postorder_sublist (by simp)

theorem value_sublist : (value.phrase.viewFrom (0 + target.phrase.size + 1)).postorder.Sublist
    ((assigned target sign value).phrase.viewFrom 0).postorder := by
  obtain ⟨span, keyword, hline⟩ := viewFrom_assigned target sign value
  rw [hline]
  exact postorder_sublist (by simp)

/-- Where only the right side of an assignment is covered, its left side and the root are not. -/
theorem unrecorded_of_covers {t : Attributes V}
    (h : t.Covers (assigned target sign value).phrase.toTree
      (value.phrase.viewFrom (0 + target.phrase.size + 1)).index) :
    (∀ id ∈ (assigned target sign value).phrase.toTree.below (target.phrase.viewFrom 0).index,
      t.get? id = none) ∧
      t.get? (assigned target sign value).phrase.toTree.root = none := by
  have hvalue : ∀ id, t.get? id ≠ none → 0 + target.phrase.size + 1 ≤ id ∧
      id < 0 + target.phrase.size + 1 + value.phrase.size := by
    intro id hid
    obtain ⟨w, hw, rfl⟩ := (mem_below_iff value_sublist).1
      ((h id).1 (Option.isSome_iff_ne_none.2 hid)).1
    exact index_of_mem_postorder hw
  constructor
  · intro id hid
    obtain ⟨w, hw, rfl⟩ := (mem_below_iff target_sublist).1 hid
    have htarget := (index_of_mem_postorder hw).2
    by_contra hrecorded
    have hle := (hvalue w.index hrecorded).1
    omega
  · by_contra hrecorded
    have hlt := (hvalue _ hrecorded).2
    have hroot : (assigned target sign value).phrase.toTree.root
        = 0 + target.phrase.size + 1 + value.phrase.size := by
      rw [root_toTree, index_viewFrom]
      simp [phrase, parts, size, sizeAll, ofToken]
      omega
    omega

/-- A line that assigns leaves values for its right side only, or for none of its nodes if the left
side is no variable. -/
theorem accounts_assigned (target : Derivation α .expression) (sign : Span)
    (value : Derivation α .expression) (scope : Scope α V) :
    let tree := (assigned target sign value).phrase.toTree
    (tree.evaluate scope).2.Sound tree scope ∧
      (tree.evaluate scope).2.Accounts tree scope (tree.evaluate scope).1 := by
  obtain ⟨span, keyword, hline⟩ := viewFrom_assigned target sign value
  rw [← view_toTree] at hline
  intro tree
  cases hname : ((target.phrase.viewFrom 0).assignee scope.text : Except (EvalError E) α) with
  | error e =>
    rw [evaluate_refused sign value scope hname]
    exact ⟨Attributes.sound_nil _ _ _, _, .target hline rfl hname,
      fun above _ => Attributes.get?_nil _ above⟩
  | ok name =>
    obtain ⟨x, log, heval, hwalk⟩ := evaluate_assigned_walks target sign value scope hname
    rw [heval]
    cases x with
    | ok v =>
      obtain ⟨hsound, hv, hcovers⟩ := (hwalk _).covers (t := ⟨_, log⟩) rfl value_sublist
      obtain ⟨htarget, hroot⟩ := unrecorded_of_covers hcovers
      exact ⟨hsound, span, _, _, _, hline, hv, hcovers, htarget, hroot⟩
    | error e => exact (hwalk _).fails rfl value_sublist

end Assigned

/-- A line that returns leaves values for all of its nodes. -/
theorem accounts_returned (keyword : Span) (value : Derivation α .expression)
    (scope : Scope α V) :
    let tree := (returned keyword value).phrase.toTree
    (tree.evaluate scope).2.Sound tree scope ∧
      (tree.evaluate scope).2.Accounts tree scope (tree.evaluate scope).1 := by
  intro tree
  obtain ⟨x, log, heval, hwalk⟩ := evaluate_returned keyword value scope
  rw [heval]
  cases x with
  | ok v =>
    have hreport := (hwalk _).covers (t := ⟨_, log⟩) rfl (List.Sublist.refl _)
    rwa [← root_toTree] at hreport
  | error e => exact (hwalk _).fails rfl (List.Sublist.refl _)

end Derivation

/-- The table of a line's tree holds the nodes below its root, each one once. Evaluating the line
records at most one value for each of them: what the action of the node makes of the values of its
operands, names having the values that they had before the line. What the line has done tells which
nodes have values. -/
theorem attributes_complete {names names' : NameTable} {line : String} {tree : Tree Name}
    (h : Tree.ofLine names line = (.ok tree, names')) (table : NameTable) (b : Bindings V) :
    let attributes := (b.evaluate table tree).2.1
    tree.below tree.root = List.range tree.nodes.size ∧ attributes.Sound tree (b.scope table) ∧
      attributes.Accounts tree (b.scope table) (b.evaluate table tree).1 := by
  obtain ⟨⟨d, rfl, -⟩, -⟩ := Tree.ofLine_eq_ok_iff.1 h
  refine ⟨below_root _, ?_⟩
  cases d with
  | returned keyword value => exact Derivation.accounts_returned keyword value (b.scope table)
  | assigned target sign value =>
    exact Derivation.accounts_assigned target sign value (b.scope table)
  | first hchain => cases hchain
  | link hchain => cases hchain

end Trees

/-- Three literals with the four rules around each, the parentheses with three rules around them, the
product, both expressions and the line itself have values. -/
theorem attributes_complete_parentheses :
    ∃ tree names, Tree.ofLine .initial "return (1+2)*3" = (.ok tree, names) ∧
      let attributes := ((Bindings.empty : Bindings Integer).evaluate names tree).2.1
      attributes.count = 21 ∧
      attributes.get? tree.root = some ⟨9, by decide, by decide⟩ ∧
      attributes.Covers tree tree.root := by
  have hvalue : (Tree.ofLine .initial "return (1+2)*3").1.map
      (fun tree => ((Bindings.empty : Bindings Integer).evaluate
        (Tree.ofLine .initial "return (1+2)*3").2 tree).1)
      = .ok (.ok (.returned ⟨9, by decide, by decide⟩)) := by cbv
  have hcount : (Tree.ofLine .initial "return (1+2)*3").1.map
      (fun tree => ((Bindings.empty : Bindings Integer).evaluate
        (Tree.ofLine .initial "return (1+2)*3").2 tree).2.1.count) = .ok 21 := by cbv
  cases hline : (Tree.ofLine .initial "return (1+2)*3").1 with
  | error e =>
    rw [hline] at hvalue
    cases hvalue
  | ok tree =>
    rw [hline] at hvalue hcount
    have hpair : Tree.ofLine .initial "return (1+2)*3" = (.ok tree, _) := Prod.ext hline rfl
    have hall := attributes_complete hpair (Tree.ofLine .initial "return (1+2)*3").2
      (Bindings.empty : Bindings Integer)
    have hresult : ((Bindings.empty : Bindings Integer).evaluate _ tree).1 = _ :=
      Except.ok.inj hvalue
    rw [hresult] at hall
    exact ⟨tree, _, hpair, Except.ok.inj hcount, hall.2.2⟩

end Reckoner
