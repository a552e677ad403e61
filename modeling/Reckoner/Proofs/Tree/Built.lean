import Reckoner.Proofs.Tree.Places

/-!
Trees built from the leaves up. Whatever the kinds of its nodes and however often one is used again,
a table that only ever got leaves and nodes over nodes that it had before has each child in front of
its parent; so a walk from any of its nodes ends, and meets no gap. -/

namespace Reckoner

variable {α : Type}

/-- Tables that leaves, and nodes over nodes that were there before, have been added to. -/
inductive Arena.Built : Arena α → Prop where
  | empty : Built #[]
  | leaf {a : Arena α} (h : Built a) (kind : NodeKind α) (span : Span) : Built (a.leaf kind span)
  | node {a a' : Arena α} (h : Built a) {kind : NodeKind α} {children : List Nat}
      (hchildren : ∀ id ∈ children, id < a.size) (ha : a.node? kind children = some a') : Built a'

/-- The table of the tree was built from the leaves up, and the top node is in it. -/
structure Tree.Built (t : Tree α) : Prop where
  nodes : t.nodes.Built
  root : t.root < t.nodes.size

namespace Arena

variable {a a' : Arena α}

/-- Each child of a node stands in front of it. -/
def ChildrenFirst (a : Arena α) : Prop :=
  ∀ (id : Nat) (n : Node α), a[id]? = some n → ∀ child ∈ n.children, child < id

theorem ChildrenFirst.push (h : a.ChildrenFirst) {node : Node α}
    (hnode : ∀ id ∈ node.children, id < a.size) : ChildrenFirst (a.push node) := by
  intro id n hn
  rw [Array.getElem?_push] at hn
  split at hn
  · rename_i hid
    obtain rfl := Option.some.inj hn
    rw [hid]
    exact hnode
  · exact h id n hn

theorem Built.childrenFirst (h : a.Built) : a.ChildrenFirst := by
  induction h with
  | empty =>
    intro id n hn
    simp at hn
  | leaf h kind span ih => exact ih.push (by simp)
  | node h hchildren ha ih =>
    obtain ⟨span, -, rfl⟩ := Option.map_eq_some_iff.1 ha
    exact ih.push hchildren

/-- A walk meets no gap if it may go on for as many nodes as stand in front of its first one. -/
theorem ChildrenFirst.placed_view (h : a.ChildrenFirst) : ∀ (depth : Nat) {id : Nat},
    id < a.size → id < depth → (a.view depth id).Placed fun _ => True
  | 0, id, _, hdepth => absurd hdepth (Nat.not_lt_zero id)
  | depth + 1, id, hid, hdepth => by
    have hnode : a[id]? = some a[id] := Array.getElem?_eq_getElem hid
    rw [view, hnode]
    refine .node trivial ?_
    intro v hv
    obtain ⟨child, hchild, rfl⟩ := List.mem_map.1 hv
    have hlt := h id a[id] hnode child hchild
    exact placed_view h depth (by omega) (by omega)

end Arena

theorem Tree.Built.placed_view {t : Tree α} (h : t.Built) :
    (t.view t.root).Placed fun _ => True :=
  h.nodes.childrenFirst.placed_view t.nodes.size h.root h.root

end Reckoner
