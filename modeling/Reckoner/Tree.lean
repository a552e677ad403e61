import Reckoner.Phrase

/-!
Syntax trees as tables of nodes. A node is known by its index in the table and names its children
by theirs; trees are built from the leaves up, each node behind its children. -/

namespace Reckoner

/-- A node of a syntax tree: what it stands for, where, and the indices of its children. -/
structure Node (α : Type) where
  kind : NodeKind α
  span : Span
  children : List Nat
deriving DecidableEq, Repr

/-- A table of nodes. -/
abbrev Arena (α : Type) := Array (Node α)

/-- A table of nodes and the index of the top one. -/
structure Tree (α : Type) where
  nodes : Arena α
  root : Nat
deriving DecidableEq, Repr

namespace Arena

variable {α : Type}

/-- The span from the first child to the last one, if both are in the table. -/
def cover? (a : Arena α) : List Nat → Option Span
  | [] => some .none
  | first :: rest =>
    match a[first]?, a[rest.getLast?.getD first]? with
    | some x, some y => some (x.span.merge y.span)
    | _, _ => none

/-- Adds a node without children. -/
def leaf (a : Arena α) (kind : NodeKind α) (span : Span) : Arena α := a.push ⟨kind, span, []⟩

/-- Adds a node over children that are in the table. -/
def node? (a : Arena α) (kind : NodeKind α) (children : List Nat) : Option (Arena α) :=
  (a.cover? children).map fun span => a.push ⟨kind, span, children⟩

end Arena

/-! ### Laying out a phrase -/

namespace Phrase

variable {α : Type}

mutual

/-- Adds the nodes of a phrase, each one behind its parts; the phrase's own node comes last. -/
def layOut : Phrase α → Arena α → Arena α
  | .leaf kind span, a => a.leaf kind span
  | .node rule parts, a =>
    let (a, children) := layOutAll parts a
    a.push ⟨.rule rule, (a.cover? children).getD .none, children⟩

/-- Adds the nodes of phrases in order, and gives the index of each. -/
def layOutAll : List (Phrase α) → Arena α → Arena α × List Nat
  | [], a => (a, [])
  | p :: ps, a =>
    let a := layOut p a
    let id := a.size - 1
    let (a, ids) := layOutAll ps a
    (a, id :: ids)

end

/-- The tree of a phrase. -/
def toTree (p : Phrase α) : Tree α :=
  let nodes := p.layOut #[]
  ⟨nodes, nodes.size - 1⟩

end Phrase

end Reckoner
