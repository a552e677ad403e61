import Reckoner.Tree

/-!
What a walk through a tree meets. A view unfolds the table from one node on, so that walks recurse
on data; an index that leads nowhere becomes a gap in the view. -/

namespace Reckoner

/-- A node seen with everything below it. -/
inductive View (α : Type) where
  | gap (id : Nat)
  | node (id : Nat) (kind : NodeKind α) (span : Span) (children : List (View α))

/-- The view from a node, followed for at most `depth` nodes in a row. -/
def Arena.view {α : Type} (a : Arena α) : (depth : Nat) → (id : Nat) → View α
  | 0, id => .gap id
  | depth + 1, id =>
    match a[id]? with
    | none => .gap id
    | some n => .node id n.kind n.span (n.children.map (Arena.view a depth))

/-- The view from a node. No path without a repeated node is longer than the table. -/
def Tree.view {α : Type} (t : Tree α) (id : Nat) : View α := t.nodes.view t.nodes.size id

namespace View

variable {α : Type}

/-- The text of a node that writes itself, tokens without text by their description. -/
def ownText? (text : α → String) : NodeKind α → Option String
  | .scientific a | .variable a => some (text a)
  | .token k => some ((k.payload?.map text).getD k.describe)
  | .rule _ => none

mutual

/-- The source text below a node, its tokens joined without separators; there is none if the walk
meets a gap. -/
def text? (text : α → String) : View α → Option String
  | .gap _ => none
  | .node _ kind _ children =>
    match ownText? text kind with
    | some s => some s
    | none => textAll? text children

/-- The source texts below nodes, joined in order. -/
def textAll? (text : α → String) : List (View α) → Option String
  | [] => some ""
  | v :: vs => do return (← text? text v) ++ (← textAll? text vs)

end

/-- A node as a dump shows it: how deep it is, what it stands for, and where. -/
structure Entry (α : Type) where
  depth : Nat
  kind : NodeKind α
  span : Span

mutual

/-- The entries of a node at some depth and of all below it, each node in front of its children;
there are none if the walk meets a gap. -/
def entries? (depth : Nat) : View α → Option (List (Entry α))
  | .gap _ => none
  | .node _ kind span children => (entriesAll? (depth + 1) children).map (⟨depth, kind, span⟩ :: ·)

/-- The entries of nodes at some depth and of all below them. -/
def entriesAll? (depth : Nat) : List (View α) → Option (List (Entry α))
  | [] => some []
  | v :: vs => do return (← entries? depth v) ++ (← entriesAll? depth vs)

end

/-- The line of a dump for one entry. -/
def Entry.line (text : α → String) (e : Entry α) : String :=
  let head := match e.kind with
    | .scientific a | .variable a => e.kind.ruleName ++ " `" ++ text a ++ "`"
    | .token k => "`" ++ k.describe ++ "`"
    | .rule r => r.name
  "".pushn ' ' (2 * e.depth) ++ head ++ " " ++ e.span.text ++ "\n"

/-- One line for each node from this one down, indented by its depth. -/
def dump? (text : α → String) (v : View α) : Option String :=
  (v.entries? 0).map fun es => String.join (es.map (Entry.line text))

end View

namespace Tree

variable {α : Type}

/-- The source text that a node covers, without separators. -/
def text? (t : Tree α) (text : α → String) (id : Nat) : Option String := (t.view id).text? text

/-- The dump of the tree from its root on. -/
def dump? (t : Tree α) (text : α → String) : Option String := (t.view t.root).dump? text

end Tree

end Reckoner
