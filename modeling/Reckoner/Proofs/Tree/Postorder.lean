import Reckoner.Proofs.Tree.Pieces

/-!
The table of a line's tree holds nothing but the tree, in post-order: a walk from the root that
comes to each node behind its children meets the nodes of the table in the order of their indices,
each one once. So what stands below a node has the indices right in front of it. -/

namespace Reckoner

variable {α : Type}

namespace View

/-- The index that a node or gap was met at. -/
def index : View α → Nat
  | .gap id | .node id _ _ _ => id

/-- Whether there is a node that is no token. -/
def hasValue : View α → Bool
  | .gap _ | .node _ (.token _) _ _ => false
  | .node _ _ _ _ => true

mutual

/-- All that a walk from a node meets, each node behind its children. -/
def postorder : View α → List (View α)
  | .gap id => [.gap id]
  | .node id kind span children => postorderAll children ++ [.node id kind span children]

/-- All that walks from nodes meet, one walk after the other. -/
def postorderAll : List (View α) → List (View α)
  | [] => []
  | v :: vs => postorder v ++ postorderAll vs

end

/-- The nodes that have values, of those that walks from some nodes meet. -/
def valuedAll (vs : List (View α)) : List (View α) := (postorderAll vs).filter hasValue

theorem postorderAll_append : ∀ vs ws : List (View α),
    postorderAll (vs ++ ws) = postorderAll vs ++ postorderAll ws
  | [], ws => by simp [postorderAll]
  | v :: vs, ws => by simp [postorderAll, postorderAll_append vs ws]

/-- A walk from a node comes by all that walks from its children come by. -/
theorem postorder_sublist {id : Nat} {kind : NodeKind α} {span : Span} {children : List (View α)}
    {child : View α} (h : child ∈ children) :
    child.postorder.Sublist (View.node id kind span children).postorder := by
  obtain ⟨before, after, rfl⟩ := List.append_of_mem h
  rw [postorder, postorderAll_append, postorderAll, List.append_assoc, List.append_assoc]
  exact (List.sublist_append_left _ _).trans (List.sublist_append_right _ _)

@[simp] theorem valuedAll_nil : valuedAll ([] : List (View α)) = [] := by
  simp [valuedAll, postorderAll]

theorem valuedAll_append (vs ws : List (View α)) :
    valuedAll (vs ++ ws) = valuedAll vs ++ valuedAll ws := by
  rw [valuedAll, postorderAll_append, List.filter_append]
  rfl

theorem valuedAll_cons (v : View α) (vs : List (View α)) :
    valuedAll (v :: vs) = valuedAll [v] ++ valuedAll vs :=
  valuedAll_append [v] vs

/-- A walk meets the node that it starts from. -/
theorem mem_postorder (v : View α) : v ∈ v.postorder := by
  cases v <;> simp [postorder]

/-- A node comes behind what is met below it. -/
theorem valuedAll_node {id : Nat} {kind : NodeKind α} {span : Span} {children : List (View α)}
    (h : hasValue (.node id kind span children) = true) :
    valuedAll [.node id kind span children]
      = valuedAll children ++ [.node id kind span children] := by
  simp [valuedAll, postorderAll, postorder, h]

end View

/-- The indices of a node and of all nodes below it. -/
def Tree.below (t : Tree α) (id : Nat) : List Nat := (t.view id).postorder.map View.index

namespace Phrase

open View

@[simp] theorem valuedAll_ofToken (t : Token α) (n : Nat) (vs : List (View α)) :
    valuedAll ((Phrase.ofToken t).viewFrom n :: vs) = valuedAll vs := by
  simp [Phrase.ofToken, viewFrom, valuedAll, postorderAll, postorder, hasValue]

@[simp] theorem index_viewFrom (p : Phrase α) (n : Nat) :
    (p.viewFrom n).index = n + p.size - 1 := by
  cases p <;> simp [viewFrom, index, size]

/-! ### Indices of what is met -/

mutual

/-- The indices from `n` on are met in their order. -/
theorem map_index_postorder : ∀ (p : Phrase α) (n : Nat),
    (p.viewFrom n).postorder.map index = List.range' n p.size
  | .leaf kind span, n => by simp [viewFrom, postorder, postorderAll, index, size]
  | .node rule parts, n => by
    have hparts := map_index_postorderAll parts n
    simp [viewFrom, postorder, index, size, hparts, List.range'_concat]

theorem map_index_postorderAll : ∀ (ps : List (Phrase α)) (n : Nat),
    (postorderAll (viewAllFrom n ps)).map index = List.range' n (sizeAll ps)
  | [], n => by simp [viewAllFrom, postorderAll, sizeAll]
  | p :: ps, n => by
    have hp := map_index_postorder p n
    have hps := map_index_postorderAll ps (n + p.size)
    simp [viewAllFrom, postorderAll, sizeAll, hp, hps, List.range'_append_1]

end

variable {p : Phrase α} {n : Nat} {w : View α}

/-- What has a value below a phrase comes in the order of its indices. -/
theorem pairwise_valued (p : Phrase α) (n : Nat) :
    ((valuedAll [p.viewFrom n]).map index).Pairwise (· < ·) := by
  have hsub := (List.filter_sublist (p := hasValue) (l := (p.viewFrom n).postorder)).map index
  rw [map_index_postorder] at hsub
  simpa [valuedAll, postorderAll] using List.Pairwise.sublist hsub List.pairwise_lt_range'

theorem index_of_mem_postorder (hw : w ∈ (p.viewFrom n).postorder) :
    n ≤ w.index ∧ w.index < n + p.size := by
  have hindex := List.mem_map_of_mem (f := index) hw
  rw [map_index_postorder] at hindex
  exact List.mem_range'_1.1 hindex

theorem mem_valued : w ∈ valuedAll [p.viewFrom n] ↔
    w ∈ (p.viewFrom n).postorder ∧ w.hasValue = true := by
  simp [valuedAll, postorderAll]

/-! ### Nodes that are met -/

mutual

/-- Walks meet the pieces of a phrase. -/
theorem exists_piece_of_mem : ∀ (p : Phrase α) (n : Nat) {w : View α},
    w ∈ (p.viewFrom n).postorder → ∃ q m, Piece q m p n ∧ w = q.viewFrom m
  | .leaf kind span, n, w, hw => by
    refine ⟨.leaf kind span, n, .whole, ?_⟩
    simpa [viewFrom, postorder, postorderAll] using hw
  | .node rule parts, n, w, hw => by
    rw [viewFrom, postorder] at hw
    rcases List.mem_append.1 hw with hw | hw
    · obtain ⟨before, p, after, q, m, rfl, hpiece, rfl⟩ := exists_piece_of_mem_all parts n hw
      exact ⟨q, m, .part hpiece, rfl⟩
    · exact ⟨.node rule parts, n, .whole, List.mem_singleton.1 hw⟩

theorem exists_piece_of_mem_all : ∀ (ps : List (Phrase α)) (n : Nat) {w : View α},
    w ∈ postorderAll (viewAllFrom n ps) → ∃ before p after q m, ps = before ++ p :: after ∧
      Piece q m p (n + sizeAll before) ∧ w = q.viewFrom m
  | [], n, w, hw => by simp [viewAllFrom, postorderAll] at hw
  | p :: ps, n, w, hw => by
    rw [viewAllFrom, postorderAll] at hw
    rcases List.mem_append.1 hw with hw | hw
    · obtain ⟨q, m, hpiece, rfl⟩ := exists_piece_of_mem p n hw
      exact ⟨[], p, ps, q, m, rfl, by rwa [sizeAll], rfl⟩
    · obtain ⟨before, p', after, q, m, rfl, hpiece, rfl⟩ :=
        exists_piece_of_mem_all ps (n + p.size) hw
      exact ⟨p :: before, p', after, q, m, rfl, by rwa [sizeAll, ← Nat.add_assoc], rfl⟩

end

/-- What a walk meets at an index is what a walk from that index meets first. -/
theorem view_index (hw : w ∈ (p.viewFrom 0).postorder) : p.toTree.view w.index = w := by
  obtain ⟨q, m, hpiece, rfl⟩ := exists_piece_of_mem p 0 hw
  rw [index_viewFrom]
  exact hpiece.of_toTree.2.1

/-- No node that is met stands in front of what is below it. -/
theorem index_le_of_mem {u : View α} (hu : u ∈ (p.viewFrom n).postorder)
    (hw : w ∈ u.postorder) : w.index ≤ u.index := by
  obtain ⟨q, m, -, rfl⟩ := exists_piece_of_mem p n hu
  have hindex := index_of_mem_postorder hw
  rw [index_viewFrom]
  omega

theorem root_toTree (p : Phrase α) : p.toTree.root = (p.viewFrom 0).index := by
  rw [index_viewFrom, ← size_nodes_toTree, Nat.zero_add]
  rfl

/-- The table holds the nodes of the tree, each one once and in the order in which they are met. -/
theorem below_root (p : Phrase α) :
    p.toTree.below p.toTree.root = List.range p.toTree.nodes.size := by
  rw [Tree.below, view_toTree, map_index_postorder, size_nodes_toTree, List.range_eq_range']

end Phrase

end Reckoner
