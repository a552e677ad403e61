import Reckoner.Tree.View

/-!
Where the nodes of a phrase stand in the table of its tree. Laying out a phrase appends its nodes in
post-order, so the place of each is known from the sizes of the phrases in front of it; the view
from the root of the tree is the phrase itself with these indices and the spans of its rules. -/

namespace Reckoner

variable {α : Type}

/-- The span from the first to the last of some spans. -/
def Span.cover : List Span → Span
  | [] => .none
  | first :: rest => first.merge (rest.getLast?.getD first)

namespace Phrase

mutual

/-- Number of nodes of a phrase. -/
def size : Phrase α → Nat
  | .leaf _ _ => 1
  | .node _ parts => sizeAll parts + 1

/-- Number of nodes of phrases. -/
def sizeAll : List (Phrase α) → Nat
  | [] => 0
  | p :: ps => size p + sizeAll ps

end

mutual

/-- The span of the node that stands for a phrase. -/
def span : Phrase α → Span
  | .leaf _ span => span
  | .node _ parts => .cover (spanAll parts)

/-- The spans of the nodes that stand for phrases. -/
def spanAll : List (Phrase α) → List Span
  | [] => []
  | p :: ps => span p :: spanAll ps

end

/-- The indices of the nodes for phrases that are laid out from `start` on: each comes last among
its own. -/
def idsFrom (start : Nat) : List (Phrase α) → List Nat
  | [] => []
  | p :: ps => (start + p.size - 1) :: idsFrom (start + p.size) ps

mutual

/-- The nodes of a phrase in post-order, the first of which has the index `start`. -/
def nodesFrom (start : Nat) : Phrase α → List (Node α)
  | .leaf kind span => [⟨kind, span, []⟩]
  | .node rule parts =>
    nodesAllFrom start parts ++ [⟨.rule rule, .cover (spanAll parts), idsFrom start parts⟩]

/-- The nodes of phrases one after the other. -/
def nodesAllFrom (start : Nat) : List (Phrase α) → List (Node α)
  | [] => []
  | p :: ps => nodesFrom start p ++ nodesAllFrom (start + p.size) ps

end

mutual

/-- The view of a phrase whose nodes have the indices from `start` on. -/
def viewFrom (start : Nat) : Phrase α → View α
  | .leaf kind span => .node start kind span []
  | .node rule parts =>
    .node (start + sizeAll parts) (.rule rule) (.cover (spanAll parts)) (viewAllFrom start parts)

/-- The views of phrases one after the other. -/
def viewAllFrom (start : Nat) : List (Phrase α) → List (View α)
  | [] => []
  | p :: ps => viewFrom start p :: viewAllFrom (start + p.size) ps

end

/-- The phrases that the rule at the top puts together; a leaf has none. -/
def partsOf : Phrase α → List (Phrase α)
  | .leaf _ _ => []
  | .node _ parts => parts

/-- The node of a phrase itself, when its nodes are laid out from `start` on. -/
def topFrom (start : Nat) : Phrase α → Node α
  | .leaf kind span => ⟨kind, span, []⟩
  | .node rule parts => ⟨.rule rule, .cover (spanAll parts), idsFrom start parts⟩

@[simp] theorem span_topFrom (start : Nat) (p : Phrase α) : (p.topFrom start).span = p.span := by
  cases p with
  | leaf kind span => rw [topFrom, Phrase.span]
  | node rule parts => rw [topFrom, Phrase.span]

@[simp] theorem children_topFrom (start : Nat) (p : Phrase α) :
    (p.topFrom start).children = idsFrom start p.partsOf := by
  cases p with
  | leaf kind span => rfl
  | node rule parts => rfl

@[simp] theorem spanAll_append : ∀ ps qs : List (Phrase α),
    spanAll (ps ++ qs) = spanAll ps ++ spanAll qs
  | [], qs => by rw [spanAll]; rfl
  | p :: ps, qs => by rw [List.cons_append, spanAll, spanAll, spanAll_append ps qs]; rfl

@[simp] theorem viewAllFrom_append : ∀ (ps qs : List (Phrase α)) (start : Nat),
    viewAllFrom start (ps ++ qs) = viewAllFrom start ps ++ viewAllFrom (start + sizeAll ps) qs
  | [], qs, start => by rw [viewAllFrom, sizeAll]; rfl
  | p :: ps, qs, start => by
    rw [List.cons_append, viewAllFrom, viewAllFrom, sizeAll, viewAllFrom_append ps qs,
      Nat.add_assoc]
    rfl

@[simp] theorem length_viewAllFrom : ∀ (ps : List (Phrase α)) (n : Nat),
    (viewAllFrom n ps).length = ps.length
  | [], _ => rfl
  | p :: ps, n => by
    rw [viewAllFrom, List.length_cons, List.length_cons, length_viewAllFrom ps]

mutual

@[simp] theorem length_nodesFrom : ∀ (p : Phrase α) (start : Nat), (p.nodesFrom start).length = p.size
  | .leaf _ _, _ => by rw [nodesFrom, size]; rfl
  | .node _ parts, start => by
    rw [nodesFrom, size, List.length_append, length_nodesAllFrom parts start]; rfl

@[simp] theorem length_nodesAllFrom : ∀ (ps : List (Phrase α)) (start : Nat),
    (nodesAllFrom start ps).length = sizeAll ps
  | [], _ => by rw [nodesAllFrom, sizeAll]; rfl
  | p :: ps, start => by
    rw [nodesAllFrom, sizeAll, List.length_append, length_nodesFrom p start,
      length_nodesAllFrom ps]

end

theorem nodesAllFrom_append : ∀ (ps qs : List (Phrase α)) (start : Nat),
    nodesAllFrom start (ps ++ qs) = nodesAllFrom start ps ++ nodesAllFrom (start + sizeAll ps) qs
  | [], qs, start => by rw [nodesAllFrom, sizeAll]; rfl
  | p :: ps, qs, start => by
    rw [List.cons_append, nodesAllFrom, nodesAllFrom, sizeAll, nodesAllFrom_append ps qs,
      Nat.add_assoc, List.append_assoc]

/-- The nodes of a phrase are those of its parts, and its own. -/
theorem nodesFrom_eq (start : Nat) (p : Phrase α) :
    p.nodesFrom start = nodesAllFrom start p.partsOf ++ [p.topFrom start] := by
  cases p with
  | leaf kind span => rw [nodesFrom, partsOf, nodesAllFrom]; rfl
  | node rule parts => rw [nodesFrom]; rfl

theorem size_eq (p : Phrase α) : p.size = sizeAll p.partsOf + 1 := by
  cases p with
  | leaf kind span => rw [size, partsOf, sizeAll]
  | node rule parts => rw [size, partsOf]

/-- The node of a phrase itself is the last one of its nodes. -/
theorem getElem?_nodesFrom (p : Phrase α) (start : Nat) (xs ys : List (Node α)) :
    (xs ++ (p.nodesFrom start ++ ys))[xs.length + p.size - 1]? = some (p.topFrom start) := by
  have htop : xs.length + p.size - 1 = (xs ++ nodesAllFrom start p.partsOf).length := by
    rw [List.length_append, length_nodesAllFrom, size_eq]
    omega
  rw [nodesFrom_eq, List.append_assoc, ← List.append_assoc xs, htop,
    List.getElem?_append_right (Nat.le_refl _), Nat.sub_self]
  rfl

/-- The nodes for phrases have the spans of these phrases. -/
theorem map_span_idsFrom : ∀ (ps : List (Phrase α)) (xs ys : List (Node α)),
    (idsFrom xs.length ps).map
        (fun i => (xs ++ (nodesAllFrom xs.length ps ++ ys))[i]?.map Node.span)
      = (spanAll ps).map some
  | [], _, _ => by rw [idsFrom, spanAll]; rfl
  | p :: ps, xs, ys => by
    have hrest := map_span_idsFrom ps (xs ++ p.nodesFrom xs.length) ys
    rw [List.length_append, length_nodesFrom, List.append_assoc] at hrest
    rw [idsFrom, spanAll, nodesAllFrom, List.map_cons, List.map_cons, List.append_assoc, hrest,
      getElem?_nodesFrom, Option.map_some, span_topFrom]

end Phrase

/-- The last of some indices leads to the last of what all of them lead to. -/
theorem last_of_map_eq {f : Nat → Option Span} {first : Nat} {rest : List Nat} {span : Span}
    {spans : List Span} (hfirst : some span = f first) (hrest : spans.map some = rest.map f) :
    f (rest.getLast?.getD first) = some (spans.getLast?.getD span) := by
  calc f (rest.getLast?.getD first)
      = (rest.map f).getLast?.getD (f first) := by rw [List.getLast?_map, Option.getD_map]
    _ = (spans.map some).getLast?.getD (some span) := by rw [hrest, hfirst]
    _ = some (spans.getLast?.getD span) := by rw [List.getLast?_map, Option.getD_map]

/-- Nodes that are in the table are covered by the span from the first to the last of them. -/
theorem Arena.cover?_eq {a : Arena α} {ids : List Nat} {spans : List Span}
    (h : ids.map (fun i => a[i]?.map Node.span) = spans.map some) :
    a.cover? ids = some (.cover spans) := by
  cases ids with
  | nil =>
    obtain rfl := List.map_eq_nil_iff.1 h.symm
    rfl
  | cons first rest =>
    obtain ⟨span, spans, rfl, hfirst, hrest⟩ := List.map_eq_cons_iff.1 h.symm
    obtain ⟨x, hx, rfl⟩ := Option.map_eq_some_iff.1 hfirst.symm
    obtain ⟨y, hy, hspan⟩ := Option.map_eq_some_iff.1 (last_of_map_eq hfirst hrest)
    rw [cover?, hx, hy, Span.cover, ← hspan]

namespace Phrase

/-- Behind a table, the top nodes of phrases are covered by the span of what these phrases are the
parts of. -/
theorem cover?_idsFrom {a b : Arena α} {ps : List (Phrase α)}
    (h : b.toList = a.toList ++ nodesAllFrom a.size ps) :
    b.cover? (idsFrom a.size ps) = some (.cover (spanAll ps)) := by
  have hspans := map_span_idsFrom ps a.toList []
  rw [List.append_nil, Array.length_toList, ← h] at hspans
  refine Arena.cover?_eq ?_
  rw [← hspans]
  simp only [Array.getElem?_toList]

mutual

/-- Laying out a phrase appends its nodes. -/
theorem toList_layOut : ∀ (p : Phrase α) (a : Arena α),
    (p.layOut a).toList = a.toList ++ p.nodesFrom a.size
  | .leaf kind span, a => by rw [layOut, Arena.leaf, Array.toList_push, nodesFrom]
  | .node rule parts, a => by
    obtain ⟨hnodes, hids⟩ := toList_layOutAll parts a
    have hcover := cover?_idsFrom hnodes
    rcases hlay : layOutAll parts a with ⟨b, ids⟩
    rw [hlay] at hnodes hids hcover
    obtain rfl : ids = idsFrom a.size parts := hids
    rw [layOut, hlay, nodesFrom, ← List.append_assoc, ← hnodes, ← Array.toList_push]
    simp only [hcover, Option.getD_some]

/-- Laying out phrases appends the nodes of each, and tells their indices. -/
theorem toList_layOutAll : ∀ (ps : List (Phrase α)) (a : Arena α),
    (layOutAll ps a).1.toList = a.toList ++ nodesAllFrom a.size ps ∧
      (layOutAll ps a).2 = idsFrom a.size ps
  | [], a => by
    rw [layOutAll, nodesAllFrom, List.append_nil]
    exact ⟨rfl, rfl⟩
  | p :: ps, a => by
    have hsize : (p.layOut a).size = a.size + p.size := by
      rw [← Array.length_toList, toList_layOut p a, List.length_append, length_nodesFrom,
        Array.length_toList]
    obtain ⟨hnodes, hids⟩ := toList_layOutAll ps (p.layOut a)
    rcases hlay : layOutAll ps (p.layOut a) with ⟨b, ids⟩
    rw [hlay, hsize] at hnodes hids
    obtain rfl : ids = idsFrom (a.size + p.size) ps := hids
    rw [layOutAll, hlay, nodesAllFrom, idsFrom, ← hsize, ← List.append_assoc, ← toList_layOut p a,
      hsize]
    exact ⟨hnodes, rfl⟩

end

/-! ### Views -/

mutual

/-- A walk through a table from the place of a phrase meets that phrase. -/
theorem view_of_nodesFrom : ∀ (p : Phrase α) (xs ys : List (Node α)) (a : Arena α) (depth : Nat),
    a.toList = xs ++ (p.nodesFrom xs.length ++ ys) → p.size ≤ depth →
    a.view depth (xs.length + p.size - 1) = p.viewFrom xs.length
  | .leaf kind span, xs, ys, a, depth, ha, hdepth => by
    have hnode := getElem?_nodesFrom (.leaf kind span) xs.length xs ys
    rw [size] at hdepth
    obtain ⟨depth, rfl⟩ := Nat.exists_eq_add_of_le' hdepth
    rw [← ha, Array.getElem?_toList] at hnode
    rw [Arena.view, hnode, viewFrom, size, Nat.add_sub_cancel]
    rfl
  | .node rule parts, xs, ys, a, depth, ha, hdepth => by
    have hnode := getElem?_nodesFrom (.node rule parts) xs.length xs ys
    rw [size] at hdepth
    obtain ⟨depth, rfl⟩ := Nat.exists_eq_add_of_le' (Nat.le_trans (Nat.le_add_left 1 _) hdepth)
    rw [← ha, Array.getElem?_toList] at hnode
    rw [nodesFrom, List.append_assoc] at ha
    have hparts := viewAll_of_nodesAllFrom parts xs _ a depth ha (by omega)
    rw [Arena.view, hnode, viewFrom, ← hparts, size, ← Nat.add_assoc, Nat.add_sub_cancel]
    rfl

/-- Walks from the places of phrases meet these phrases. -/
theorem viewAll_of_nodesAllFrom : ∀ (ps : List (Phrase α)) (xs ys : List (Node α)) (a : Arena α)
    (depth : Nat), a.toList = xs ++ (nodesAllFrom xs.length ps ++ ys) → sizeAll ps ≤ depth →
    (idsFrom xs.length ps).map (a.view depth) = viewAllFrom xs.length ps
  | [], _, _, _, _, _, _ => by rw [idsFrom, viewAllFrom]; rfl
  | p :: ps, xs, ys, a, depth, ha, hdepth => by
    rw [sizeAll] at hdepth
    rw [nodesAllFrom, List.append_assoc] at ha
    have hfirst := view_of_nodesFrom p xs _ a depth ha (by omega)
    have hrest := viewAll_of_nodesAllFrom ps (xs ++ p.nodesFrom xs.length) ys a depth
    rw [List.length_append, length_nodesFrom, List.append_assoc] at hrest
    rw [idsFrom, viewAllFrom, List.map_cons, hfirst, hrest ha (by omega)]

end

/-- The nodes of the tree of a phrase are those of the phrase. -/
theorem toList_nodes_toTree (p : Phrase α) : p.toTree.nodes.toList = p.nodesFrom 0 := by
  rw [toTree, toList_layOut]
  rfl

theorem size_nodes_toTree (p : Phrase α) : p.toTree.nodes.size = p.size := by
  rw [← Array.length_toList, toList_nodes_toTree, length_nodesFrom]

/-- The view from the root of the tree of a phrase is the phrase with its indices from zero on. -/
theorem view_toTree (p : Phrase α) : p.toTree.view p.toTree.root = p.viewFrom 0 := by
  have hroot : p.toTree.root = 0 + p.size - 1 := by
    rw [← size_nodes_toTree, Nat.zero_add]
    rfl
  rw [Tree.view, hroot, size_nodes_toTree]
  refine view_of_nodesFrom p [] [] p.toTree.nodes p.size ?_ (Nat.le_refl _)
  rw [toList_nodes_toTree, List.append_nil]
  rfl

end Phrase

end Reckoner
