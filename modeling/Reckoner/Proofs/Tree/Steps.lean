import Reckoner.Proofs.Tree.Pieces
import Reckoner.Proofs.Tree.Storage

/-!
What a builder is asked for when a phrase is laid out: a leaf for each token, and behind the parts
of a rule a node over the indices that were given for them. These are the nodes of the phrase in
post-order, so each node is over earlier ones, and a table that is built like that holds the tree of
the phrase. -/

namespace Reckoner

variable {α : Type}

namespace Phrase

/-! ### The lists of children -/

mutual

/-- The lists of children in a phrase have each of its nodes once, but for the top one. -/
theorem perm_children : ∀ (p : Phrase α) (n : Nat),
    ((p.nodesFrom n).flatMap Node.children ++ [n + p.size - 1]).Perm (List.range' n p.size)
  | .leaf kind span, n => by simp [nodesFrom, size]
  | .node rule parts, n => by
    have hparts := perm_childrenAll parts n
    rw [nodesFrom, size, List.flatMap_append, List.flatMap_singleton, List.range'_concat,
      ← Nat.add_assoc, Nat.add_sub_cancel, Nat.one_mul]
    exact hparts.append_right _

/-- The lists of children in phrases have each of their nodes once, but for the top ones. -/
theorem perm_childrenAll : ∀ (ps : List (Phrase α)) (n : Nat),
    ((nodesAllFrom n ps).flatMap Node.children ++ idsFrom n ps).Perm (List.range' n (sizeAll ps))
  | [], n => by simp [nodesAllFrom, idsFrom, sizeAll]
  | p :: ps, n => by
    have hp := perm_children p n
    have hps := perm_childrenAll ps (n + p.size)
    rw [nodesAllFrom, idsFrom, sizeAll, ← List.range'_append_1, List.flatMap_append]
    -- the top node of the first phrase goes with the lists of that phrase
    refine List.Perm.trans ?_ (hp.append hps)
    rw [List.append_assoc, List.append_assoc _ [_], List.singleton_append]
    exact List.perm_middle.append_left _

end

theorem mem_idsFrom {ps : List (Phrase α)} {n id : Nat} (h : id ∈ idsFrom n ps) :
    n ≤ id ∧ id < n + sizeAll ps :=
  List.mem_range'_1.1 ((perm_childrenAll ps n).subset (List.mem_append_right _ h))

theorem idsFrom_append : ∀ (ps qs : List (Phrase α)) (n : Nat),
    idsFrom n (ps ++ qs) = idsFrom n ps ++ idsFrom (n + sizeAll ps) qs
  | [], qs, n => by simp [idsFrom, sizeAll]
  | p :: ps, qs, n => by
    rw [List.cons_append, idsFrom, idsFrom, sizeAll, idsFrom_append ps qs, Nat.add_assoc,
      List.cons_append]

/-! ### Building -/

mutual

/-- What a builder is asked for when it lays out a phrase, the first node of which gets the index
`start`: the nodes of the parts, and then one over the top nodes of the parts. -/
def steps (start : Nat) : Phrase α → List (BuildStep α)
  | .leaf kind span => [.leaf kind span]
  | .node rule parts => stepsAll start parts ++ [.node (.rule rule) (idsFrom start parts)]

/-- What a builder is asked for when it lays out phrases one after the other. -/
def stepsAll (start : Nat) : List (Phrase α) → List (BuildStep α)
  | [] => []
  | p :: ps => steps start p ++ stepsAll (start + p.size) ps

end

mutual

theorem map_children_steps : ∀ (p : Phrase α) (n : Nat),
    (p.steps n).map BuildStep.children = (p.nodesFrom n).map Node.children
  | .leaf kind span, n => rfl
  | .node rule parts, n => by
    rw [steps, nodesFrom, List.map_append, List.map_append, map_children_stepsAll parts]
    rfl

theorem map_children_stepsAll : ∀ (ps : List (Phrase α)) (n : Nat),
    (stepsAll n ps).map BuildStep.children = (nodesAllFrom n ps).map Node.children
  | [], n => rfl
  | p :: ps, n => by
    rw [stepsAll, nodesAllFrom, List.map_append, List.map_append, map_children_steps p,
      map_children_stepsAll ps]

end

theorem flatMap_children_steps (p : Phrase α) (n : Nat) :
    (p.steps n).flatMap BuildStep.children = (p.nodesFrom n).flatMap Node.children := by
  rw [List.flatMap_def, map_children_steps, ← List.flatMap_def]

/-- Each node is over nodes that were asked for earlier. -/
theorem bottomUp_steps (p : Phrase α) : BuildStep.BottomUp (p.steps 0) := by
  intro id step hstep
  have hchildren : ((p.steps 0).map BuildStep.children)[id]? = some step.children := by
    rw [List.getElem?_map, hstep, Option.map_some]
  rw [map_children_steps, ← toList_nodes_toTree, List.getElem?_map,
    Array.getElem?_toList] at hchildren
  obtain ⟨n, hn, hnode⟩ := Option.map_eq_some_iff.1 hchildren
  obtain ⟨q, m, hpiece, rfl⟩ := exists_piece_toTree p (Array.getElem?_eq_some_iff.1 hn).1
  obtain rfl := Option.some.inj (hpiece.of_toTree.1.symm.trans hn)
  rw [← hnode, children_topFrom, size_eq]
  exact fun child hchild => (mem_idsFrom hchild).2

theorem stepsAll_append : ∀ (ps qs : List (Phrase α)) (n : Nat),
    stepsAll n (ps ++ qs) = stepsAll n ps ++ stepsAll (n + sizeAll ps) qs
  | [], qs, n => by simp [stepsAll, sizeAll]
  | p :: ps, qs, n => by
    rw [List.cons_append, stepsAll, stepsAll, sizeAll, stepsAll_append ps qs, Nat.add_assoc,
      List.append_assoc]

theorem length_steps (p : Phrase α) (n : Nat) : (p.steps n).length = p.size := by
  have hlength := congrArg List.length (map_children_steps p n)
  rwa [List.length_map, List.length_map, length_nodesFrom] at hlength

theorem length_stepsAll (ps : List (Phrase α)) (n : Nat) : (stepsAll n ps).length = sizeAll ps := by
  have hlength := congrArg List.length (map_children_stepsAll ps n)
  rwa [List.length_map, List.length_map, length_nodesAllFrom] at hlength

theorem size_layOut (p : Phrase α) (a : Arena α) : (p.layOut a).size = a.size + p.size := by
  rw [← Array.length_toList, toList_layOut, List.length_append, length_nodesFrom,
    Array.length_toList]

end Phrase

namespace Arena

open Phrase

mutual

/-- Laying out a phrase is building its nodes in their order. -/
theorem buildAll?_steps : ∀ (p : Phrase α) (a : Arena α),
    a.buildAll? (p.steps a.size) = some (p.layOut a)
  | .leaf kind span, a => by rw [steps, layOut]; rfl
  | .node rule parts, a => by
    obtain ⟨hnodes, hids⟩ := toList_layOutAll parts a
    have hcover := cover?_idsFrom hnodes
    have hparts := buildAll?_stepsAll parts a
    rcases hlay : layOutAll parts a with ⟨b, ids⟩
    rw [hlay] at hids hcover hparts
    obtain rfl : ids = idsFrom a.size parts := hids
    rw [steps, buildAll?_append, hparts, layOut, hlay]
    simp [buildAll?, build?, node?, hcover]

theorem buildAll?_stepsAll : ∀ (ps : List (Phrase α)) (a : Arena α),
    a.buildAll? (stepsAll a.size ps) = some (layOutAll ps a).1
  | [], a => by rw [stepsAll, layOutAll]; rfl
  | p :: ps, a => by
    have hps := buildAll?_stepsAll ps (p.layOut a)
    rw [size_layOut] at hps
    rw [stepsAll, buildAll?_append, buildAll?_steps p a, Option.bind_some, hps, layOutAll]

end

end Arena

end Reckoner
