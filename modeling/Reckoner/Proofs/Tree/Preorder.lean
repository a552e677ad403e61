import Mathlib.Data.List.Forall2
import Reckoner.Proofs.Tree.Postorder

/-!
Walks that come to each node in front of what is below it. They are said here on the table itself;
what a dump shows of a view is what such a walk visits, and it visits the nodes that a walk in
post-order meets. So in the tree of a phrase each node of the table is visited once. -/

namespace Reckoner

variable {α : Type}

/-- Walks from some nodes, all at one depth, make these visits: to each node with its depth, then to
what is below it, one depth further down, and then to what is below the nodes behind it. -/
inductive Arena.Visits (a : Arena α) : (depth : Nat) → (ids : List Nat) → List (Nat × Nat) → Prop
  where
  | nil {depth : Nat} : Visits a depth [] []
  | cons {depth id : Nat} {n : Node α} {ids : List Nat} {below behind : List (Nat × Nat)}
      (hnode : a[id]? = some n) (hbelow : Visits a (depth + 1) n.children below)
      (hbehind : Visits a depth ids behind) :
      Visits a depth (id :: ids) ((depth, id) :: (below ++ behind))

/-- The entry of a dump for a visit to a node of the table. -/
def Arena.EntryOf (a : Arena α) (visit : Nat × Nat) (e : View.Entry α) : Prop :=
  ∃ n, a[visit.2]? = some n ∧ e = ⟨visit.1, n.kind, n.span⟩

namespace Arena

open View

/-- The entries of views without gaps are those of a walk in pre-order, which visits what is met in
post-order. -/
theorem exists_visits (a : Arena α) : ∀ (fuel : Nat) (ids : List Nat) (depth : Nat)
    {es : List (Entry α)}, entriesAll? depth (ids.map (a.view fuel)) = some es →
    ∃ visits, a.Visits depth ids visits ∧ visits.Forall₂ a.EntryOf es ∧
      (visits.map Prod.snd).Perm ((postorderAll (ids.map (a.view fuel))).map index)
  | fuel, [], depth, es, h => by
    rw [List.map_nil, entriesAll?] at h
    obtain rfl := Option.some.inj h
    exact ⟨[], .nil, .nil, by simp [postorderAll]⟩
  | 0, id :: ids, depth, es, h => by
    rw [List.map_cons, entriesAll?, view, entries?] at h
    cases h
  | fuel + 1, id :: ids, depth, es, h => by
    rw [List.map_cons, entriesAll?, view] at h
    cases hnode : a[id]? with
    | none =>
      rw [hnode, entries?] at h
      cases h
    | some n =>
      simp only [hnode, entries?] at h
      cases hbelow : entriesAll? (depth + 1) (n.children.map (a.view fuel)) with
      | none =>
        rw [hbelow] at h
        cases h
      | some below =>
        cases hbehind : entriesAll? depth (ids.map (a.view (fuel + 1))) with
        | none =>
          rw [hbelow, hbehind] at h
          cases h
        | some behind =>
          rw [hbelow, hbehind] at h
          obtain rfl := Option.some.inj h
          obtain ⟨vs, hvs, hes, hperm⟩ := exists_visits a fuel n.children (depth + 1) hbelow
          obtain ⟨vs', hvs', hes', hperm'⟩ := exists_visits a (fuel + 1) ids depth hbehind
          refine ⟨(depth, id) :: (vs ++ vs'), .cons hnode hvs hvs', ?_, ?_⟩
          · exact .cons ⟨n, hnode, rfl⟩ (List.rel_append hes hes')
          · have hmet : (postorderAll ((id :: ids).map (a.view (fuel + 1)))).map index
                = (postorderAll (n.children.map (a.view fuel))).map index
                  ++ id :: (postorderAll (ids.map (a.view (fuel + 1)))).map index := by
              simp [view, hnode, postorderAll, postorder, index]
            rw [hmet, List.map_cons, List.map_append]
            exact ((hperm.append hperm').cons id).trans List.perm_middle.symm

end Arena

namespace Phrase

mutual

/-- What a dump shows of a phrase at some depth. -/
def entries (depth : Nat) : Phrase α → List (View.Entry α)
  | .leaf kind span => [⟨depth, kind, span⟩]
  | .node rule parts => ⟨depth, .rule rule, .cover (spanAll parts)⟩ :: entriesAll (depth + 1) parts

/-- What a dump shows of phrases, one behind the other. -/
def entriesAll (depth : Nat) : List (Phrase α) → List (View.Entry α)
  | [] => []
  | p :: ps => entries depth p ++ entriesAll depth ps

end

mutual

theorem entries?_viewFrom : ∀ (p : Phrase α) (depth n : Nat),
    (p.viewFrom n).entries? depth = some (p.entries depth)
  | .leaf kind span, depth, n => rfl
  | .node rule parts, depth, n => by
    rw [viewFrom, View.entries?, entriesAll?_viewAllFrom parts, entries]
    rfl

theorem entriesAll?_viewAllFrom : ∀ (ps : List (Phrase α)) (depth n : Nat),
    View.entriesAll? depth (viewAllFrom n ps) = some (entriesAll depth ps)
  | [], depth, n => rfl
  | p :: ps, depth, n => by
    rw [viewAllFrom, View.entriesAll?, entries?_viewFrom p, entriesAll?_viewAllFrom ps, entriesAll]
    rfl

end

/-- A walk through the tree of a phrase visits each node of the table once, and its visits are what
a dump shows of the phrase. -/
theorem exists_visits (p : Phrase α) :
    ∃ visits, p.toTree.nodes.Visits 0 [p.toTree.root] visits ∧
      visits.Forall₂ p.toTree.nodes.EntryOf (p.entries 0) ∧
        (visits.map Prod.snd).Perm (List.range p.toTree.nodes.size) := by
  have hview := view_toTree p
  rw [Tree.view] at hview
  have hshown : View.entriesAll? 0 ([p.toTree.root].map
      (p.toTree.nodes.view p.toTree.nodes.size)) = some (p.entries 0) := by
    rw [List.map_singleton, hview, View.entriesAll?, entries?_viewFrom]
    simp [View.entriesAll?]
  obtain ⟨visits, hvisits, hentries, hperm⟩ := p.toTree.nodes.exists_visits p.toTree.nodes.size
    [p.toTree.root] 0 hshown
  refine ⟨visits, hvisits, hentries, ?_⟩
  rw [← below_root, Tree.below, Tree.view]
  simpa [View.postorderAll] using hperm

end Phrase

end Reckoner
