import Reckoner.Proofs.Tree.Reading

/-!
Where the nodes of a tree are. The span of a rule's node is merged from spans further down, so a
property that merging keeps is one of all nodes as soon as it is one of the leaves; the leaves of a
line's tree are at the tokens of the line. -/

namespace Reckoner

variable {α : Type} {P : Span → Prop}

/-- The span of nothing has the property, and merging keeps it. -/
structure Span.Mergeable (P : Span → Prop) : Prop where
  none : P .none
  merge : ∀ {s t : Span}, P s → P t → P (s.merge t)

theorem Span.Mergeable.cover (hP : Mergeable P) {spans : List Span} (h : ∀ s ∈ spans, P s) :
    P (cover spans) := by
  rcases spans with _ | ⟨first, rest⟩
  · exact hP.none
  · exact hP.merge (h first List.mem_cons_self) (h _ (List.mem_of_getLast? List.getLast?_cons))

/-- Every node of the view is in the tree, and its span has a property. -/
inductive View.Placed (P : Span → Prop) : View α → Prop where
  | node {id : Nat} {kind : NodeKind α} {span : Span} {children : List (View α)} (hspan : P span)
      (hchildren : ∀ v ∈ children, Placed P v) : Placed P (.node id kind span children)

/-! ### Walks that meet no gap -/

namespace View

theorem exists_textAll {text : α → String} : ∀ {vs : List (View α)},
    (∀ v ∈ vs, ∃ s, v.text? text = some s) → ∃ s, textAll? text vs = some s
  | [], _ => ⟨"", rfl⟩
  | v :: vs, h => by
    obtain ⟨hv, hvs⟩ := List.forall_mem_cons.1 h
    obtain ⟨s, hs⟩ := hv
    obtain ⟨s', hs'⟩ := exists_textAll hvs
    exact ⟨s ++ s', by rw [textAll?, hs, hs']; rfl⟩

/-- A view without gaps has a text. -/
theorem Placed.exists_text {v : View α} (h : v.Placed P) (text : α → String) :
    ∃ s, v.text? text = some s := by
  induction h with
  | @node _ kind _ _ _ _ ih =>
    rw [text?]
    cases ownText? text kind with
    | some s => exact ⟨s, rfl⟩
    | none => exact exists_textAll ih

theorem exists_entriesAll {depth : Nat} : ∀ {vs : List (View α)},
    (∀ v ∈ vs, ∃ es, v.entries? depth = some es) → ∃ es, entriesAll? depth vs = some es
  | [], _ => ⟨[], rfl⟩
  | v :: vs, h => by
    obtain ⟨hv, hvs⟩ := List.forall_mem_cons.1 h
    obtain ⟨es, hes⟩ := hv
    obtain ⟨es', hes'⟩ := exists_entriesAll hvs
    exact ⟨es ++ es', by rw [entriesAll?, hes, hes']; rfl⟩

theorem Placed.exists_entries {v : View α} (h : v.Placed P) :
    ∀ depth, ∃ es, v.entries? depth = some es := by
  induction h with
  | node _ _ ih =>
    intro depth
    obtain ⟨es, hes⟩ := exists_entriesAll fun v hv => ih v hv (depth + 1)
    exact ⟨_, by rw [entries?, hes]; rfl⟩

/-- A view without gaps has a dump. -/
theorem Placed.exists_dump {v : View α} (h : v.Placed P) (text : α → String) :
    ∃ dump, v.dump? text = some dump := by
  obtain ⟨es, hes⟩ := h.exists_entries 0
  exact ⟨_, by rw [dump?, hes]; rfl⟩

end View

/-! ### Lines -/

namespace Phrase

open View

mutual

/-- The nodes of a phrase have the property if its leaves do. -/
theorem placed_viewFrom (hP : Span.Mergeable P) : ∀ (p : Phrase α) (n : Nat),
    (∀ l ∈ (p.viewFrom n).leaves, P l.2) → (p.viewFrom n).Placed P ∧ P p.span
  | .leaf kind span, n, h => by
    have hspan : P span := h (kind, span) (by simp [viewFrom, leaves])
    exact ⟨.node hspan nofun, by rwa [Phrase.span]⟩
  | .node rule parts, n, h => by
    have hparts : ∀ l ∈ leavesAll (viewAllFrom n parts), P l.2 := by
      cases parts with
      | nil => simp [viewAllFrom, leavesAll]
      | cons p ps => exact h
    obtain ⟨hviews, hspans⟩ := placed_viewAllFrom hP parts n hparts
    have hcover := hP.cover hspans
    exact ⟨.node hcover hviews, by rwa [Phrase.span]⟩

/-- The nodes of phrases have the property if their leaves do. -/
theorem placed_viewAllFrom (hP : Span.Mergeable P) : ∀ (ps : List (Phrase α)) (n : Nat),
    (∀ l ∈ leavesAll (viewAllFrom n ps), P l.2) →
      (∀ v ∈ viewAllFrom n ps, v.Placed P) ∧ ∀ s ∈ spanAll ps, P s
  | [], n, _ => by simp [viewAllFrom, spanAll]
  | p :: ps, n, h => by
    simp only [viewAllFrom, leavesAll, List.forall_mem_append] at h
    obtain ⟨hview, hspan⟩ := placed_viewFrom hP p n h.1
    obtain ⟨hviews, hspans⟩ := placed_viewAllFrom hP ps (n + p.size) h.2
    simp only [viewAllFrom, spanAll, List.forall_mem_cons]
    exact ⟨⟨hview, hviews⟩, hspan, hspans⟩

end

end Phrase

/-- The tree of a line has a property of spans in all of its nodes if the tokens have it. -/
theorem Derivation.placed_toTree (hP : Span.Mergeable P) {rule : Rule} (d : Derivation α rule)
    (h : ∀ t ∈ d.yield, P t.span) : (d.phrase.toTree.view d.phrase.toTree.root).Placed P := by
  rw [Phrase.view_toTree]
  refine (Phrase.placed_viewFrom hP d.phrase 0 ?_).1
  rw [(d.reads_viewFrom 0).2]
  intro l hl
  obtain ⟨t, ht, rfl⟩ := List.mem_map.1 hl
  exact h t ht

end Reckoner
