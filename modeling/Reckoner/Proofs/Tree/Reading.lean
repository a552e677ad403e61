import Reckoner.Proofs.Grammar
import Reckoner.Proofs.Tree.Layout

/-!
Reading a tree back. A view without gaps shows a phrase, once the indices and the spans of its rules
are forgotten, and has leaves from left to right. Of the tree of a derivation these are the phrase
that was laid out, and one leaf for each token of the yield. -/

namespace Reckoner

variable {α : Type}

/-- The kind of the leaf that keeps a token. -/
def TokenKind.leafKind : TokenKind α → NodeKind α
  | .number text => .scientific text
  | .ident name => .variable name
  | kind => .token kind

/-- The leaf that keeps a token, and where it stands. -/
def Token.asLeaf (t : Token α) : NodeKind α × Span := (t.kind.leafKind, t.span)

namespace View

mutual

/-- The phrase that a view shows: a rule with its parts, or a leaf with nothing below it. -/
def phrase? : View α → Option (Phrase α)
  | .node _ (.rule rule) _ children => (phraseAll? children).map (.node rule)
  | .node _ kind span [] => some (.leaf kind span)
  | .node _ _ _ (_ :: _) | .gap _ => none

/-- The phrases that views show. -/
def phraseAll? : List (View α) → Option (List (Phrase α))
  | [] => some []
  | v :: vs => do return (← phrase? v) :: (← phraseAll? vs)

end

mutual

/-- The nodes of a view that have no children, from left to right. -/
def leaves : View α → List (NodeKind α × Span)
  | .gap _ => []
  | .node _ kind span [] => [(kind, span)]
  | .node _ _ _ (child :: children) => leavesAll (child :: children)

/-- The leaves of views one after the other. -/
def leavesAll : List (View α) → List (NodeKind α × Span)
  | [] => []
  | v :: vs => leaves v ++ leavesAll vs

end

theorem phraseAll?_cons {v : View α} {vs : List (View α)} {ps : List (Phrase α)}
    (h : phraseAll? (v :: vs) = some ps) :
    ∃ q qs, phrase? v = some q ∧ phraseAll? vs = some qs ∧ ps = q :: qs := by
  rw [phraseAll?] at h
  cases hq : phrase? v with
  | none => rw [hq] at h; cases h
  | some q =>
    cases hqs : phraseAll? vs with
    | none => rw [hq, hqs] at h; cases h
    | some qs =>
      rw [hq, hqs] at h
      exact ⟨q, qs, rfl, rfl, (Option.some.inj h).symm⟩

theorem phraseAll?_append {vs ws : List (View α)} {ps qs : List (Phrase α)}
    (hv : phraseAll? vs = some ps) (hw : phraseAll? ws = some qs) :
    phraseAll? (vs ++ ws) = some (ps ++ qs) := by
  induction vs generalizing ps with
  | nil =>
    obtain rfl := Option.some.inj hv
    exact hw
  | cons v vs ih =>
    obtain ⟨p, rest, hp, hrest, rfl⟩ := phraseAll?_cons hv
    rw [List.cons_append, phraseAll?, hp, ih hrest]
    rfl

@[simp] theorem leavesAll_append : ∀ vs ws : List (View α),
    leavesAll (vs ++ ws) = leavesAll vs ++ leavesAll ws
  | [], ws => by rw [leavesAll]; rfl
  | v :: vs, ws => by
    rw [List.cons_append, leavesAll, leavesAll, leavesAll_append vs ws, List.append_assoc]

end View

/-- The phrase that a tree shows from its root. -/
def Tree.phrase? (t : Tree α) : Option (Phrase α) := (t.view t.root).phrase?

/-- The leaves of a tree from left to right. -/
def Tree.leaves (t : Tree α) : List (NodeKind α × Span) := (t.view t.root).leaves

/-- Wherever the phrases are laid out, they read back as themselves, and their leaves keep the
tokens `ts`. -/
def Shows (ps : List (Phrase α)) (ts : List (Token α)) : Prop :=
  ∀ start, View.phraseAll? (Phrase.viewAllFrom start ps) = some ps ∧
    View.leavesAll (Phrase.viewAllFrom start ps) = ts.map Token.asLeaf

namespace Shows

open Phrase View

variable {ps qs : List (Phrase α)} {ts us : List (Token α)}

theorem leaf (t : Token α) : Shows [.leaf t.kind.leafKind t.span] [t] := by
  intro start
  obtain ⟨kind, span⟩ := t
  rw [viewAllFrom, viewAllFrom, viewFrom]
  cases kind <;> exact ⟨rfl, rfl⟩

theorem token {t : Token α} (h : t.kind.leafKind = .token t.kind) : Shows [.ofToken t] [t] := by
  have hleaf := leaf t
  rwa [h] at hleaf

/-- What a rule puts together shows as one phrase with the leaves of its parts. -/
theorem viewFrom_node (rule : Rule) (h : Shows ps ts) (hne : ps ≠ []) (start : Nat) :
    (viewFrom start (.node rule ps)).phrase? = some (.node rule ps) ∧
      (viewFrom start (.node rule ps)).leaves = ts.map Token.asLeaf := by
  obtain ⟨hphrase, hleaves⟩ := h start
  rw [viewFrom]
  cases ps with
  | nil => exact absurd rfl hne
  | cons p ps =>
    rw [viewAllFrom] at hphrase hleaves ⊢
    refine ⟨?_, ?_⟩
    · rw [phrase?, hphrase]
      rfl
    · rw [leaves, hleaves]

theorem node (rule : Rule) (h : Shows ps ts) (hne : ps ≠ []) : Shows [.node rule ps] ts := by
  intro start
  obtain ⟨hphrase, hleaves⟩ := h.viewFrom_node rule hne start
  rw [viewAllFrom, viewAllFrom]
  refine ⟨?_, ?_⟩
  · rw [phraseAll?, hphrase]
    rfl
  · rw [leavesAll, hleaves, leavesAll, List.append_nil]

theorem append (h : Shows ps ts) (h' : Shows qs us) : Shows (ps ++ qs) (ts ++ us) := by
  intro start
  obtain ⟨hphrase, hleaves⟩ := h start
  obtain ⟨hphrase', hleaves'⟩ := h' (start + sizeAll ps)
  rw [viewAllFrom_append]
  refine ⟨phraseAll?_append hphrase hphrase', ?_⟩
  rw [leavesAll_append, hleaves, hleaves', List.map_append]

end Shows

theorem Rule.leafKind_of_joins {rule : Rule} {k : TokenKind α} (h : rule.joins k = true) :
    k.leafKind = .token k := by
  cases rule <;> cases k <;> first | rfl | cases h

theorem TokenKind.leafKind_of_isSign {k : TokenKind α} (h : k.isSign = true) :
    k.leafKind = .token k := by
  cases k <;> first | rfl | cases h

namespace Derivation

variable {rule : Rule}

/-- The parts of a derivation show its yield. -/
theorem shows_parts (d : Derivation α rule) : Shows d.parts d.yield := by
  induction d with
  | returned keyword value ih => exact (Shows.token rfl).append (ih.node _ value.parts_ne_nil)
  | assigned target sign value iht ihv =>
    exact (iht.node _ target.parts_ne_nil).append
      ((Shows.token rfl).append (ihv.node _ value.parts_ne_nil))
  | first h d ih => exact ih.node _ d.parts_ne_nil
  | link h left op hop right ihl ihr =>
    exact ihl.append
      ((Shows.token (Rule.leafKind_of_joins hop)).append (ihr.node _ right.parts_ne_nil))
  | signed sign hsign inner ih =>
    exact (Shows.token (TokenKind.leafKind_of_isSign hsign)).append
      (ih.node _ inner.parts_ne_nil)
  | unsigned atom ih => exact ih.node _ atom.parts_ne_nil
  | number text span => exact Shows.leaf ⟨.number text, span⟩
  | ident name span => exact Shows.leaf ⟨.ident name, span⟩
  | parens opening inner closing ih =>
    exact (Shows.token rfl).append ((ih.node _ inner.parts_ne_nil).append (Shows.token rfl))

/-- Wherever a derivation is laid out, it reads back as its phrase, and its leaves keep the tokens
of the line. -/
theorem reads_viewFrom (d : Derivation α rule) (start : Nat) :
    (d.phrase.viewFrom start).phrase? = some d.phrase ∧
      (d.phrase.viewFrom start).leaves = d.yield.map Token.asLeaf :=
  d.shows_parts.viewFrom_node rule d.parts_ne_nil start

/-- The tree of a derivation reads back like that. -/
theorem reads_toTree (d : Derivation α rule) :
    d.phrase.toTree.phrase? = some d.phrase ∧
      d.phrase.toTree.leaves = d.yield.map Token.asLeaf := by
  rw [Tree.phrase?, Tree.leaves, Phrase.view_toTree]
  exact d.reads_viewFrom 0

end Derivation

end Reckoner
