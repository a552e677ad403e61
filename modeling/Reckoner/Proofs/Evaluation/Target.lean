import Reckoner.Proofs.Evaluation.Meaning
import Reckoner.Proofs.Tree.Reading

/-!
What the left side of an assignment is read for. In a view without gaps the walks that look for a
gap and for the source text find what is written there, and the variable to assign to is the
identifier that the left side consists of. -/

namespace Reckoner

variable {α : Type}

namespace View

/-- The text that a leaf writes. -/
def leafText (text : α → String) (leaf : NodeKind α × Span) : String :=
  (ownText? text leaf.1).getD ""

mutual

/-- A view that shows a phrase has no gap. -/
theorem firstGap?_eq_none : ∀ {v : View α} {p : Phrase α}, v.phrase? = some p →
    v.firstGap? = none
  | .gap _, _, h => by cases h
  | .node _ (.rule rule) _ children, _, h => by
    rw [phrase?] at h
    obtain ⟨ps, hps, -⟩ := Option.map_eq_some_iff.1 h
    rw [firstGap?, firstGapAll?_eq_none hps]
    exact nofun
  | .node _ (.scientific _) _ [], _, _ | .node _ (.variable _) _ [], _, _
  | .node _ (.token _) _ [], _, _ => rfl
  | .node _ (.scientific _) _ (_ :: _), _, h | .node _ (.variable _) _ (_ :: _), _, h
  | .node _ (.token _) _ (_ :: _), _, h => by cases h

theorem firstGapAll?_eq_none : ∀ {vs : List (View α)} {ps : List (Phrase α)},
    phraseAll? vs = some ps → firstGapAll? vs = none
  | [], _, _ => rfl
  | v :: vs, _, h => by
    obtain ⟨q, qs, hq, hqs, -⟩ := phraseAll?_cons h
    rw [firstGapAll?, firstGap?_eq_none hq, firstGapAll?_eq_none hqs, Option.none_or]

end

mutual

/-- A view that shows a phrase writes what its leaves write. -/
theorem text?_of_phrase? (text : α → String) : ∀ {v : View α} {p : Phrase α},
    v.phrase? = some p → v.text? text = some (String.join (v.leaves.map (leafText text)))
  | .gap _, _, h => by cases h
  | .node _ (.rule rule) _ [], _, _ => rfl
  | .node _ (.rule rule) _ (child :: children), _, h => by
    rw [phrase?] at h
    obtain ⟨ps, hps, -⟩ := Option.map_eq_some_iff.1 h
    rw [text?, ownText?, textAll?_of_phraseAll? text hps, leaves]
  | .node _ (.scientific _) _ [], _, _ | .node _ (.variable _) _ [], _, _
  | .node _ (.token _) _ [], _, _ => by
    simp [text?, ownText?, leaves, leafText, String.join_cons, String.join_nil]
  | .node _ (.scientific _) _ (_ :: _), _, h | .node _ (.variable _) _ (_ :: _), _, h
  | .node _ (.token _) _ (_ :: _), _, h => by cases h

theorem textAll?_of_phraseAll? (text : α → String) : ∀ {vs : List (View α)}
    {ps : List (Phrase α)}, phraseAll? vs = some ps →
    textAll? text vs = some (String.join ((leavesAll vs).map (leafText text)))
  | [], _, _ => rfl
  | v :: vs, _, h => by
    obtain ⟨q, qs, hq, hqs, -⟩ := phraseAll?_cons h
    rw [textAll?, text?_of_phrase? text hq, textAll?_of_phraseAll? text hqs, leavesAll,
      List.map_append, String.join_append]
    rfl

end

end View

/-- The leaf of a token writes the text of the token. -/
theorem Token.leafText_asLeaf (text : α → String) (t : Token α) :
    View.leafText text t.asLeaf = t.text text := by
  obtain ⟨kind, span⟩ := t
  cases kind <;> rfl

theorem soleIdent?_eq_none {ts : List (Token α)} (h : 2 ≤ ts.length) : soleIdent? ts = none := by
  rcases ts with - | ⟨t, - | ⟨u, ts⟩⟩
  · cases h
  · exact absurd h (by simp)
  · rw [soleIdent?]
    exact nofun

namespace Derivation

variable {rule : Rule}

theorem soleVariable?_only {rule : Rule} (hrule : rule ≠ .equation) (p : Phrase α) (n : Nat) :
    ((Phrase.node rule [p]).viewFrom n).soleVariable? = (p.viewFrom n).soleVariable? := by
  rw [Phrase.viewFrom, Phrase.viewAllFrom, Phrase.viewAllFrom, View.soleVariable?, if_neg hrule]

theorem soleVariable?_eq_none (rule : Rule) {ps : List (Phrase α)} (h : 2 ≤ ps.length) (n : Nat) :
    ((Phrase.node rule ps).viewFrom n).soleVariable? = none := by
  rcases ps with - | ⟨p, - | ⟨q, ps⟩⟩
  · cases h
  · exact absurd h (by simp)
  · rfl

/-- Below a rule other than an equation, the walk for a variable finds the identifier that stands
alone. -/
theorem soleVariable?_viewFrom (d : Derivation α rule) (hrule : rule ≠ .equation) (n : Nat) :
    (d.phrase.viewFrom n).soleVariable? = soleIdent? d.yield := by
  induction d with
  | returned | assigned => exact absurd rfl hrule
  | first h d ih => exact (soleVariable?_only hrule d.phrase n).trans (ih h.operand_ne)
  | link h left op hop right ihl ihr =>
    have hparts := List.length_pos_iff.2 left.parts_ne_nil
    have hyield := List.length_pos_iff.2 left.yield_ne_nil
    rw [soleIdent?_eq_none]
    · refine soleVariable?_eq_none _ ?_ n
      simp [parts]
    · simp [yield]
      omega
  | signed sign hsign inner ih =>
    have hyield := List.length_pos_iff.2 inner.yield_ne_nil
    rw [soleIdent?_eq_none]
    · rfl
    · rw [yield, List.length_cons]
      omega
  | unsigned atom ih => exact (soleVariable?_only hrule atom.phrase n).trans (ih (by decide))
  | number text span => rfl
  | ident name span => rfl
  | parens opening inner closing ih =>
    rw [soleIdent?_eq_none]
    · rfl
    · simp [yield]

variable {E : Type}

/-- Failures at a derivation are found at its extent. -/
theorem fail_viewFrom {d : Derivation α rule} (hd : Token.InOrder d.yield) (shape : Unsupported)
    (n : Nat) :
    ((d.phrase.viewFrom n).fail shape : EvalError E) = .unsupported shape d.extent := by
  rw [← span_phrase hd]
  rfl

/-- The left side of an assignment gives the identifier that it consists of, and is named as it
stands in the line if it is none. -/
theorem assignee_viewFrom (text : α → String) {d : Derivation α rule} (hrule : rule ≠ .equation)
    (hd : Token.InOrder d.yield) (n : Nat) :
    ((d.phrase.viewFrom n).assignee text : Except (EvalError E) α)
      = match soleIdent? d.yield with
        | some name => .ok name
        | none => .error (.unsupported (.target (String.join (d.yield.map (Token.text text))))
            d.extent) := by
  obtain ⟨hphrase, hleaves⟩ := d.reads_viewFrom n
  have htext := View.text?_of_phrase? text hphrase
  have hleaf : View.leafText text ∘ Token.asLeaf = Token.text text :=
    funext (Token.leafText_asLeaf text)
  rw [hleaves, List.map_map, hleaf] at htext
  rw [View.assignee, View.firstGap?_eq_none hphrase, d.soleVariable?_viewFrom hrule n, htext,
    fail_viewFrom hd]
  cases soleIdent? d.yield with
  | some name => rfl
  | none => rfl

end Derivation

end Reckoner
