import Reckoner.Proofs.Evaluation.Correspondence
import Reckoner.Proofs.Sides

/-!
What lines read and assign to. A line looks up the names on its evaluated side and assigns to the
variable that its other side consists of; of a line that parses both are told by its tokens. A name
is live in front of some lines if one of them reads it and none before that line assigns to it. -/

namespace Reckoner

variable {α V E : Type}

/-! ### Live names -/

/-- The names that a line reads, and the one that it assigns to. -/
structure Usage (α : Type) where
  reads : List α
  target? : Option α

/-- Whether one of some lines reads a name that none of the lines before it assigns to. -/
def LiveIn (x : α) (us : List (Usage α)) : Prop :=
  ∃ before u after, us = before ++ u :: after ∧ x ∈ u.reads ∧
    ∀ earlier ∈ before, earlier.target? ≠ some x

theorem not_liveIn_nil (x : α) : ¬LiveIn x [] := by
  rintro ⟨before, u, after, h, -⟩
  cases before <;> cases h

theorem liveIn_cons {x : α} {u : Usage α} {us : List (Usage α)} :
    LiveIn x (u :: us) ↔ x ∈ u.reads ∨ u.target? ≠ some x ∧ LiveIn x us := by
  constructor
  · rintro ⟨before, u', after, h, hread, hbefore⟩
    cases before with
    | nil =>
      obtain ⟨rfl, -⟩ := List.cons.inj h
      exact .inl hread
    | cons first before =>
      obtain ⟨rfl, rfl⟩ := List.cons.inj h
      obtain ⟨hfirst, hbefore⟩ := List.forall_mem_cons.1 hbefore
      exact .inr ⟨hfirst, before, u', after, rfl, hread, hbefore⟩
  · rintro (hread | ⟨hu, before, u', after, rfl, hread, hbefore⟩)
    · exact ⟨[], u, us, rfl, hread, fun _ h => absurd h List.not_mem_nil⟩
    · exact ⟨u :: before, u', after, rfl, hread, List.forall_mem_cons.2 ⟨hu, hbefore⟩⟩

/-! ### The usage of a tree -/

namespace View

/-- The variable in front of the sign of an assignment. -/
def target? (v : View α) : Option α :=
  match v.children with
  | [target, _, _] => target.soleVariable?
  | _ => none

theorem soleVariable?_of_assignee {text : α → String} {v : View α} {name : α}
    (h : (v.assignee text : Except (EvalError E) α) = .ok name) : v.soleVariable? = some name := by
  rw [assignee] at h
  cases hgap : v.firstGap? with
  | some id => rw [hgap] at h; cases h
  | none =>
    rw [hgap] at h
    cases hsole : v.soleVariable? with
    | none => rw [hsole] at h; cases h
    | some name' => rw [hsole] at h; rw [Except.ok.inj h]

variable [Value V E] {scope : Scope α V}

theorem exists_of_concluding {value : View α} {log : Log V} {next : V → Log V → Outcome α V × Log V}
    {o : Outcome α V} (h : (concluding scope value log next).1 = .ok o) :
    ∃ v log', (next v log').1 = o := by
  rw [concluding] at h
  generalize operand scope .equation value log = r at h
  rcases r with ⟨e | v, log'⟩
  · cases h
  · exact ⟨v, log', Except.ok.inj h⟩

/-- Only the variable in front of the sign is assigned to. -/
theorem target?_of_assigned {v : View α} {log : Log V} {name : α} {value : V}
    (h : (v.evaluate scope log).1 = .ok (.assigned name value)) : v.target? = some name := by
  match v with
  | .gap _ => cases h
  | .node _ (.rule .equation) _ children =>
    match children with
    | [] | [_] | _ :: _ :: _ :: _ :: _ => cases h
    | [keyword, right] =>
      cases keyword with
      | gap _ => cases h
      | node _ kind _ _ =>
        cases kind with
        | token k =>
          cases k with
          | ret =>
            obtain ⟨v, log', hv⟩ := exists_of_concluding h
            cases hv
          | _ => cases h
        | _ => cases h
    | [target, eq, right] =>
      cases eq with
      | gap _ => cases h
      | node _ kind _ _ =>
        cases kind with
        | token k =>
          cases k with
          | eq =>
            rw [evaluate] at h
            cases hname : target.assignee (E := E) scope.text with
            | error e => rw [hname] at h; cases h
            | ok name' =>
              rw [hname] at h
              obtain ⟨v, log', hv⟩ := exists_of_concluding h
              obtain ⟨rfl, -⟩ := Outcome.assigned.inj hv
              exact soleVariable?_of_assignee hname
          | _ => cases h
        | _ => cases h
  | .node _ (.rule .expression) _ _ | .node _ (.rule .term) _ _ | .node _ (.rule .factor) _ _
  | .node _ (.rule .signedAtom) _ _ | .node _ (.rule .atom) _ _ | .node _ (.scientific _) _ _
  | .node _ (.variable _) _ _ | .node _ (.token _) _ _ => cases h

end View

/-- The names that a tree reads as a line, and the one that it assigns to. -/
def Tree.usage (t : Tree α) : Usage α := ⟨t.reads, (t.view t.root).target?⟩

/-! ### The usage of a line -/

/-- The identifiers on the side of a line that is evaluated, and the one that the other side consists
of. -/
def Usage.ofLine (ts : List (Token α)) : Usage α where
  reads := (valueSide (ts.map Token.kind)).filterMap TokenKind.ident?
  target? :=
    match targetSide (ts.map Token.kind) with
    | [k] => k.ident?
    | _ => none

/-- The parser builds the tree from the tokens of a line. -/
def Tree.Parsed (ts : List (Token α)) (tree : Tree α) : Prop :=
  ∃ eof, (Phrase.ofLine ts eof).map Phrase.toTree = .ok tree

theorem TokenKind.ident?_of_leafKind {k : TokenKind α} (h : k.leafKind = .token k) :
    k.ident? = none := by
  cases k <;> first | rfl | cases h

namespace View

@[simp] theorem namesAll_append : ∀ vs ws : List (View α),
    namesAll (vs ++ ws) = namesAll vs ++ namesAll ws
  | [], _ => by rw [namesAll]; rfl
  | v :: vs, ws => by
    rw [List.cons_append, namesAll, namesAll, namesAll_append vs ws, List.append_assoc]

end View

namespace Phrase

@[simp] theorem names_viewFrom_node (rule : Rule) (ps : List (Phrase α)) (n : Nat) :
    ((node rule ps).viewFrom n).names = View.namesAll (viewAllFrom n ps) := by
  rw [viewFrom, View.names]

@[simp] theorem names_viewFrom_ofToken (t : Token α) (n : Nat) :
    ((ofToken t).viewFrom n).names = [] :=
  rfl

end Phrase

namespace Derivation

open Phrase View

variable {rule : Rule}

theorem namesAll_parts (d : Derivation α rule) (n : Nat) :
    namesAll (viewAllFrom n d.parts) = d.kinds.filterMap TokenKind.ident? := by
  induction d generalizing n with
  | returned keyword value ih =>
    simp only [parts, viewAllFrom, namesAll, names_viewFrom_node, names_viewFrom_ofToken, ih,
      kinds_returned, List.nil_append, List.append_nil]
    rfl
  | assigned target sign value iht ihv =>
    simp only [parts, viewAllFrom, namesAll, names_viewFrom_node, names_viewFrom_ofToken, iht, ihv,
      kinds_assigned, List.filterMap_append, List.nil_append, List.append_nil]
    rfl
  | first h d ih =>
    simp only [parts, viewAllFrom, namesAll, names_viewFrom_node, ih, List.append_nil]
    rfl
  | link h left op hop right ihl ihr =>
    have hident : op.kind.ident? = none := TokenKind.ident?_of_leafKind (Rule.leafKind_of_joins hop)
    simp only [parts, viewAllFrom_append, namesAll_append, viewAllFrom, namesAll,
      names_viewFrom_node, names_viewFrom_ofToken, ihl, ihr, kinds_link, List.filterMap_append,
      List.filterMap_cons_none hident, List.nil_append, List.append_nil]
  | signed sign hsign inner ih =>
    have hident : sign.kind.ident? = none :=
      TokenKind.ident?_of_leafKind (TokenKind.leafKind_of_isSign hsign)
    simp only [parts, viewAllFrom, namesAll, names_viewFrom_node, names_viewFrom_ofToken, ih,
      kinds, yield, List.map_cons, List.filterMap_cons_none hident, List.nil_append,
      List.append_nil]
  | unsigned atom ih =>
    simp only [parts, viewAllFrom, namesAll, names_viewFrom_node, ih, List.append_nil]
    rfl
  | number text span => rfl
  | ident name span => rfl
  | parens opening inner closing ih =>
    simp only [parts, viewAllFrom, namesAll, names_viewFrom_node, names_viewFrom_ofToken, ih,
      kinds_parens, List.nil_append, List.append_nil]
    rw [List.filterMap_cons_none rfl, List.filterMap_append]
    exact (List.append_nil _).symm

/-- The variables of a derivation are the identifiers among its tokens. -/
theorem names_viewFrom (d : Derivation α rule) (n : Nat) :
    (d.phrase.viewFrom n).names = d.kinds.filterMap TokenKind.ident? := by
  rw [phrase, names_viewFrom_node, namesAll_parts]

/-- The tree of a derivation uses what is told by its tokens. -/
theorem usage_toTree (d : Derivation α .equation) : d.phrase.toTree.usage = .ofLine d.yield := by
  rw [Tree.usage, Tree.reads, view_toTree, Usage.ofLine]
  cases d with
  | returned keyword value =>
    have hreads : ((returned keyword value).phrase.viewFrom 0).reads
        = (value.phrase.viewFrom 1).names := rfl
    rw [hreads, value.names_viewFrom]
    rfl
  | assigned target sign value =>
    have hreads : ((assigned target sign value).phrase.viewFrom 0).reads
        = (value.phrase.viewFrom (0 + target.phrase.size + 1)).names := rfl
    have htarget : ((assigned target sign value).phrase.viewFrom 0).target?
        = (target.phrase.viewFrom 0).soleVariable? := rfl
    have hkinds : (assigned target sign value).yield.map Token.kind
        = target.kinds ++ .eq :: value.kinds := kinds_assigned target sign value
    rw [hreads, htarget, hkinds, value.names_viewFrom, valueSide_assigned, targetSide_assigned,
      target.soleVariable?_viewFrom (by decide), soleIdent?_eq]
    rfl
  | first hc => cases hc
  | link hc => cases hc

end Derivation

theorem Tree.Parsed.usage_eq {ts : List (Token α)} {tree : Tree α} (h : tree.Parsed ts) :
    tree.usage = .ofLine ts := by
  obtain ⟨eof, h⟩ := h
  cases hline : Phrase.ofLine ts eof with
  | error e => rw [hline] at h; cases h
  | ok p =>
    rw [hline] at h
    obtain rfl := Except.ok.inj h
    obtain ⟨d, rfl, rfl⟩ := (Phrase.ofLine_eq_ok_iff eof).1 hline
    exact d.usage_toTree

theorem Tree.map_usage {lines : List (List (Token α))} {trees : List (Tree α)}
    (h : List.Forall₂ Tree.Parsed lines trees) : trees.map usage = lines.map Usage.ofLine := by
  induction h with
  | nil => rfl
  | cons h _ ih => rw [List.map_cons, List.map_cons, h.usage_eq, ih]

end Reckoner
