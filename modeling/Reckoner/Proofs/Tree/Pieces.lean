import Reckoner.Proofs.Tree.Places

/-!
The pieces of a phrase. Each node in the table of a phrase is the top of one of its pieces, whose
other nodes stand right in front of it; so what a walk meets from any index, and not only from the
root, is a piece as it was laid out. -/

namespace Reckoner

variable {α : Type} {P : Span → Prop}

namespace Phrase

/-- Laying out `p` from `n` on lays out `q`, which is `p` or stands somewhere in it, from `m` on. -/
inductive Piece (q : Phrase α) (m : Nat) : Phrase α → Nat → Prop where
  | whole : Piece q m q m
  | part {rule : Rule} {before after : List (Phrase α)} {p : Phrase α} {n : Nat}
      (h : Piece q m p (n + sizeAll before)) : Piece q m (.node rule (before ++ p :: after)) n

/-! ### Indices -/

mutual

/-- Each index that laying out a phrase fills is the last one of a piece. -/
theorem exists_piece : ∀ (p : Phrase α) (n i : Nat), n ≤ i → i < n + p.size →
    ∃ q m, Piece q m p n ∧ i = m + q.size - 1
  | .leaf kind span, n, i, hn, hi => by
    rw [size] at hi
    refine ⟨.leaf kind span, n, .whole, ?_⟩
    rw [size]
    omega
  | .node rule parts, n, i, hn, hi => by
    rw [size] at hi
    by_cases htop : i = n + sizeAll parts
    · refine ⟨.node rule parts, n, .whole, ?_⟩
      rw [size]
      omega
    · obtain ⟨before, p, after, q, m, rfl, hpiece, hq⟩ := exists_piece_all parts n i hn (by omega)
      exact ⟨q, m, .part hpiece, hq⟩

/-- Each index that laying out phrases fills is the last one of a piece of one of them. -/
theorem exists_piece_all : ∀ (ps : List (Phrase α)) (n i : Nat), n ≤ i → i < n + sizeAll ps →
    ∃ before p after q m, ps = before ++ p :: after ∧ Piece q m p (n + sizeAll before) ∧
      i = m + q.size - 1
  | [], n, i, hn, hi => by
    rw [sizeAll] at hi
    omega
  | p :: ps, n, i, hn, hi => by
    rw [sizeAll] at hi
    by_cases hfirst : i < n + p.size
    · obtain ⟨q, m, hpiece, hq⟩ := exists_piece p n i hn hfirst
      exact ⟨[], p, ps, q, m, rfl, by rwa [sizeAll], hq⟩
    · obtain ⟨before, p', after, q, m, rfl, hpiece, hq⟩ :=
        exists_piece_all ps (n + p.size) i (by omega) (by omega)
      exact ⟨p :: before, p', after, q, m, rfl, by rwa [sizeAll, ← Nat.add_assoc], hq⟩

end

variable {p q : Phrase α} {m n : Nat}

/-- The nodes of a piece stand together among those of the phrase. -/
theorem Piece.exists_nodesFrom (h : Piece q m p n) : ∀ {xs ys : List (Node α)}, xs.length = n →
    ∃ xs' ys', xs ++ (p.nodesFrom n ++ ys) = xs' ++ (q.nodesFrom m ++ ys') ∧ xs'.length = m := by
  induction h with
  | whole => exact fun {xs ys} hxs => ⟨xs, ys, rfl, hxs⟩
  | @part rule before after p n h ih =>
    intro xs ys hxs
    have hlength : (xs ++ nodesAllFrom n before).length = n + sizeAll before := by
      rw [List.length_append, length_nodesAllFrom, hxs]
    obtain ⟨xs', ys', hnodes, hxs'⟩ := @ih (xs ++ nodesAllFrom n before)
      (nodesAllFrom (n + sizeAll before + p.size) after ++
        [(Phrase.node rule (before ++ p :: after)).topFrom n] ++ ys) hlength
    refine ⟨xs', ys', ?_, hxs'⟩
    rw [← hnodes, nodesFrom_eq, partsOf, nodesAllFrom_append, nodesAllFrom]
    simp only [List.append_assoc]

/-- From the last index of a piece, a walk through the tree of a phrase meets that piece. -/
theorem Piece.of_toTree (h : Piece q m p 0) :
    p.toTree.nodes[m + q.size - 1]? = some (q.topFrom m) ∧
      p.toTree.view (m + q.size - 1) = q.viewFrom m ∧
      (q.topFrom m).children.map (fun child => p.toTree.nodes[child]?.map Node.span)
        = (spanAll q.partsOf).map some := by
  obtain ⟨xs, ys, hnodes, hxs⟩ := @Piece.exists_nodesFrom α p q m 0 h [] [] rfl
  rw [List.nil_append, List.append_nil, ← toList_nodes_toTree] at hnodes
  have hsize : q.size ≤ p.toTree.nodes.size := by
    have hlength := congrArg List.length hnodes
    rw [Array.length_toList, List.length_append, List.length_append, length_nodesFrom] at hlength
    omega
  subst hxs
  refine ⟨?_, ?_, ?_⟩
  · rw [← Array.getElem?_toList, hnodes, getElem?_nodesFrom]
  · exact view_of_nodesFrom q xs ys p.toTree.nodes p.toTree.nodes.size hnodes hsize
  · rw [children_topFrom, ← map_span_idsFrom q.partsOf xs ([q.topFrom xs.length] ++ ys),
      ← List.append_assoc (nodesAllFrom _ _), ← nodesFrom_eq, ← hnodes]
    simp only [Array.getElem?_toList]

/-- Each node of the tree of a phrase is the top of a piece. -/
theorem exists_piece_toTree (p : Phrase α) {id : Nat} (hid : id < p.toTree.nodes.size) :
    ∃ q m, Piece q m p 0 ∧ id = m + q.size - 1 := by
  rw [size_nodes_toTree] at hid
  exact exists_piece p 0 id (Nat.zero_le id) (by omega)

/-! ### What is met below a node -/

mutual

/-- A walk meets pieces only. -/
theorem placed_of_pieces : ∀ (p : Phrase α) (n : Nat), (∀ q m, Piece q m p n → P q.span) →
    (p.viewFrom n).Placed P
  | .leaf kind span, n, h => by
    have hspan := h _ n .whole
    rw [Phrase.span] at hspan
    rw [viewFrom]
    exact .node hspan nofun
  | .node rule parts, n, h => by
    have hspan := h _ n .whole
    rw [Phrase.span] at hspan
    rw [viewFrom]
    refine .node hspan (placed_all_of_pieces parts n ?_)
    rintro before p after q m rfl hpiece
    exact h q m (.part hpiece)

theorem placed_all_of_pieces : ∀ (ps : List (Phrase α)) (n : Nat),
    (∀ before p after q m, ps = before ++ p :: after → Piece q m p (n + sizeAll before) →
      P q.span) → ∀ v ∈ viewAllFrom n ps, v.Placed P
  | [], n, _ => by simp [viewAllFrom]
  | p :: ps, n, h => by
    rw [viewAllFrom]
    refine List.forall_mem_cons.2 ⟨placed_of_pieces p n fun q m hpiece => ?_,
      placed_all_of_pieces ps (n + p.size) ?_⟩
    · exact h [] p ps q m rfl (by rwa [sizeAll])
    · rintro before p' after q m rfl hpiece
      exact h (p :: before) p' after q m rfl (by rwa [sizeAll, ← Nat.add_assoc])

end

end Phrase

end Reckoner
