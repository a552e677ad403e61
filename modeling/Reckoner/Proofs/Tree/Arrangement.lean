import Mathlib.Data.List.Nodup
import Reckoner.Proofs.Parse.Threading
import Reckoner.Proofs.Tree.Faithful

/-!
The arrangement of a parsed tree. Its table is the tree in post-order and nothing else: the lists of
children have each node but the root once, and what stands below a node is a run of indices that
ends at the node, with the runs of its children one behind the other. A builder that is told to add
these nodes in this order fills the table of lists without gaps. -/

namespace Reckoner

variable {α : Type}

/-- Whether a node of this kind has parts of its own. -/
def NodeKind.isRule : NodeKind α → Bool
  | .rule _ => true
  | _ => false

/-- The table of a tree is the tree in post-order. -/
structure Tree.Postordered (t : Tree α) : Prop where
  root : t.root + 1 = t.nodes.size
  top : ∀ (id : Nat) (n : Node α), t.nodes[id]? = some n → t.root ∉ n.children
  parent : ∀ id < t.nodes.size, id ≠ t.root → ∃ (parent : Nat) (n : Node α),
    t.nodes[parent]? = some n ∧ n.children.count id = 1 ∧
      ∀ (other : Nat) (m : Node α), t.nodes[other]? = some m → id ∈ m.children → other = parent
  below : ∀ (id : Nat) (n : Node α), t.nodes[id]? = some n →
    t.below id = n.children.flatMap t.below ++ [id]
  interval : ∀ id < t.nodes.size, ∃ first ≤ id, t.below id = List.range' first (id + 1 - first)
  interior : ∀ (id : Nat) (n : Node α), t.nodes[id]? = some n →
    (n.kind.isRule = true ↔ n.children ≠ [])

namespace Arena

variable {a : Arena α} {id root : Nat}

/-- No index is in the lists of two nodes. -/
theorem eq_of_mem_children (h : (a.toList.flatMap Node.children).Nodup) {i j : Nat} {n m : Node α}
    (hn : a[i]? = some n) (hm : a[j]? = some m) (hin : id ∈ n.children) (him : id ∈ m.children) :
    i = j := by
  have hpairwise := (List.nodup_flatMap.1 h).2
  rw [List.pairwise_iff_getElem] at hpairwise
  obtain ⟨hi, rfl⟩ := Array.getElem?_eq_some_iff.1 hn
  obtain ⟨hj, rfl⟩ := Array.getElem?_eq_some_iff.1 hm
  rcases Nat.lt_trichotomy i j with hlt | heq | hgt
  · exact absurd him (hpairwise i j hi hj hlt hin)
  · exact heq
  · exact absurd hin (hpairwise j i hj hi hgt him)

/-- Where the lists of children have each index once, but for one, each other index is in one place
of one list. -/
theorem exists_parent
    (h : (a.toList.flatMap Node.children ++ [root]).Perm (List.range a.size)) (hid : id < a.size)
    (hne : id ≠ root) : ∃ (parent : Nat) (n : Node α), a[parent]? = some n ∧
      n.children.count id = 1 ∧
        ∀ (other : Nat) (m : Node α), a[other]? = some m → id ∈ m.children → other = parent := by
  have hnodup : (a.toList.flatMap Node.children).Nodup :=
    (List.nodup_append.1 (h.nodup_iff.2 List.nodup_range)).1
  have hmem : id ∈ a.toList.flatMap Node.children := by
    have hrange := h.mem_iff.2 (List.mem_range.2 hid)
    simpa [hne] using hrange
  obtain ⟨n, hn, hin⟩ := List.mem_flatMap.1 hmem
  obtain ⟨parent, hparent⟩ := List.mem_iff_getElem?.1 hn
  rw [Array.getElem?_toList] at hparent
  exact ⟨parent, n, hparent, List.count_eq_one_of_mem ((List.nodup_flatMap.1 hnodup).1 n hn) hin,
    fun other m hm him => eq_of_mem_children hnodup hm hparent him hin⟩

end Arena

namespace Phrase

variable {p q : Phrase α} {m n id : Nat}

/-- The lists of children in the tree of a phrase have each node once, but for the root. -/
theorem perm_children_toTree (p : Phrase α) :
    (p.toTree.nodes.toList.flatMap Node.children ++ [p.toTree.root]).Perm
      (List.range p.toTree.nodes.size) := by
  have hroot : p.toTree.root = 0 + p.size - 1 := by rw [root_toTree, index_viewFrom]
  rw [toList_nodes_toTree, hroot, size_nodes_toTree, List.range_eq_range']
  exact perm_children p 0

/-! ### Runs of indices -/

theorem Piece.part_of_whole {rule : Rule} {before after : List (Phrase α)} {c : Phrase α}
    (h : Piece (.node rule (before ++ c :: after)) m p n) : Piece c (m + sizeAll before) p n := by
  generalize hq : Phrase.node rule (before ++ c :: after) = q at h
  induction h with
  | whole => exact hq ▸ .part .whole
  | part _ ih => exact .part ih

/-- What stands below a piece is a run of indices. -/
theorem Piece.below_eq (h : Piece q m p 0) :
    p.toTree.below (m + q.size - 1) = List.range' m q.size := by
  rw [Tree.below, h.of_toTree.2.1, map_index_postorder]

/-- The runs of pieces that stand one behind the other make up one run. -/
theorem flatMap_below_idsFrom : ∀ (ps : List (Phrase α)) (n : Nat),
    (∀ before c after, ps = before ++ c :: after → Piece c (n + sizeAll before) p 0) →
    (idsFrom n ps).flatMap p.toTree.below = List.range' n (sizeAll ps)
  | [], n, _ => rfl
  | c :: ps, n, h => by
    have hc := h [] c ps rfl
    have hps := flatMap_below_idsFrom ps (n + c.size) ?_
    · rw [idsFrom, sizeAll, List.flatMap_cons, hps, ← List.range'_append_1]
      exact congrArg (· ++ _) hc.below_eq
    · rintro before c' after rfl
      have hc' := h (c :: before) c' after rfl
      rwa [sizeAll, ← Nat.add_assoc] at hc'

/-- Below a piece stands what is below its parts, and then the piece itself. -/
theorem Piece.below_children (h : Piece q m p 0) :
    p.toTree.below (m + q.size - 1)
      = (q.topFrom m).children.flatMap p.toTree.below ++ [m + q.size - 1] := by
  have hparts : (idsFrom m q.partsOf).flatMap p.toTree.below
      = List.range' m (sizeAll q.partsOf) := by
    refine flatMap_below_idsFrom q.partsOf m fun before c after hq => ?_
    cases q with
    | leaf kind span => simp [partsOf] at hq
    | node rule parts =>
      obtain rfl : parts = before ++ c :: after := hq
      exact h.part_of_whole
  rw [h.below_eq, children_topFrom, hparts, size_eq, List.range'_concat, Nat.one_mul]
  rfl

/-! ### Parsed trees -/

/-- What a list of tokens is read as has a derivation. -/
theorem exists_derivation {ts : List (Token α)} (h : ofTokens? ts = some (.ok p)) :
    ∃ d : Derivation α .equation, d.phrase = p := by
  unfold ofTokens? at h
  split at h
  · cases h
  · cases h
  · split at h
    · cases h
    · rename_i s eof rest hs _
      obtain ⟨d, hd, -⟩ := (Parse.State.Spelled.readLine hs).finish (Option.some.inj h)
      exact ⟨d, hd⟩
    · cases h

/-- The pieces of a phrase that spells tokens are its tokens, and what rules make of several parts
or of one. -/
theorem isRule_topFrom_iff {ts : List (Token α)} (h : Spells q ts) (m : Nat) :
    (q.topFrom m).kind.isRule = true ↔ (q.topFrom m).children ≠ [] := by
  cases h with
  | token t =>
    obtain ⟨kind, span⟩ := t
    cases kind <;> simp [topFrom, TokenKind.leafKind, NodeKind.isRule]
  | rule d =>
    obtain ⟨c, cs, hparts⟩ := List.exists_cons_of_ne_nil d.parts_ne_nil
    simp [Derivation.phrase, topFrom, NodeKind.isRule, hparts, idsFrom]

theorem postordered_toTree {rule : Rule} (d : Derivation α rule) : d.phrase.toTree.Postordered := by
  have hperm := perm_children_toTree d.phrase
  have hpiece : ∀ {id : Nat} {n : Node α}, d.phrase.toTree.nodes[id]? = some n →
      ∃ q m, Piece q m d.phrase 0 ∧ id = m + q.size - 1 ∧ n = q.topFrom m := by
    intro id n hn
    obtain ⟨q, m, hpiece, rfl⟩ := exists_piece_toTree d.phrase (Array.getElem?_eq_some_iff.1 hn).1
    exact ⟨q, m, hpiece, rfl, Option.some.inj (hn.symm.trans hpiece.of_toTree.1)⟩
  refine ⟨?_, ?_, fun id hid hne => Arena.exists_parent hperm hid hne, ?_, ?_, ?_⟩
  · rw [size_nodes_toTree, root_toTree, index_viewFrom, size_eq]
    omega
  · intro id n hn hroot
    have hdisjoint := (List.nodup_append.1 (hperm.nodup_iff.2 List.nodup_range)).2.2
    have hmem := Array.mem_toList_iff.2 (Array.mem_of_getElem? hn)
    exact hdisjoint _ (List.mem_flatMap.2 ⟨n, hmem, hroot⟩) _ List.mem_cons_self rfl
  · intro id n hn
    obtain ⟨q, m, hpiece, rfl, rfl⟩ := hpiece hn
    exact hpiece.below_children
  · intro id hid
    obtain ⟨q, m, hpiece, rfl⟩ := exists_piece_toTree d.phrase hid
    have hsize := q.size_eq
    refine ⟨m, by omega, ?_⟩
    rw [hpiece.below_eq]
    congr 1
    omega
  · intro id n hn
    obtain ⟨q, m, hpiece, rfl, rfl⟩ := hpiece hn
    obtain ⟨ts, -, hq⟩ := Spells.exists_piece hpiece (.rule d)
    exact isRule_topFrom_iff hq m

end Phrase

/-- Elements that contribute nothing can be left out. -/
theorem flatMap_filter_eq {β γ : Type} {keep : β → Bool} {f : β → List γ} : ∀ {xs : List β},
    (∀ x ∈ xs, keep x = false → f x = []) → (xs.filter keep).flatMap f = xs.flatMap f
  | [], _ => rfl
  | x :: xs, h => by
    obtain ⟨hx, hxs⟩ := List.forall_mem_cons.1 h
    rw [List.filter_cons, List.flatMap_cons, ← flatMap_filter_eq hxs]
    split
    · rfl
    · rename_i hkeep
      rw [hx (by simpa using hkeep)]
      rfl

/-- The lists of children of the interior nodes of a stored tree stand one behind the other, in the
order of these nodes, and nothing else stands in their table. -/
def Storage.Tiled (s : Storage α) : Prop :=
  (s.nodes.toList.filter (·.kind.isRule)).flatMap (·.stretch.positions) = List.range s.children.size

/-- Nodes that are no rules take up no positions. -/
theorem Storage.Holds.tiled {s : Storage α} {t : Tree α} (h : s.Holds t.nodes)
    (ht : t.Postordered)
    (hall : s.nodes.toList.flatMap (·.stretch.positions) = List.range s.children.size) :
    s.Tiled := by
  rw [Tiled, ← hall]
  refine flatMap_filter_eq fun m hm hkind => ?_
  obtain ⟨id, hid⟩ := List.mem_iff_getElem?.1 hm
  rw [Array.getElem?_toList] at hid
  have hlt : id < t.nodes.size := h.size ▸ (Array.getElem?_eq_some_iff.1 hid).1
  have hnode : t.nodes[id]? = some t.nodes[id] := Array.getElem?_eq_getElem hlt
  obtain ⟨r, hr, hslice⟩ := node?_eq_some_iff.1 ((h.node? id).trans hnode)
  obtain rfl := Option.some.inj (hid.symm.trans hr)
  have hempty : t.nodes[id].children = [] := by
    by_contra hne
    rw [(ht.interior id _ hnode).2 hne] at hkind
    cases hkind
  have hlength := Stretch.length_slice? hslice
  rw [hempty] at hlength
  rw [Stretch.positions, ← hlength]
  rfl

/-- A builder gets to the end of a derivation exactly if there is an index for each node of the
tree: each node but the root takes up one position, so there are fewer positions than nodes. -/
theorem Derivation.exists_made_iff {rule : Rule} (d : Derivation α rule) :
    (∃ ids s, Storage.Made (d.phrase.steps 0) ids s) ↔
      d.phrase.toTree.nodes.size ≤ Storage.limit := by
  have hlength : (d.phrase.steps 0).length = d.phrase.toTree.nodes.size := by
    rw [Phrase.length_steps, Phrase.size_nodes_toTree]
  constructor
  · rintro ⟨ids, s, hmade⟩
    rw [← hlength]
    exact hmade.length_le
  · intro hroom
    refine Storage.Made.exists_of_bottomUp _ d.phrase.bottomUp_steps (hlength ▸ hroom) ?_
    have hchildren := (Phrase.perm_children_toTree d.phrase).length_eq
    rw [List.length_append, List.length_singleton, List.length_range] at hchildren
    rw [Phrase.flatMap_children_steps, ← Phrase.toList_nodes_toTree]
    omega

/-- A list of tokens that parses gives a tree in post-order. There is a storage for it, built bottom
up with the root as the last node, exactly if its nodes do not run out of indices; and every such
storage holds the tree, with no gaps in its table of lists. It is what the parser has stored when it
comes to the end of the line, while it reads, and the parser stops exactly if there is none. -/
theorem parsed_tree_postordered {ts : List (Token α)} {p : Phrase α}
    (h : Phrase.ofTokens? ts = some (.ok p)) :
    p.toTree.Postordered ∧
    ((∃ ids s, Storage.Made (p.steps 0) ids s) ↔ p.toTree.nodes.size ≤ Storage.limit) ∧
    (∀ ids s, Storage.Made (p.steps 0) ids s →
      s.Holds p.toTree.nodes ∧ ids.getLast? = some p.toTree.root ∧ s.Tiled) ∧
    (∀ root s, Building.parse ts = .ok (root, s) ↔
      root = p.toTree.root ∧ ∃ ids, Storage.Made (p.steps 0) ids s) ∧
    (Building.parse ts = .error (.stopped .full) ↔ Storage.limit < p.toTree.nodes.size) := by
  obtain ⟨d, rfl⟩ := Phrase.exists_derivation h
  have hpost := Phrase.postordered_toTree d
  have hbuild : Arena.buildAll? #[] (d.phrase.steps 0) = some d.phrase.toTree.nodes :=
    Arena.buildAll?_steps d.phrase #[]
  have hfull := (Building.parse_eq_full_iff h).trans (not_congr d.exists_made_iff)
  refine ⟨hpost, d.exists_made_iff, fun ids s hmade => ?_,
    fun root s => Building.parse_eq_ok_iff h, hfull.trans Nat.not_le⟩
  obtain ⟨a, ha, -, hholds⟩ := hmade.holds
  obtain rfl := Option.some.inj (ha.symm.trans hbuild)
  refine ⟨hholds, ?_, hholds.tiled hpost hmade.positions_eq.1⟩
  rw [hmade.ids_eq.2, Phrase.length_steps, ← Phrase.size_nodes_toTree, ← hpost.root,
    List.range_succ, List.getLast?_concat]

/-- A sum with parentheses, which has leaves between its rules. -/
theorem parsed_tree_postordered_sum : ∃ p : Phrase Name,
    Phrase.ofTokens? [⟨.ret, ⟨0, 6⟩⟩, ⟨.lparen, ⟨7, 8⟩⟩, ⟨.number ⟨2⟩, ⟨8, 9⟩⟩, ⟨.plus, ⟨9, 10⟩⟩,
      ⟨.ident ⟨3⟩, ⟨10, 11⟩⟩, ⟨.rparen, ⟨11, 12⟩⟩, ⟨.eof, ⟨12, 12⟩⟩] = some (.ok p) ∧
    p.toTree.Postordered ∧ p.toTree.nodes[15]? = some ⟨.rule .atom, ⟨7, 12⟩, [1, 13, 14]⟩ ∧
    ∃ ids s, Storage.Made (p.steps 0) ids s ∧ s.Holds p.toTree.nodes ∧ s.Tiled ∧
      Building.parse [⟨.ret, ⟨0, 6⟩⟩, ⟨.lparen, ⟨7, 8⟩⟩, ⟨.number ⟨2⟩, ⟨8, 9⟩⟩, ⟨.plus, ⟨9, 10⟩⟩,
        ⟨.ident ⟨3⟩, ⟨10, 11⟩⟩, ⟨.rparen, ⟨11, 12⟩⟩, ⟨.eof, ⟨12, 12⟩⟩] = .ok (20, s) := by
  obtain ⟨hpost, hroom, hstored, hparse, -⟩ := @parsed_tree_postordered Name
    [⟨.ret, ⟨0, 6⟩⟩, ⟨.lparen, ⟨7, 8⟩⟩, ⟨.number ⟨2⟩, ⟨8, 9⟩⟩, ⟨.plus, ⟨9, 10⟩⟩,
      ⟨.ident ⟨3⟩, ⟨10, 11⟩⟩, ⟨.rparen, ⟨11, 12⟩⟩, ⟨.eof, ⟨12, 12⟩⟩] _ rfl
  obtain ⟨ids, s, hmade⟩ := hroom.2 (by decide)
  obtain ⟨hholds, -, htiled⟩ := hstored ids s hmade
  exact ⟨_, rfl, hpost, by decide, ids, s, hmade, hholds, htiled,
    (hparse 20 s).2 ⟨by decide, ids, hmade⟩⟩

end Reckoner
