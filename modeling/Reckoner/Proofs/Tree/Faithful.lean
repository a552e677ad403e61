import Reckoner.Proofs.Evaluation.Target
import Reckoner.Proofs.Names.Growth
import Reckoner.Proofs.Parse.Derivations
import Reckoner.Proofs.Token.Slice
import Reckoner.Proofs.Tree.Pieces

/-!
Trees are faithful to their lines. Each piece of a phrase spells some tokens of the line that follow
each other, as a leaf that keeps a single one or as what a rule makes of several. So a node covers
the line from the first of its tokens to the last one, nothing below it reaches further, and its text
is the slice that it covers, without the separators in it. -/

namespace Reckoner

variable {α : Type}

namespace Phrase

/-- The phrase spells the tokens: it keeps the only one as a leaf, or a rule makes it of them. -/
inductive Spells : Phrase α → List (Token α) → Prop where
  | token (t : Token α) : Spells (.leaf t.kind.leafKind t.span) [t]
  | rule {rule : Rule} (d : Derivation α rule) : Spells d.phrase d.yield

/-- The phrases spell the tokens, one phrase behind the other. -/
inductive SpellsAll : List (Phrase α) → List (Token α) → Prop where
  | nil : SpellsAll [] []
  | cons {p : Phrase α} {ps : List (Phrase α)} {ts us : List (Token α)} (h : Spells p ts)
      (hrest : SpellsAll ps us) : SpellsAll (p :: ps) (ts ++ us)

variable {p q : Phrase α} {ps qs : List (Phrase α)} {ts us : List (Token α)} {m n : Nat}

theorem Spells.ofToken {t : Token α} (h : t.kind.leafKind = .token t.kind) :
    Spells (.ofToken t) [t] := by
  have hleaf := Spells.token t
  rwa [h] at hleaf

namespace SpellsAll

theorem single (h : Spells p ts) : SpellsAll [p] ts := by
  have hcons := SpellsAll.cons h .nil
  rwa [List.append_nil] at hcons

theorem append (h : SpellsAll ps ts) (h' : SpellsAll qs us) : SpellsAll (ps ++ qs) (ts ++ us) := by
  induction h with
  | nil => exact h'
  | cons h _ ih =>
    rw [List.append_assoc]
    exact .cons h ih

/-- One of the phrases spells tokens that stand together among those of all. -/
theorem exists_part {before after : List (Phrase α)} (h : SpellsAll (before ++ p :: after) ts) :
    ∃ us, us <:+: ts ∧ Spells p us := by
  induction before generalizing ts with
  | nil =>
    cases h with
    | cons h hrest => exact ⟨_, (List.prefix_append _ _).isInfix, h⟩
  | cons p' before ih =>
    cases h with
    | cons h hrest =>
      obtain ⟨us, hinfix, hp⟩ := ih hrest
      exact ⟨us, hinfix.trans (List.suffix_append _ _).isInfix, hp⟩

end SpellsAll

end Phrase

open Phrase

/-- The parts of a derivation spell its yield. -/
theorem Derivation.spellsAll_parts {rule : Rule} (d : Derivation α rule) :
    SpellsAll d.parts d.yield := by
  induction d with
  | returned keyword value ih => exact .cons (.ofToken rfl) (.single (.rule value))
  | assigned target sign value iht ihv =>
    exact .cons (.rule target) (.cons (.ofToken rfl) (.single (.rule value)))
  | first h d ih => exact .single (.rule d)
  | link h left op hop right ihl ihr =>
    exact ihl.append (.cons (.ofToken (Rule.leafKind_of_joins hop)) (.single (.rule right)))
  | signed sign hsign inner ih =>
    exact .cons (.ofToken (TokenKind.leafKind_of_isSign hsign)) (.single (.rule inner))
  | unsigned atom ih => exact .single (.rule atom)
  | number text span => exact .single (.token ⟨.number text, span⟩)
  | ident name span => exact .single (.token ⟨.ident name, span⟩)
  | parens opening inner closing ih =>
    exact .cons (.ofToken rfl) (.cons (.rule inner) (.single (.ofToken rfl)))

namespace Phrase

variable {p q : Phrase α} {ps : List (Phrase α)} {ts : List (Token α)} {m n : Nat}

namespace Spells

/-- What a phrase spells, its parts spell. -/
theorem parts {rule : Rule} (h : Spells (.node rule ps) ts) : SpellsAll ps ts := by
  generalize hp : Phrase.node rule ps = p at h
  cases h with
  | token t => cases hp
  | rule d =>
    obtain ⟨rfl, rfl⟩ := Phrase.node.inj hp
    exact d.spellsAll_parts

/-- A piece spells tokens that stand together among those of the phrase. -/
theorem exists_piece (hpiece : Piece q m p n) (h : Spells p ts) :
    ∃ us, us <:+: ts ∧ Spells q us := by
  induction hpiece generalizing ts with
  | whole => exact ⟨ts, List.infix_rfl, h⟩
  | part _ ih =>
    obtain ⟨us, hus, hpart⟩ := h.parts.exists_part
    obtain ⟨us', hus', hq⟩ := ih hpart
    exact ⟨us', hus'.trans hus, hq⟩

theorem ne_nil (h : Spells p ts) : ts ≠ [] := by
  cases h with
  | token t => exact List.cons_ne_nil t []
  | rule d => exact d.yield_ne_nil

/-- The phrase reaches from its first token to its last one. -/
theorem span_eq (h : Spells p ts) (hts : Token.InOrder ts) :
    p.span = ⟨(ts.head h.ne_nil).span.start, (ts.getLast h.ne_nil).span.stop⟩ := by
  cases h with
  | token t => rw [span]; rfl
  | rule d => exact d.span_phrase hts

/-- A walk through the phrase shows it again, with its tokens as leaves. -/
theorem reads_viewFrom (h : Spells p ts) (start : Nat) :
    (p.viewFrom start).phrase? = some p ∧ (p.viewFrom start).leaves = ts.map Token.asLeaf := by
  cases h with
  | token t =>
    obtain ⟨kind, span⟩ := t
    rw [viewFrom]
    cases kind <;> exact ⟨rfl, rfl⟩
  | rule d => exact d.reads_viewFrom start

/-- The phrase writes the texts of its tokens. -/
theorem text?_viewFrom (h : Spells p ts) (text : α → String) (start : Nat) :
    (p.viewFrom start).text? text = some (String.join (ts.map (Token.text text))) := by
  obtain ⟨hphrase, hleaves⟩ := h.reads_viewFrom start
  rw [View.text?_of_phrase? text hphrase, hleaves, List.map_map]
  congr 2
  exact List.map_congr_left fun t _ => Token.leafText_asLeaf text t

end Spells

/-- The spans of phrases that spell tokens in order stand apart, each within its tokens. -/
theorem SpellsAll.apart (h : SpellsAll ps ts) (hts : Token.InOrder ts) :
    (spanAll ps).Pairwise (fun a b => a.stop ≤ b.start) ∧
      ∀ s ∈ spanAll ps, ∃ t ∈ ts, s.start = t.span.start := by
  induction h with
  | nil => simp [spanAll]
  | @cons p ps ts us h hrest ih =>
    obtain ⟨hpairwise, hstarts⟩ := ih hts.append_right
    have hspan := h.span_eq hts.append_left
    rw [spanAll]
    refine ⟨List.pairwise_cons.2 ⟨?_, hpairwise⟩, List.forall_mem_cons.2 ⟨?_, ?_⟩⟩
    · intro s hs
      obtain ⟨t, ht, hstart⟩ := hstarts s hs
      rw [hspan, hstart]
      exact hts.le_of_append (List.getLast_mem h.ne_nil) ht
    · refine ⟨ts.head h.ne_nil, List.mem_append_left us (List.head_mem h.ne_nil), ?_⟩
      rw [hspan]
    · intro s hs
      obtain ⟨t, ht, hstart⟩ := hstarts s hs
      exact ⟨t, List.mem_append_right ts ht, hstart⟩

theorem Spells.apart_partsOf (h : Spells p ts) (hts : Token.InOrder ts) :
    (spanAll p.partsOf).Pairwise fun a b => a.stop ≤ b.start := by
  cases p with
  | leaf kind span => simp [partsOf, spanAll]
  | node rule ps => exact (h.parts.apart hts).1

end Phrase

/-! ### The line -/

namespace Token

variable {names later : NameTable} {line : String}

/-- A token of a line has the text that it was scanned with, on that table and on every later one. -/
theorem text_scanWith (hlater : (scanWith names line).2.Grows later) {t : Token String}
    (ht : t ∈ scan line) :
    (t.map (scanWith names line).2.nameOf).text later.text = t.text id := by
  have htable : ∀ s ∈ t.kind.payload?, s ∈ (scanWith names line).2.texts := by
    intro s hs
    exact NameTable.mem_internAll.2 (.inl (List.mem_filterMap.2 ⟨t, ht, hs⟩))
  obtain ⟨kind, span⟩ := t
  cases kind with
  | ident s | number s => exact hlater.text_nameOf (htable s rfl)
  | _ => rfl

/-- Tokens that follow each other in a line, none of them invalid, take up a slice of it. -/
theorem exists_slice_scanWith (hlater : (scanWith names line).2.Grows later) {ts : List (Token Name)}
    (hts : ts <:+: (scanWith names line).1) (hne : ts ≠ [])
    (hvalid : ∀ t ∈ ts, t.kind.isInvalid = false) :
    ∃ before slice after,
      (Span.mk (ts.head hne).span.start (ts.getLast hne).span.stop).Covers line before slice after ∧
        String.ofList (unseparated slice.toList) = String.join (ts.map (Token.text later.text)) := by
  obtain ⟨left, right, hscan⟩ := hts
  obtain ⟨front, right, hline, hfront, -⟩ := List.map_eq_append_iff.1 hscan.symm
  obtain ⟨left, us, rfl, -, rfl⟩ := List.map_eq_append_iff.1 hfront
  have husne : us ≠ [] := fun h => hne (List.map_eq_nil_iff.2 h)
  have husvalid : ∀ u ∈ us, u.kind.isInvalid = false := by
    intro u hu
    have hmap := hvalid _ (List.mem_map_of_mem hu)
    rwa [Token.map, TokenKind.isInvalid_map] at hmap
  obtain ⟨before, slice, after, hcovers, htext⟩ := exists_slice hline husne husvalid
  rw [List.head_map, List.getLast_map]
  refine ⟨before, slice, after, hcovers, ?_⟩
  rw [htext, List.map_map]
  congr 1
  refine List.map_congr_left fun u hu => (text_scanWith hlater ?_).symm
  rw [hline]
  exact List.mem_append_left _ (List.mem_append_right _ hu)

namespace InOrder

variable {ts us : List (Token α)}

theorem of_isInfix (h : InOrder ts) (hus : us <:+: ts) : InOrder us := by
  obtain ⟨left, right, rfl⟩ := hus
  exact h.append_left.append_right

/-- Each of the tokens lies between the start of the first one and the end of the last one. -/
theorem within (h : InOrder ts) (hne : ts ≠ []) {t : Token α} (ht : t ∈ ts) :
    (ts.head hne).span.start ≤ t.span.start ∧ t.span.stop ≤ (ts.getLast hne).span.stop := by
  obtain ⟨before, after, rfl⟩ := List.append_of_mem ht
  have hnonempty := h.nonempty t ht
  refine ⟨?_, ?_⟩
  · cases before with
    | nil => exact le_rfl
    | cons first before =>
      have hfirst := h.nonempty first List.mem_cons_self
      have hapart := h.le_of_append (t := first) (u := t) List.mem_cons_self List.mem_cons_self
      rw [List.head_append_of_ne_nil (List.cons_ne_nil first before), List.head_cons]
      omega
  · rw [List.getLast_append_of_ne_nil hne (List.cons_ne_nil t after)]
    rcases List.eq_nil_or_concat after with rfl | ⟨after', last, hconcat⟩
    · exact le_rfl
    · obtain rfl : after = after' ++ [last] := hconcat.trans List.concat_eq_append
      have hlast := h.nonempty last (by simp)
      have hapart := (List.pairwise_cons.1 h.append_right.apart).1 last (by simp)
      rw [List.getLast_cons (by simp), List.getLast_concat]
      omega

end InOrder

end Token

namespace Tree

/-- What a node of the tree of a line has to do with the line: it covers a slice of it that is not
empty, from the first to the last of the tokens below it; no node below reaches further, its children
stand behind one another, and its text is the slice without separators. -/
structure Faithful (tree : Tree Name) (text : Name → String) (line : String)
    (tokens : List (Token Name)) (id : Nat) (n : Node Name) : Prop where
  nonempty : n.span.start < n.span.stop
  slice : ∃ before slice after, n.span.Covers line before slice after ∧
    tree.text? text id = some (.ofList (slice.toList.filter (· ∉ [' ', '\t', '\r', '\n', '\x0c'])))
  tokens : ∃ below, below <:+: tokens ∧ (tree.view id).leaves = below.map Token.asLeaf ∧
    ∃ hne : below ≠ [], n.span = ⟨(below.head hne).span.start, (below.getLast hne).span.stop⟩
  inside : (tree.view id).Placed fun s => n.span.start ≤ s.start ∧ s.stop ≤ n.span.stop
  apart : ∃ spans : List Span,
    n.children.map (fun child => tree.nodes[child]?.map Node.span) = spans.map some ∧
      spans.Pairwise fun a b => a.stop ≤ b.start

/-- Every node of the tree that a line parses to is faithful to the line, also when its names are
looked up after more of them have been given. -/
theorem faithful_of_ofLine {names names' later : NameTable} {line : String} {tree : Tree Name}
    (hline : Tree.ofLine names line = (.ok tree, names')) (hlater : names'.Grows later) {id : Nat}
    {n : Node Name} (hnode : tree.nodes[id]? = some n) :
    tree.Faithful later.text line (Token.scanWith names line).1 id n := by
  obtain ⟨⟨d, rfl, hyield⟩, rfl⟩ := Tree.ofLine_eq_ok_iff.1 hline
  obtain ⟨hid, -⟩ := Array.getElem?_eq_some_iff.1 hnode
  obtain ⟨q, m, hpiece, rfl⟩ := exists_piece_toTree d.phrase hid
  obtain ⟨htop, hview, hchildren⟩ := hpiece.of_toTree
  obtain rfl : q.topFrom m = n := Option.some.inj (htop.symm.trans hnode)
  obtain ⟨ts, hts, hq⟩ := Spells.exists_piece hpiece (.rule d)
  rw [hyield] at hts
  have horder := (Token.inOrder_scanWith names line).of_isInfix hts
  have hvalid : ∀ t ∈ ts, t.kind.isInvalid = false := by
    intro t ht
    refine (d.kind_of_mem_yield t ?_).1
    rw [hyield]
    exact hts.subset ht
  have hspan := hq.span_eq horder
  refine ⟨?_, ?_, ?_, ?_, ?_⟩
  · rw [span_topFrom, hspan]
    exact horder.head_lt_getLast hq.ne_nil
  · obtain ⟨before, slice, after, hcovers, htext⟩ :=
      Token.exists_slice_scanWith hlater hts hq.ne_nil hvalid
    refine ⟨before, slice, after, ?_, ?_⟩
    · rwa [span_topFrom, hspan]
    · rw [Tree.text?, hview, hq.text?_viewFrom, ← htext, Token.unseparated_eq]
  · refine ⟨ts, hts, ?_, hq.ne_nil, ?_⟩
    · rw [hview]
      exact (hq.reads_viewFrom m).2
    · rw [span_topFrom, hspan]
  · rw [hview, span_topFrom, hspan]
    refine placed_of_pieces q m fun q' m' hpiece' => ?_
    obtain ⟨us, hus, hq'⟩ := hq.exists_piece hpiece'
    rw [hq'.span_eq (horder.of_isInfix hus)]
    exact ⟨(horder.within hq.ne_nil (hus.subset (List.head_mem hq'.ne_nil))).1,
      (horder.within hq.ne_nil (hus.subset (List.getLast_mem hq'.ne_nil))).2⟩
  · exact ⟨_, hchildren, hq.apart_partsOf horder⟩

/-- A tab in front of the parentheses, and a space in them. -/
theorem faithful_of_ofLine_parentheses :
    ∃ tree names, Tree.ofLine .initial "x =\t( y)" = (.ok tree, names) ∧
      tree.nodes[15]? = some ⟨.rule .atom, ⟨4, 8⟩, [7, 13, 14]⟩ ∧
      tree.Faithful names.text "x =\t( y)" (Token.scanWith .initial "x =\t( y)").1 15
        ⟨.rule .atom, ⟨4, 8⟩, [7, 13, 14]⟩ := by
  have hnode : (Tree.ofLine .initial "x =\t( y)").1.map (·.nodes[15]?)
      = .ok (some ⟨.rule .atom, ⟨4, 8⟩, [7, 13, 14]⟩) := by cbv
  cases hline : (Tree.ofLine .initial "x =\t( y)").1 with
  | error e =>
    rw [hline] at hnode
    cases hnode
  | ok tree =>
    rw [hline] at hnode
    have hpair : Tree.ofLine .initial "x =\t( y)" = (.ok tree, _) := Prod.ext hline rfl
    exact ⟨tree, _, hpair, Except.ok.inj hnode,
      faithful_of_ofLine hpair (.refl _) (Except.ok.inj hnode)⟩

end Tree

end Reckoner
