import Reckoner.Proofs.Parse.Threading
import Reckoner.Proofs.Renaming.Line
import Reckoner.Proofs.Tree.Faithful
import Reckoner.Proofs.Tree.Preorder
import Reckoner.Proofs.Tree.Rows

/-!
Dumps are faithful. The depths of nodes in pre-order tell which of them are below which, so the rows
of a dump can be read back as the phrase that was laid out, and with it as the table of the tree, and
as what the parser has stored for it. -/

namespace Reckoner

variable {α : Type}

open Phrase View

theorem TokenKind.leafKind_ne_rule (k : TokenKind α) (r : Rule) : k.leafKind ≠ .rule r := by
  cases k <;> exact nofun

/-! ### Phrases from the depths of their nodes -/

namespace Phrase

/-- Nothing in the entries belongs to a node that stands at the depth in front of them. -/
def Outside (depth : Nat) (es : List (Entry α)) : Prop := ∀ e ∈ es.head?, e.depth ≤ depth

theorem exists_entries (depth : Nat) (p : Phrase α) :
    ∃ e es, p.entries depth = e :: es ∧ e.depth = depth := by
  cases p with
  | leaf kind span => exact ⟨_, _, rfl, rfl⟩
  | node rule parts => exact ⟨_, _, rfl, rfl⟩

theorem outside_nil (depth : Nat) : Outside depth ([] : List (Entry α)) := fun _ h => by cases h

theorem Outside.entriesAll {depth : Nat} {ps : List (Phrase α)} {es : List (Entry α)}
    (h : Outside depth es) : Outside (depth + 1) (Phrase.entriesAll (depth + 1) ps ++ es) := by
  cases ps with
  | nil => exact fun e he => Nat.le_succ_of_le (h e he)
  | cons p ps =>
    obtain ⟨e, rest, hentries, he⟩ := exists_entries (depth + 1) p
    rw [Phrase.entriesAll, hentries]
    intro f hf
    obtain rfl := Option.some.inj hf
    exact he.le

theorem not_outside_entriesAll {depth : Nat} {p : Phrase α} {ps : List (Phrase α)}
    {es : List (Entry α)} : ¬Outside depth (Phrase.entriesAll (depth + 1) (p :: ps) ++ es) := by
  obtain ⟨e, rest, hentries, he⟩ := exists_entries (depth + 1) p
  rw [Phrase.entriesAll, hentries]
  intro h
  have hle := h e rfl
  omega

mutual

/-- Entries in front of what does not belong to them are those of only one phrase. -/
theorem entries_injective : ∀ {p q : Phrase α} {ts us : List (Token α)} {depth : Nat}
    {es fs : List (Entry α)}, Spells p ts → Spells q us → Outside depth es → Outside depth fs →
    p.entries depth ++ es = q.entries depth ++ fs → p = q ∧ es = fs
  | .leaf kind span, .leaf kind' span', _, _, depth, es, fs, _, _, _, _, h => by
    obtain ⟨hentry, hrest⟩ := List.cons.inj h
    obtain ⟨-, rfl, rfl⟩ := Entry.mk.inj hentry
    exact ⟨rfl, hrest⟩
  | .node rule ps, .node rule' qs, ts, us, depth, es, fs, hp, hq, hes, hfs, h => by
    rw [entries, entries, List.cons_append, List.cons_append] at h
    obtain ⟨hentry, hrest⟩ := List.cons.inj h
    obtain ⟨-, hkind, -⟩ := Entry.mk.inj hentry
    obtain rfl := NodeKind.rule.inj hkind
    obtain ⟨rfl, rfl⟩ := entriesAll_injective hp.parts hq.parts hes hfs hrest
    exact ⟨rfl, rfl⟩
  | .leaf kind span, .node rule qs, _, _, depth, es, fs, hp, _, _, _, h => by
    obtain ⟨-, hkind, -⟩ := Entry.mk.inj (List.cons.inj h).1
    cases hp with
    | token t => exact absurd hkind (t.kind.leafKind_ne_rule rule)
  | .node rule ps, .leaf kind span, _, _, depth, es, fs, _, hq, _, _, h => by
    obtain ⟨-, hkind, -⟩ := Entry.mk.inj (List.cons.inj h).1
    cases hq with
    | token t => exact absurd hkind.symm (t.kind.leafKind_ne_rule rule)

/-- Where the entries of phrases end, what stands behind them is at most as deep as what the phrases
are parts of. -/
theorem entriesAll_injective : ∀ {ps qs : List (Phrase α)} {ts us : List (Token α)} {depth : Nat}
    {es fs : List (Entry α)}, SpellsAll ps ts → SpellsAll qs us → Outside depth es →
    Outside depth fs → entriesAll (depth + 1) ps ++ es = entriesAll (depth + 1) qs ++ fs →
    ps = qs ∧ es = fs
  | [], [], _, _, _, _, _, _, _, _, _, h => ⟨rfl, h⟩
  | p :: ps, q :: qs, _, _, depth, es, fs, .cons hp hps, .cons hq hqs, hes, hfs, h => by
    rw [entriesAll, entriesAll, List.append_assoc, List.append_assoc] at h
    obtain ⟨rfl, hrest⟩ := entries_injective hp hq hes.entriesAll hfs.entriesAll h
    obtain ⟨rfl, rfl⟩ := entriesAll_injective hps hqs hes hfs hrest
    exact ⟨rfl, rfl⟩
  | [], q :: qs, _, _, depth, es, fs, _, _, hes, _, h => by
    rw [entriesAll, List.nil_append] at h
    exact absurd (h ▸ hes) not_outside_entriesAll
  | p :: ps, [], _, _, depth, es, fs, _, _, _, hfs, h => by
    rw [entriesAll, List.nil_append] at h
    exact absurd (h ▸ hfs) not_outside_entriesAll

end

mutual

/-- A dump shows rules, and the leaves that keep tokens. -/
theorem legible_entries {text : α → String} : ∀ {p : Phrase α} {ts : List (Token α)} {depth : Nat},
    Spells p ts → (∀ t ∈ ts, t.kind.leafKind.Legible text) →
    ∀ e ∈ p.entries depth, e.kind.Legible text
  | .leaf kind span, ts, depth, hp, hts => by
    cases hp with
    | token t =>
      rw [entries]
      simpa using hts
  | .node rule ps, ts, depth, hp, hts => by
    rw [entries]
    exact List.forall_mem_cons.2 ⟨trivial, legible_entriesAll hp.parts hts⟩

theorem legible_entriesAll {text : α → String} : ∀ {ps : List (Phrase α)} {ts : List (Token α)}
    {depth : Nat}, SpellsAll ps ts → (∀ t ∈ ts, t.kind.leafKind.Legible text) →
    ∀ e ∈ entriesAll depth ps, e.kind.Legible text
  | [], _, depth, _, _ => by simp [entriesAll]
  | p :: ps, _, depth, .cons hp hps, hts => by
    obtain ⟨hts, hus⟩ := List.forall_mem_append.1 hts
    rw [entriesAll]
    exact List.forall_mem_append.2 ⟨legible_entries hp hts, legible_entriesAll hps hus⟩

end

variable {text : α → String} {p : Phrase α} {ts : List (Token α)}

/-- The lines of a dump are the rows for what it shows. -/
theorem exists_dump (hp : Spells p ts) (hts : ∀ t ∈ ts, t.kind.leafKind.Legible text) :
    ∃ dump, p.toTree.dump? text = some dump ∧
      Text.lines dump = (p.entries 0).map (Entry.row text) := by
  refine ⟨String.join (((p.entries 0).map (Entry.row text)).map (· ++ "\n")), ?_, ?_⟩
  · rw [Tree.dump?, view_toTree, dump?, entries?_viewFrom, Option.map_some, List.map_map]
    exact congrArg (fun line => some (String.join ((p.entries 0).map line)))
      (funext (Entry.line_eq text))
  · exact Text.lines_join (List.forall_mem_map.2 fun e he =>
      Entry.oneLine_row (legible_entries hp hts e he))

/-- Phrases with the same dump are equal. -/
theorem eq_of_dump {p q : Phrase String} {ts us : List (Token String)} (hp : Spells p ts)
    (hq : Spells q us) (hts : ∀ t ∈ ts, t.kind.leafKind.Legible id)
    (hus : ∀ u ∈ us, u.kind.leafKind.Legible id)
    (h : p.toTree.dump? id = q.toTree.dump? id) : p = q := by
  obtain ⟨dump, hdump, hlines⟩ := exists_dump hp hts
  obtain ⟨dump', hdump', hlines'⟩ := exists_dump hq hus
  obtain rfl : dump = dump' := Option.some.inj (hdump.symm.trans (h.trans hdump'))
  have hentries : p.entries 0 = q.entries 0 :=
    Entry.map_row_injective (legible_entries hp hts) (legible_entries hq hus)
      (hlines.symm.trans hlines')
  have happend : p.entries 0 ++ [] = q.entries 0 ++ [] := by rw [hentries]
  exact (entries_injective hp hq (outside_nil 0) (outside_nil 0) happend).1

end Phrase

/-! ### Lines -/

namespace Token

variable {names later : NameTable} {line : String}

/-- The leaf that keeps a token of a line is legible: no line feed is in the text of a token. -/
theorem legible_scan {t : Token String} (ht : t ∈ scan line) : t.kind.leafKind.Legible id := by
  obtain ⟨before, text, after, -, -, hpayload, hmunched | hstray⟩ := isPart_of_mem_scanFrom t ht
  · have hline : '\n' ∉ text := fun hfeed => by
      cases (hmunched.pattern.lexical _ hfeed).not_isSeparator
    obtain ⟨kind, span⟩ := t
    cases kind with
    | ident s | number s =>
      rw [← String.toList_ofList (l := text), ← hpayload s rfl] at hline
      exact hline
    | _ => rfl
  · rw [hstray.invalid]
    rfl

/-- It is legible with a name in place of the text, on the table with these names and on every later
one. -/
theorem legible_scanWith (hlater : (scanWith names line).2.Grows later) {t : Token Name}
    (ht : t ∈ (scanWith names line).1) : t.kind.leafKind.Legible later.text := by
  obtain ⟨u, hu, rfl⟩ := List.mem_map.1 ht
  have htext := text_scanWith hlater hu
  have hlegible := legible_scan hu
  obtain ⟨kind, span⟩ := u
  cases kind with
  | ident s | number s =>
    have hname : later.text ((scanWith names line).2.nameOf s) = s := htext
    show '\n' ∉ (later.text ((scanWith names line).2.nameOf s)).toList
    rw [hname]
    exact hlegible
  | _ => rfl

end Token

/-- A dump of a tree has one line for each node of the table, in the order of a walk that comes to
each node in front of what is below it. Behind two spaces for each level, the line says what the node
stands for and where. -/
structure Tree.Lists (tree : Tree α) (text : α → String) (dump : String) : Prop where
  length : (Text.lines dump).length = tree.nodes.size
  rows : ∃ visits, tree.nodes.Visits 0 [tree.root] visits ∧
    (visits.map Prod.snd).Perm (List.range tree.nodes.size) ∧
    visits.Forall₂ (fun visit line => ∃ n, tree.nodes[visit.2]? = some n ∧
      line.toList.takeWhile (· = ' ') = List.replicate (2 * visit.1) ' ' ∧
      line.toList.dropWhile (· = ' ') = (n.row text).toList) (Text.lines dump)

/-- The dump of the tree of a phrase lists its nodes. -/
theorem Phrase.exists_lists {text : α → String} {p : Phrase α} {ts : List (Token α)}
    (hp : Spells p ts) (hts : ∀ t ∈ ts, t.kind.leafKind.Legible text) :
    ∃ dump, p.toTree.dump? text = some dump ∧ p.toTree.Lists text dump := by
  obtain ⟨dump, hdump, hlines⟩ := exists_dump hp hts
  obtain ⟨visits, hvisits, hentries, hperm⟩ := exists_visits p
  have hrows : visits.Forall₂ (fun visit line => ∃ n, p.toTree.nodes[visit.2]? = some n ∧
      line.toList.takeWhile (· = ' ') = List.replicate (2 * visit.1) ' ' ∧
      line.toList.dropWhile (· = ' ') = (n.row text).toList) (Text.lines dump) := by
    rw [hlines, List.forall₂_map_right_iff]
    refine hentries.imp ?_
    rintro visit e ⟨n, hn, rfl⟩
    obtain ⟨hspaces, hrow⟩ := Prod.mk.inj (Entry.splitWhile_row text ⟨visit.1, n.kind, n.span⟩)
    exact ⟨n, hn, hspaces, hrow⟩
  refine ⟨dump, hdump, ?_, visits, hvisits, hperm, hrows⟩
  rw [← hrows.length_eq, ← List.length_map (f := Prod.snd), hperm.length_eq, List.length_range]

namespace Tree

/-- Lines whose trees have the same dump have the same tree. -/
theorem spelled_eq_of_dump {line line' : String} {s s' : Tree String}
    (h : spelled line = .ok s) (h' : spelled line' = .ok s') (hdump : s.dump? id = s'.dump? id) :
    s = s' := by
  obtain ⟨d, rfl, hyield⟩ := exists_derivation_spelled h
  obtain ⟨d', rfl, hyield'⟩ := exists_derivation_spelled h'
  have hlegible : ∀ t ∈ d.yield, t.kind.leafKind.Legible id :=
    fun t ht => Token.legible_scan (hyield ▸ ht)
  have hlegible' : ∀ t ∈ d'.yield, t.kind.leafKind.Legible id :=
    fun t ht => Token.legible_scan (hyield' ▸ ht)
  rw [Phrase.eq_of_dump (.rule d) (.rule d') hlegible hlegible' hdump]

/-- It is the same tree with names, too, if the names are from one table. -/
theorem eq_of_dump {names names' now table table' now' last : NameTable} {line line' : String}
    {tree tree' : Tree Name} (hline : ofLine names line = (.ok tree, table))
    (hline' : ofLine names' line' = (.ok tree', table')) (hnow : table.Grows now)
    (hnow' : table'.Grows now') (hlast : now.Grows last) (hlast' : now'.Grows last)
    (hdump : tree.dump? now.text = tree'.dump? now'.text) : tree = tree' := by
  obtain rfl : (ofLine names line).2 = table := congrArg Prod.snd hline
  obtain rfl : (ofLine names' line').2 = table' := congrArg Prod.snd hline'
  have hspelled : spelled line = .ok (tree.map now.text) := by
    rw [← map_text_ofLine hnow, hline]
    rfl
  have hspelled' : spelled line' = .ok (tree'.map now'.text) := by
    rw [← map_text_ofLine hnow', hline']
    rfl
  have hsame := spelled_eq_of_dump hspelled hspelled' (by rw [dump?_map, dump?_map]; exact hdump)
  have htree := ofLine_eq_spelled_of_grows (hnow.trans hlast)
  have htree' := ofLine_eq_spelled_of_grows (hnow'.trans hlast')
  rw [hline, hspelled] at htree
  rw [hline', hspelled', ← hsame] at htree'
  exact Except.ok.inj (htree.trans htree'.symm)

/-- The dump of the tree of a line lists the nodes of the tree; and trees of lines with names from one
table, dumped whenever this is, are equal if their dumps are. -/
theorem dump_faithful {names names' now table table' now' last : NameTable} {line line' : String}
    {tree tree' : Tree Name} (hline : ofLine names line = (.ok tree, table))
    (hline' : ofLine names' line' = (.ok tree', table')) (hnow : table.Grows now)
    (hnow' : table'.Grows now') (hlast : now.Grows last) (hlast' : now'.Grows last) :
    (∃ dump, tree.dump? now.text = some dump ∧ tree.Lists now.text dump) ∧
      (tree.dump? now.text = tree'.dump? now'.text → tree = tree') := by
  refine ⟨?_, eq_of_dump hline hline' hnow hnow' hlast hlast'⟩
  obtain ⟨⟨d, rfl, hyield⟩, rfl⟩ := ofLine_eq_ok_iff.1 hline
  exact Phrase.exists_lists (.rule d) fun t ht => Token.legible_scanWith hnow (hyield ▸ ht)

/-- White space behind the value leaves no trace in a dump, and none in the tree. -/
theorem dump_faithful_trailing_tab :
    ∃ tree table tree' table', ofLine .initial "x = 1" = (.ok tree, table) ∧
      ofLine table "x = 1\t" = (.ok tree', table') ∧
      (∃ dump, tree.dump? table.text = some dump ∧ tree.Lists table.text dump) ∧
      tree.dump? table.text = tree'.dump? table'.text ∧ tree = tree' := by
  have hsame : ofLine (ofLine .initial "x = 1").2 "x = 1\t" = ofLine .initial "x = 1" := by cbv
  have hok : (ofLine .initial "x = 1").1.isOk = true := by cbv
  cases hresult : (ofLine .initial "x = 1").1 with
  | error e =>
    rw [hresult] at hok
    cases hok
  | ok tree =>
    have hline : ofLine .initial "x = 1" = (.ok tree, _) := Prod.ext hresult rfl
    have hline' := hsame.trans hline
    obtain ⟨hlists, htree⟩ := dump_faithful hline hline' (.refl _) (.refl _) (.refl _) (.refl _)
    exact ⟨tree, _, tree, _, hline, hline', hlists, rfl, htree rfl⟩

/-- What the parser has stored at the end of a line is what a builder stores that is asked for the
nodes of the tree. -/
theorem exists_made_of_ofLine {names table : NameTable} {line : String} {tree : Tree Name}
    {root : Nat} {s : Storage Name} (hline : ofLine names line = (.ok tree, table))
    (hparse : Building.parse (Token.lex names line).1 = .ok (root, s)) :
    ∃ p ids, tree.phrase? = some p ∧ tree.root = root ∧ Storage.Made (p.steps 0) ids s := by
  obtain ⟨⟨d, rfl, hyield⟩, -⟩ := ofLine_eq_ok_iff.1 hline
  have hbody : ∀ t ∈ (Token.scanWith names line).1, t.kind.isEof = false := fun t ht =>
    (d.kind_of_mem_yield t (hyield ▸ ht)).2
  have htokens : ofTokens? (Token.lex names line).1 = some (.ok d.phrase) :=
    (ofTokens?_eq_ok_iff hbody rfl).2 ⟨d, rfl, hyield⟩
  obtain ⟨rfl, ids, hmade⟩ := (Building.parse_eq_ok_iff htokens).1 hparse
  exact ⟨d.phrase, ids, d.reads_toTree.1, rfl, hmade⟩

/-- Trees with the same dump are stored alike: the same nodes are at the same indices, and the lists
of their children at the same places of the same table. -/
theorem storage_eq_of_dump {names names' now table table' now' last : NameTable}
    {line line' : String} {tree tree' : Tree Name} {root root' : Nat} {s s' : Storage Name}
    (hline : ofLine names line = (.ok tree, table))
    (hline' : ofLine names' line' = (.ok tree', table')) (hnow : table.Grows now)
    (hnow' : table'.Grows now') (hlast : now.Grows last) (hlast' : now'.Grows last)
    (hparse : Building.parse (Token.lex names line).1 = .ok (root, s))
    (hparse' : Building.parse (Token.lex names' line').1 = .ok (root', s'))
    (hdump : tree.dump? now.text = tree'.dump? now'.text) : root = root' ∧ s = s' := by
  obtain rfl := eq_of_dump hline hline' hnow hnow' hlast hlast' hdump
  obtain ⟨p, ids, hp, rfl, hmade⟩ := exists_made_of_ofLine hline hparse
  obtain ⟨p', ids', hp', rfl, hmade'⟩ := exists_made_of_ofLine hline' hparse'
  obtain rfl := Option.some.inj (hp.symm.trans hp')
  exact ⟨rfl, hmade.unique hmade'⟩

end Tree

end Reckoner
