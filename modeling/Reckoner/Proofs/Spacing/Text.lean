import Reckoner.Proofs.Notation
import Reckoner.Proofs.Spacing.Line
import Reckoner.Proofs.Tree.Faithful

/-!
The text of a line. It is the line without its separators, and no two words or numbers stand side by
side in a line, unless one of them is the keyword: so the text is scanned into the same kinds of
tokens as the line, and parses to the same tree. -/

namespace Reckoner

open Token

/-! ### Words stand apart -/

namespace Derivation

variable {α : Type} {rule : Rule} {gap : Nat → Blank}

theorem isWord_of_joins {t : Token String} (h : rule.joins t.kind = true) :
    t.kind.isWord = false := by
  obtain ⟨kind, span⟩ := t
  cases rule <;> cases kind <;> first | rfl | cases h

theorem isWord_of_isSign {t : Token String} (h : t.kind.isSign = true) : t.kind.isWord = false := by
  obtain ⟨kind, span⟩ := t
  cases kind <;> first | rfl | cases h

/-- No two words of an expression stand side by side, so it needs no separators at all. -/
theorem apart_kinds (d : Derivation String rule) (hrule : rule ≠ .equation) (i : Nat) :
    Apart gap i d.kinds := by
  induction d generalizing i with
  | returned | assigned => exact absurd rfl hrule
  | first h d ih => exact ih h.operand_ne i
  | link h left op hop right ihl ihr =>
    rw [kinds_link]
    exact apart_append (isWord_of_joins hop) (ihl hrule i) (ihr h.operand_ne)
  | signed sign hsign inner ih =>
    exact apart_cons (isWord_of_isSign hsign) (ih (by decide))
  | unsigned atom ih => exact ih (by decide) i
  | number | ident => exact ⟨nofun, trivial⟩
  | parens opening inner closing ih =>
    rw [kinds_parens]
    refine apart_cons rfl fun j => ?_
    exact apart_append rfl (ih (by decide) j) fun _ => trivial

/-- No two words of a line stand side by side, when there is none behind the keyword. -/
theorem apart_kinds_equation (d : Derivation String .equation)
    (hkeyword : ∀ k ks, d.kinds = .ret :: k :: ks → k.isWord = false) : Apart gap 0 d.kinds := by
  cases d with
  | returned keyword value =>
    refine ⟨fun _ k hk hword => ?_, value.apart_kinds (by decide) 1⟩
    obtain ⟨ks, hks⟩ := List.head?_eq_some_iff.1 hk
    have hnone := hkeyword k ks (congrArg (List.cons TokenKind.ret) hks)
    rw [hword] at hnone
    cases hnone
  | assigned target sign value =>
    rw [kinds_assigned]
    exact apart_append rfl (target.apart_kinds (by decide) 0) (value.apart_kinds (by decide))
  | first h => cases h
  | link h => cases h

end Derivation

/-! ### Scanning the text -/

namespace Token

/-- What a token of a line is written with is what it was cut out as. -/
theorem scansBack_of_mem_scan {line : String} {t : Token String} (ht : t ∈ scan line)
    (hvalid : t.kind.isInvalid = false) : ScansBack t.kind := by
  obtain ⟨before, text, after, -, -, hpayload, hmunched | hstray⟩ := isPart_of_mem_scanFrom t ht
  · have htext := congrArg String.toList (text_of_pattern hmunched.pattern hpayload)
    rw [String.toList_ofList] at htext
    have hspelling : t.kind.spelling = text := by
      rw [← htext, Token.text, TokenKind.spelling, Option.map_id_fun, id]
    exact scansBack_of_pattern (by rw [hspelling]; exact hmunched.pattern)
  · rw [hstray.invalid] at hvalid
    cases hvalid

/-- No separators anywhere. -/
def closed (_ : Nat) : Blank := ⟨[], nofun⟩

theorem spread_closed (ts : List (Token String)) (i : Nat) :
    spread closed i (ts.map Token.kind) = (String.join (ts.map (Token.text id))).toList := by
  induction ts generalizing i with
  | nil => rfl
  | cons t ts ih =>
    have hspelling : t.kind.spelling = (t.text id).toList := by
      rw [Token.text, TokenKind.spelling, Option.map_id_fun, id]
    rw [List.map_cons, spread, ih, hspelling, List.map_cons, String.toList_join,
      String.toList_join, List.flatMap_cons]
    rfl

/-- The texts of tokens, one behind the other, are scanned into tokens of the same kinds. -/
theorem kinds_scan_join {ts : List (Token String)} (hts : ∀ t ∈ ts, ScansBack t.kind)
    (hapart : Apart closed 0 (ts.map Token.kind)) :
    (scan (String.join (ts.map (Token.text id)))).map Token.kind = ts.map Token.kind := by
  rw [scan, ← spread_closed ts 0]
  exact kinds_scanFrom 0 (List.forall_mem_map.2 hts) hapart

end Token

/-! ### Names that there are already -/

namespace NameTable

variable {t : NameTable}

/-- A table stays as it is when all texts have names in it. -/
theorem internAll_of_mem {ss : List String} (h : ∀ s ∈ ss, s ∈ t.texts) : t.internAll ss = t := by
  induction ss with
  | nil => rfl
  | cons s ss ih =>
    have hs : (t.intern s).2 = t := by
      rw [intern, get?_eq_some_nameOf (h s List.mem_cons_self)]
    show (t.intern s).2.internAll ss = t
    rw [hs]
    exact ih fun s' hs' => h s' (List.mem_cons_of_mem s hs')

end NameTable

theorem TokenKind.map_congr {α β : Type} {f g : α → β} {k : TokenKind α}
    (h : ∀ a ∈ k.payload?, f a = g a) : k.map f = k.map g := by
  cases k with
  | ident a => exact congrArg TokenKind.ident (h a rfl)
  | number a => exact congrArg TokenKind.number (h a rfl)
  | _ => rfl

namespace Token

variable {names later : NameTable} {line line' : String}

/-- A line of the same texts as an earlier one has the same kinds of tokens, and names nothing new.
-/
theorem lex_again (hkinds : (scan line').map Token.kind = (scan line).map Token.kind)
    (hlater : (lex names line).2.Grows later) :
    (lex names line).1.map Token.kind = (lex later line').1.map Token.kind ∧
      (lex later line').2 = later := by
  have hnamed : ∀ s ∈ ((scan line).map Token.kind).filterMap TokenKind.payload?,
      s ∈ (lex names line).2.texts := by
    intro s hs
    rw [names_lex]
    exact NameTable.mem_internAll.2 (.inl hs)
  have htable : (lex later line').2 = later := by
    rw [names_lex, hkinds]
    exact NameTable.internAll_of_mem fun s hs => hlater.mem (hnamed s hs)
  refine ⟨?_, htable⟩
  rw [kinds_lex, kinds_lex, kinds_scanWith, kinds_scanWith, hkinds]
  congr 1
  refine List.map_congr_left fun k hk => TokenKind.map_congr fun s hs => ?_
  rw [show (scanWith later line').2 = later from htable]
  exact (hlater.nameOf (hnamed s (List.mem_filterMap.2 ⟨k, hk, hs⟩))).symm

end Token

namespace Tree

variable {names names' later : NameTable} {line : String} {tree : Tree Name}

/-- The tokens of a line that parses have a derivation before they have names. -/
theorem exists_derivation_scan (h : (Tree.ofLine names line).1 = .ok tree) :
    ∃ d : Derivation String .equation, d.yield = Token.scan line := by
  obtain ⟨spelled, hspelled, -⟩ := Tree.exists_spelled h
  obtain ⟨d, -, hyield⟩ := Tree.exists_derivation_spelled hspelled
  exact ⟨d, hyield⟩

/-- Without places, a tree has the same text. -/
theorem text?_congr {tree tree' : Tree Name} (h : tree.bare = tree'.bare) (text : Name → String) :
    tree.text? text tree.root = tree'.text? text tree'.root := by
  have hbare : ∀ t : Tree Name, t.text? text t.root = t.bare.text? text t.bare.root := by
    intro t
    rw [text?, text?, view_bare, View.text?_bare]
    rfl
  rw [hbare tree, hbare tree', h]

/-- The text of a line without its separators parses back to the same tree, on the same names, if no
word stands behind the keyword; and this tree has the same text. -/
theorem text_parses_back (hline : Tree.ofLine names line = (.ok tree, names'))
    (hkeyword : ∀ keyword t rest, Token.scan line = ⟨.ret, keyword⟩ :: t :: rest →
      t.kind = .lparen ∨ t.kind = .plus ∨ t.kind = .minus)
    (hlater : names'.Grows later) :
    ∃ s tree', tree.text? later.text tree.root = some s ∧
      Tree.ofLine later s = (.ok tree', later) ∧ tree'.bare = tree.bare ∧
        tree'.text? later.text tree'.root = some s := by
  obtain ⟨⟨d, rfl, hyield⟩, rfl⟩ := Tree.ofLine_eq_ok_iff.1 hline
  obtain ⟨d', hd'⟩ := exists_derivation_scan (congrArg Prod.fst hline)
  have htext : d.phrase.toTree.text? later.text d.phrase.toTree.root
      = some (String.join ((Token.scan line).map (Token.text id))) := by
    rw [text?, Phrase.view_toTree, (Phrase.Spells.rule d).text?_viewFrom, hyield, Token.scanWith,
      List.map_map]
    exact congrArg (fun ss => some (String.join ss))
      (List.map_congr_left fun t ht => Token.text_scanWith hlater ht)
  have hback : ∀ t ∈ Token.scan line, Token.ScansBack t.kind := by
    intro t ht
    exact Token.scansBack_of_mem_scan ht (d'.kind_of_mem_yield t (hd' ▸ ht)).1
  have hapart : Apart Token.closed 0 ((Token.scan line).map Token.kind) := by
    rw [← hd']
    refine d'.apart_kinds_equation fun k ks hks => ?_
    obtain ⟨⟨kind, span⟩, us, hyield', hkind, hus⟩ := List.map_eq_cons_iff.1 hks
    obtain ⟨t, rest, rfl, rfl, -⟩ := List.map_eq_cons_iff.1 hus
    obtain rfl : kind = .ret := hkind
    rcases hkeyword span t rest (hd' ▸ hyield') with h | h | h <;> rw [h] <;> rfl
  have hkinds := Token.kinds_scan_join hback hapart
  obtain ⟨hlex, htable⟩ := Token.lex_again hkinds hlater
  rcases Tree.ofLine_alike hlex with ⟨tree, tree', htree, htree', hbare⟩ | ⟨e, -, he, -⟩
  · obtain rfl := Except.ok.inj (htree.symm.trans (congrArg Prod.fst hline))
    exact ⟨_, tree', htext, Prod.ext htree' htable, hbare.symm,
      (text?_congr hbare _).symm.trans htext⟩
  · cases he.symm.trans (congrArg Prod.fst hline)

/-- The sign of a number is scanned apart from the keyword, and the exponent from the sum. -/
theorem text_parses_back_sum :
    ∃ tree names', Tree.ofLine .initial "return + 1.5e3 + e" = (.ok tree, names') ∧
      ∃ tree', tree.text? names'.text tree.root = some "return+1.5e3+e" ∧
        Tree.ofLine names' "return+1.5e3+e" = (.ok tree', names') ∧ tree'.bare = tree.bare ∧
          tree'.text? names'.text tree'.root = some "return+1.5e3+e" := by
  have htext : (Tree.ofLine .initial "return + 1.5e3 + e").1.map
      (fun tree => tree.text? (Tree.ofLine .initial "return + 1.5e3 + e").2.text tree.root)
        = .ok (some "return+1.5e3+e") := by cbv
  have hscan : Token.scan "return + 1.5e3 + e" = [⟨.ret, ⟨0, 6⟩⟩, ⟨.plus, ⟨7, 8⟩⟩,
      ⟨.number "1.5e3", ⟨9, 14⟩⟩, ⟨.plus, ⟨15, 16⟩⟩, ⟨.ident "e", ⟨17, 18⟩⟩] := by cbv
  cases hline : (Tree.ofLine .initial "return + 1.5e3 + e").1 with
  | error e =>
    rw [hline] at htext
    cases htext
  | ok tree =>
    rw [hline] at htext
    have hpair : Tree.ofLine .initial "return + 1.5e3 + e" = (.ok tree, _) := Prod.ext hline rfl
    obtain ⟨s, tree', hs, hback⟩ := text_parses_back hpair (fun keyword t rest h => by
      rw [hscan] at h
      obtain ⟨-, h⟩ := List.cons.inj h
      obtain ⟨rfl, -⟩ := List.cons.inj h
      exact .inr (.inl rfl)) (.refl _)
    obtain rfl := Option.some.inj (hs.symm.trans (Except.ok.inj htext))
    exact ⟨tree, _, hpair, tree', hs, hback⟩

end Tree

end Reckoner
