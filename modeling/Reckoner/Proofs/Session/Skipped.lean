import Reckoner.Proofs.Command.Faults
import Reckoner.Proofs.Token.Slice

/-!
Lines that a program passes over. A line counts as blank when all of its characters have the property
`White_Space`, of which only five separate tokens; each of the others is an invalid character wherever
it is scanned. So invalid characters on a line with anything else on it make the program fail, and
those on a blank line are the only ones that nobody reports. -/

namespace Reckoner

variable {V E : Type}

/-! ### Blank characters in a scan -/

namespace Token

/-- A blank character is part of no token. -/
theorem munch_of_isBlank {c : Char} (h : Text.isBlank c = true) (cs : List Char) :
    (munch c cs).1 = .invalid ∧ (munch c cs).2.1 = [] := by
  refine (pattern_munch c cs).resolve_right fun hpattern => ?_
  have hlexical := (hpattern.lexical c List.mem_cons_self).not_isBlank
  rw [h] at hlexical
  cases hlexical

/-- Of a blank text, each character that is no separator is an invalid token, and there are no other
tokens. -/
theorem kinds_scanFrom_of_isBlank {offset : Nat} {cs : List Char}
    (h : ∀ c ∈ cs, Text.isBlank c = true) :
    (scanFrom offset cs).map Token.kind = (unseparated cs).map fun _ => .invalid := by
  fun_induction scanFrom offset cs with
  | case1 offset => rfl
  | case2 offset c cs hsep ih =>
    rw [ih fun d hd => h d (List.mem_cons_of_mem c hd), unseparated, unseparated,
      List.filter_cons_of_neg (by simp [hsep])]
  | case3 offset c cs hsep taken stop ih =>
    obtain ⟨hkind, htaken⟩ := munch_of_isBlank (h c List.mem_cons_self) cs
    have hrest : taken.2.2 = cs := by
      have happend := munch_append c cs
      rwa [htaken] at happend
    rw [hrest] at ih ⊢
    rw [List.map_cons, ih fun d hd => h d (List.mem_cons_of_mem c hd), unseparated, unseparated,
      List.filter_cons_of_pos (by simp [hsep]), List.map_cons]
    exact congrArg (· :: _) hkind

end Token

/-! ### Lines of a program -/

/-- A line with an invalid token does not parse. -/
theorem Tree.exists_spelled_error {names : NameTable} {line : String}
    (h : ∃ t ∈ (Token.lex names line).1, t.kind.isInvalid = true) :
    ∃ e, Tree.spelled line = .error e := by
  obtain ⟨t, ht, hinvalid⟩ := h
  have hscan : ∃ u ∈ Token.scan line, u.kind.isInvalid = true := by
    rcases List.mem_append.1 ht with ht | ht
    · obtain ⟨u, hu, rfl⟩ := List.mem_map.1 ht
      rw [Token.map, TokenKind.isInvalid_map] at hinvalid
      exact ⟨u, hu, hinvalid⟩
    · obtain rfl := List.mem_singleton.1 ht
      cases hinvalid
  obtain ⟨u, hu, hinvalid⟩ := hscan
  cases hfound : Phrase.invalid? (Token.scan line) with
  | none =>
    rw [Phrase.invalid?_eq_none_iff.1 hfound u hu] at hinvalid
    cases hinvalid
  | some e => exact ⟨e, by rw [Tree.spelled, Phrase.ofLine, hfound]; rfl⟩

namespace Source

variable {source line : String} {names table : NameTable}

theorem pairwise_equations (source : String) :
    (equations source).Pairwise fun a b => a.1 < b.1 := by
  have hnumbers : ((Text.lines source).zipIdx 1).Pairwise fun a b => a.2 < b.2 := by
    refine List.pairwise_map.1 ?_
    rw [List.zipIdx_map_snd]
    exact List.pairwise_lt_range'
  refine hnumbers.filterMap _ ?_
  rintro ⟨line, number⟩ ⟨line', number'⟩ hlt a ha b hb
  obtain ⟨-, rfl⟩ : Text.isBlankText line = false ∧ (number, line) = a := by simpa using ha
  obtain ⟨-, rfl⟩ : Text.isBlankText line' = false ∧ (number', line') = b := by simpa using hb
  exact hlt

/-- A line has a number among those of the equations unless it is blank. -/
theorem mem_numbers_iff {i : Nat} (hline : (Text.lines source)[i]? = some line) :
    i + 1 ∈ (equations source).map (·.1) ↔ Text.isBlankText line = false := by
  rw [List.mem_map]
  constructor
  · rintro ⟨⟨number, l⟩, hmem, rfl⟩
    obtain ⟨-, hl, hblank⟩ := mem_equations_iff.1 hmem
    obtain rfl := Option.some.inj (hline.symm.trans hl)
    exact hblank
  · intro hblank
    exact ⟨(i + 1, line), mem_equations_iff.2 ⟨by omega, hline, hblank⟩, rfl⟩

/-- The first fault is on the line of any other one, or in front of it. -/
theorem exists_fault_le {f : Fault} (hf : f ∈ faults source) :
    ∃ first, (faults source).head? = some first ∧ first.number ≤ f.number := by
  have hordered : (faults source).Pairwise fun a b => a.number < b.number := by
    refine (pairwise_equations source).filterMap _ ?_
    rintro ⟨number, line⟩ ⟨number', line'⟩ hlt a ha b hb
    obtain ⟨-, rfl, -⟩ := fault?_eq_some_iff.1 ha
    obtain ⟨-, rfl, -⟩ := fault?_eq_some_iff.1 hb
    exact hlt
  cases hfaults : faults source with
  | nil =>
    rw [hfaults] at hf
    cases hf
  | cons first rest =>
    rw [hfaults] at hf hordered
    refine ⟨first, rfl, ?_⟩
    rcases List.mem_cons.1 hf with rfl | hf
    · exact le_rfl
    · exact le_of_lt ((List.pairwise_cons.1 hordered).1 f hf)

/-- The trees of a program have the numbers of the lines that are not blank. -/
theorem map_fst_parseAll : ∀ {lines : List (Nat × String)} {names table : NameTable}
    {program : List (Nat × Tree Name)}, parseAll names lines = (.ok program, table) →
      program.map (·.1) = lines.map (·.1)
  | [], names, table, program, h => by
    obtain rfl := Except.ok.inj (congrArg Prod.fst h)
    rfl
  | (number, line) :: lines, names, table, program, h => by
    obtain ⟨tree, names', trees, -, hrest, rfl⟩ := exists_of_parseAll h
    rw [List.map_cons, List.map_cons, map_fst_parseAll hrest]

end Source

/-- An invalid character on a line that is not blank makes the program fail to parse, on that line or
on an earlier one. A line is passed over just when it is blank; the characters of such a line that do
not separate tokens are invalid ones, each of them on its own, and there are no other tokens on it. -/
theorem invalid_reported_unless_blank [Value V E] (s : Session V) {source line : String} {i : Nat}
    (hline : (Text.lines source)[i]? = some line) (names : NameTable) :
    (Text.isBlankText line = false → (∃ t ∈ (Token.lex names line).1, t.kind.isInvalid = true) →
      ∃ number e, (s.run source).1 = .error (.parse number e) ∧ number ≤ i + 1) ∧
    (∀ trees, (s.parse source).1 = (.ok trees : Except (RunError E) _) →
      (i + 1 ∉ trees.map (·.1) ↔ Text.isBlankText line = true)) ∧
    (Text.isBlankText line = true → (Token.lex names line).1.map Token.kind
      = (line.toList.filter (· ∉ [' ', '\t', '\r', '\n', '\x0c'])).map (fun _ => .invalid)
        ++ [.eof]) := by
  refine ⟨?_, ?_, ?_⟩
  · intro hblank hinvalid
    obtain ⟨e, he⟩ := Tree.exists_spelled_error hinvalid
    have hfault : (⟨i + 1, line, e⟩ : Source.Fault) ∈ Source.faults source :=
      List.mem_filterMap.2 ⟨(i + 1, line), Source.mem_equations_iff.2 ⟨by omega, hline, hblank⟩,
        Source.fault?_eq_some_iff.2 ⟨he, rfl, rfl⟩⟩
    obtain ⟨first, hfirst, hle⟩ := Source.exists_fault_le hfault
    exact ⟨_, _, Session.run_eq_parse_error_iff.2 ⟨first, hfirst, rfl, rfl⟩, hle⟩
  · intro trees htrees
    rcases hparse : Source.parse s.names source with ⟨⟨n, e⟩ | program, table⟩
    · rw [Session.parse, hparse] at htrees
      cases htrees
    · rw [Session.parse, hparse] at htrees
      obtain rfl := Except.ok.inj htrees
      rw [Source.map_fst_parseAll hparse, Source.mem_numbers_iff hline, Bool.not_eq_false]
  · intro hblank
    have hkinds : (Token.scan line).map Token.kind = _ :=
      @Token.kinds_scanFrom_of_isBlank 0 line.toList (List.all_eq_true.1 hblank)
    rw [Token.lex, List.map_append, Token.kinds_scanWith, hkinds, Token.unseparated_eq, List.map_map]
    rfl

/-- A no-break space, with another invalid character behind it and on a line of its own. -/
theorem invalid_reported_unless_blank_no_break_space :
    (∃ number e, ((Session.initial : Session Integer).run "\u00a0%").1 = .error (.parse number e) ∧
      number ≤ 1) ∧
    (Token.lex .initial "\u00a0").1.map Token.kind = [.invalid, .eof] := by
  constructor
  · have hlines : (Text.lines "\u00a0%")[0]? = some "\u00a0%" := by cbv
    have hinvalid : (Token.lex .initial "\u00a0%").1
        = [⟨.invalid, ⟨0, 2⟩⟩, ⟨.invalid, ⟨2, 3⟩⟩, ⟨.eof, ⟨3, 3⟩⟩] := by cbv
    refine (invalid_reported_unless_blank Session.initial hlines .initial).1 (by decide)
      ⟨⟨.invalid, ⟨0, 2⟩⟩, ?_, rfl⟩
    rw [hinvalid]
    exact .head _
  · have hlines : (Text.lines "\u00a0")[0]? = some "\u00a0" := by cbv
    rw [(invalid_reported_unless_blank (Session.initial : Session Integer) hlines .initial).2.2
      (by decide)]
    decide

/-- A line that is passed over in spite of its only character, a no-break space. -/
theorem not_invalid_reported : ¬∀ (s : Session Integer) (source line : String),
    line ∈ Text.lines source → (∃ t ∈ (Token.lex s.names line).1, t.kind.isInvalid = true) →
      ∃ number e, (s.run source).1 = .error (.parse number e) := by
  intro h
  have hlines : Text.lines "\u00a0\nreturn 1" = ["\u00a0", "return 1"] := by cbv
  have hfaults : Source.faults "\u00a0\nreturn 1" = [] := by
    have hequations : Source.equationsFrom 1 ["\u00a0", "return 1"] = [(2, "return 1")] := by decide
    rw [Source.faults, Source.equations_eq, hlines, hequations]
    cbv
  have hinvalid : (Token.lex .initial "\u00a0").1 = [⟨.invalid, ⟨0, 2⟩⟩, ⟨.eof, ⟨2, 2⟩⟩] := by cbv
  obtain ⟨number, e, herror⟩ := h .initial "\u00a0\nreturn 1" "\u00a0" (by rw [hlines]; exact .head _)
    ⟨⟨.invalid, ⟨0, 2⟩⟩, by rw [Session.initial, Session.withNames, hinvalid]; exact .head _, rfl⟩
  obtain ⟨f, hf, -⟩ := Session.run_eq_parse_error_iff.1 herror
  rw [hfaults] at hf
  cases hf

end Reckoner
