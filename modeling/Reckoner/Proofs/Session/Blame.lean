import Reckoner.Proofs.Diagnostic.Labels
import Reckoner.Proofs.Program.Effect
import Reckoner.Proofs.Session.Lines

/-!
Which line a failing program blames. It is one of its lines that are not blank, the one that the tree
that failed was read from; fed to the session behind the lines in front of it, it fails in the same
way. The report points into that line. -/

namespace Reckoner

variable {V E : Type}

/-! ### The line -/

namespace Source

/-- The number of the line that does not parse is its position. -/
theorem spelledAll_error : ∀ {lines : List String} {number : Nat} {e : Nat × ParseError},
    spelledAll (equationsFrom number lines) = .error e →
      ∃ before line after, lines = before ++ line :: after ∧ e.1 = number + before.length ∧
        Text.isBlankText line = false ∧ Tree.spelled line = .error e.2
  | [], number, e, h => by cases h
  | line :: lines, number, e, h => by
    have hlater : spelledAll (equationsFrom (number + 1) lines) = .error e →
        ∃ before l after, line :: lines = before ++ l :: after ∧ e.1 = number + before.length ∧
          Text.isBlankText l = false ∧ Tree.spelled l = .error e.2 := by
      intro h
      obtain ⟨before, l, after, rfl, hnumber, hl⟩ := spelledAll_error h
      refine ⟨line :: before, l, after, rfl, ?_, hl⟩
      rw [hnumber, List.length_cons]
      omega
    cases hblank : Text.isBlankText line with
    | true =>
      rw [equationsFrom_of_blank hblank] at h
      exact hlater h
    | false =>
      rw [equationsFrom_of_not_blank hblank, spelledAll] at h
      cases hline : Tree.spelled line with
      | error e' =>
        rw [hline] at h
        obtain rfl := Except.error.inj h
        exact ⟨[], line, lines, rfl, rfl, hblank, hline⟩
      | ok tree =>
        rw [hline] at h
        refine hlater ?_
        cases hrest : spelledAll (equationsFrom (number + 1) lines) with
        | error e' =>
          rw [hrest] at h
          exact congrArg Except.error (Except.error.inj h)
        | ok trees =>
          rw [hrest] at h
          cases h

/-- The equations of a program are its lines that are not blank, with their numbers. -/
theorem mem_equations_iff {source line : String} {number : Nat} :
    (number, line) ∈ equations source ↔
      1 ≤ number ∧ line? source number = some line ∧ Text.isBlankText line = false := by
  rw [equations, List.mem_filterMap]
  constructor
  · rintro ⟨⟨l, k⟩, hmem, h⟩
    obtain ⟨hblank, rfl, rfl⟩ : Text.isBlankText l = false ∧ k = number ∧ l = line := by
      simpa using h
    obtain ⟨hnumber, hline⟩ := List.mem_zipIdx_iff_le_and_getElem?_sub.1 hmem
    exact ⟨hnumber, hline, hblank⟩
  · rintro ⟨hnumber, hline, hblank⟩
    refine ⟨(line, number), List.mem_zipIdx_iff_le_and_getElem?_sub.2 ⟨hnumber, hline⟩, ?_⟩
    simp [hblank]

/-- The trees of a program are read from its lines, and keep their numbers. -/
theorem exists_of_mem_parseAll {number : Nat} {tree : Tree Name} :
    ∀ {lines : List (Nat × String)} {names table : NameTable} {program : List (Nat × Tree Name)},
      parseAll names lines = (.ok program, table) → (number, tree) ∈ program →
        ∃ line names, (number, line) ∈ lines ∧ (Tree.ofLine names line).1 = .ok tree
  | [], names, table, program, h, hmem => by
    obtain rfl := Except.ok.inj (congrArg Prod.fst h)
    cases hmem
  | (n, line) :: lines, names, table, program, h, hmem => by
    obtain ⟨t, names', trees, hline, hrest, rfl⟩ := exists_of_parseAll h
    rcases List.mem_cons.1 hmem with heq | hmem
    · obtain ⟨rfl, rfl⟩ := Prod.mk.inj heq
      exact ⟨line, names, List.mem_cons_self, congrArg Prod.fst hline⟩
    · obtain ⟨l, table', hl, htree⟩ := exists_of_mem_parseAll hrest hmem
      exact ⟨l, table', List.mem_cons_of_mem _ hl, htree⟩

end Source

namespace Session

variable [Value V E] {s s' : Session V} {line : String} {e : RunError E}

theorem evaluateLine_of_spelled_error {e : ParseError} (h : Tree.spelled line = .error e)
    (s : Session V) : (s.evaluateLine line).1 = .error (.parse 1 e) := by
  have hline : Tree.ofLine s.names line = (.error e, (Tree.ofLine s.names line).2) :=
    Prod.ext (Tree.ofLine_eq_error_iff.2 h) rfl
  rw [evaluateLine, hline]

/-- A line that fails does not parse, or its tree has no value. -/
theorem evaluateLine_error (h : (s.evaluateLine line).1 = .error e) :
    (∃ e', e = .parse 1 e' ∧ (Tree.ofLine s.names line).1 = .error e') ∨
      ∃ e' tree, ∃ scope : Scope Name V, e = .eval 1 e' ∧
        (Tree.ofLine s.names line).1 = .ok tree ∧ (tree.evaluate scope).1 = .error e' := by
  rcases hline : Tree.ofLine s.names line with ⟨e' | tree, table⟩
  · rw [evaluateLine, hline] at h
    exact .inl ⟨e', (Except.error.inj h).symm, rfl⟩
  · rw [evaluateLine_of_ok hline] at h
    cases hresult : (tree.evaluate (s.bindings.scope table)).1 with
    | ok outcome =>
      rw [hresult] at h
      cases h
    | error e' =>
      rw [hresult] at h
      exact .inr ⟨e', tree, _, (Except.error.inj h).symm, rfl, hresult⟩

/-- A single line is blamed as the first one. -/
theorem onLine_of_evaluateLine (h : (s.evaluateLine line).1 = .error e) (number : Nat) :
    (e.onLine number).line = number ∧ (e.onLine number).onLine 1 = e := by
  rcases evaluateLine_error h with ⟨e', rfl, -⟩ | ⟨e', tree, scope, rfl, -⟩ <;> exact ⟨rfl, rfl⟩

theorem feed_of_assigned {name : Name} {v : V} (hblank : Text.isBlankText line = false)
    (h : s.evaluateLine line = (.ok (.assigned name v), s')) (number : Nat) (lines : List String) :
    s.feed number (line :: lines) = s'.feed (number + 1) lines := by
  rw [feed, if_neg (Bool.eq_false_iff.1 hblank), h]

/-- The line that fails when lines are fed is the one at the position that its number says. -/
theorem feed_error : ∀ {lines : List String} {s : Session V} {number : Nat},
    (s.feed number lines).1 = .error e →
      ∃ before line after, lines = before ++ line :: after ∧ e.line = number + before.length ∧
        Text.isBlankText line = false ∧
          ((s.feed number before).2.evaluateLine line).1 = .error (e.onLine 1)
  | [], s, number, h => by cases h
  | first :: lines, s, number, h => by
    -- a session that goes on behind the first line fails at a later one
    have hlater : ∀ t : Session V, (∀ rest, s.feed number (first :: rest) = t.feed (number + 1) rest) →
        ∃ before line after, first :: lines = before ++ line :: after ∧
          e.line = number + before.length ∧ Text.isBlankText line = false ∧
            ((s.feed number before).2.evaluateLine line).1 = .error (e.onLine 1) := by
      intro t ht
      rw [ht] at h
      obtain ⟨before, line, after, rfl, hnumber, hblank, hline⟩ := feed_error h
      refine ⟨first :: before, line, after, rfl, ?_, hblank, ?_⟩
      · rw [hnumber, List.length_cons]
        omega
      · rw [ht]
        exact hline
    cases hblank : Text.isBlankText first with
    | true => exact hlater s (feed_of_blank hblank number)
    | false =>
      rcases hline : s.evaluateLine first with ⟨e' | ⟨name, v⟩ | v, t⟩
      · have hfirst : (s.evaluateLine first).1 = .error e' := congrArg Prod.fst hline
        rw [feed_of_error hblank hfirst] at h
        obtain rfl := Except.error.inj h
        obtain ⟨hnumber, honLine⟩ := onLine_of_evaluateLine hfirst number
        refine ⟨[], first, lines, rfl, hnumber, hblank, ?_⟩
        rw [honLine]
        exact hfirst
      · exact hlater t (feed_of_assigned hblank hline number)
      · rw [feed, if_neg (Bool.eq_false_iff.1 hblank), hline] at h
        cases h

/-- The text is the one that was read for a failure: it does not parse, or the tree at the position
where the run of the program failed was read from it. -/
inductive ReadFor (s : Session V) (source line : String) : RunError E → Prop where
  | parse {e : ParseError} (hline : ∀ names, (Tree.ofLine names line).1 = .error e)
      (number : Nat) : ReadFor s source line (.parse number e)
  | eval {names table : NameTable} {program : List (Nat × Tree Name)} {index number : Nat}
      {tree : Tree Name} {e : EvalError E}
      (hprogram : Source.parse s.names source = (.ok program, table))
      (hrun : (s.bindings.run table (program.map (·.2))).1 = .error ⟨index, e⟩)
      (htree : program[index]? = some (number, tree))
      (hline : (Tree.ofLine names line).1 = .ok tree) : ReadFor s source line (.eval number e)

/-- The number of a line that has no value is that of the tree that failed. -/
theorem exists_readFor {source : String} {program : List (Nat × Tree Name)}
    (hprogram : (Source.parse s.names source).1 = .ok program) (h : (s.run source).1 = .error e) :
    ∃ line, Source.line? source e.line = some line ∧ s.ReadFor source line e := by
  have hparse : Source.parse s.names source = (.ok program, (Source.parse s.names source).2) :=
    Prod.ext hprogram rfl
  generalize (Source.parse s.names source).2 = table at hparse
  rw [run_of_parse hparse] at h
  rcases hrun : (s.bindings.run table (program.map (·.2))).1 with ⟨index, error⟩ | v
  · rw [hrun] at h
    obtain ⟨herror, -, -⟩ : s.bindings.EndsAs table (program.map (·.2)) 0 _ _ :=
      Bindings.endsAs_runFrom (program.map (·.2)) s.bindings 0
    obtain ⟨hindex, t, ht, -⟩ := herror _ hrun
    rw [Nat.zero_add] at hindex
    rw [← hindex, List.getElem?_map, Option.map_eq_some_iff] at ht
    obtain ⟨⟨number, tree⟩, htree, rfl⟩ := ht
    obtain rfl : .eval number error = e := by simpa [report, htree] using h
    obtain ⟨line, names, hmem, hline⟩ :=
      Source.exists_of_mem_parseAll hparse (List.mem_of_getElem? htree)
    exact ⟨line, (Source.mem_equations_iff.1 hmem).2.1, .eval hparse hrun htree hline⟩
  · rw [hrun] at h
    cases h

/-- The line that a failing program blames is the one at the position that its number says. -/
theorem run_error {source : String} (h : (s.run source).1 = .error e) :
    ∃ before line after, Text.lines source = before ++ line :: after ∧ e.line = 1 + before.length ∧
      Text.isBlankText line = false ∧ s.ReadFor source line e ∧
        ((s.feed 1 before).2.evaluateLine line).1 = .error (e.onLine 1) := by
  cases hspelled : Source.spelledAll (Source.equations source) with
  | error e' =>
    rw [run_of_parse_error (Source.parseAll_of_spelled_error hspelled s.names)] at h
    obtain rfl := Except.error.inj h
    rw [Source.equations_eq] at hspelled
    obtain ⟨before, line, after, hlines, hnumber, hblank, hline⟩ := Source.spelledAll_error hspelled
    exact ⟨before, line, after, hlines, hnumber, hblank,
      .parse (fun _ => Tree.ofLine_eq_error_iff.2 hline) e'.1, evaluateLine_of_spelled_error hline _⟩
  | ok trees =>
    obtain ⟨program, hprogram⟩ := Source.parseAll_of_spelled_ok hspelled s.names
    obtain ⟨line', hline', hread⟩ := exists_readFor hprogram h
    rw [(run_of_parse_ok hprogram).1] at h
    obtain ⟨before, line, after, hlines, hnumber, hblank, hline⟩ := feed_error h
    obtain rfl : line = line' := by
      rw [Source.line?, hlines, hnumber, Nat.add_sub_cancel_left] at hline'
      simpa using hline'
    exact ⟨before, line, after, hlines, hnumber, hblank, hread, hline⟩

/-! ### The place -/

/-- The report on a line that fails points at parts of the line that are ASCII, or at a single invalid
character; all in front of these is ASCII. -/
theorem blamed_of_evaluateLine [ToString E] (h : (s.evaluateLine line).1 = .error e) :
    e.cause.Within (Span.MarksAscii line) ∨ ∃ span before c after,
      e = .parse 1 (.invalidCharacter span) ∧
        span.Covers line before (String.singleton c) after ∧ Text.Ascii before.toList := by
  rcases evaluateLine_error h with ⟨e', rfl, hline⟩ | ⟨e', tree, scope, rfl, hline, hresult⟩
  · rcases Tree.within_ofLine hline with hascii | ⟨span, before, c, after, rfl, hcovers, hbefore⟩
    · exact .inl hascii
    · exact .inr ⟨span, before, c, after, rfl, hcovers, hbefore⟩
  · exact .inl (Tree.within_evaluate hline hresult)

/-- The report on a line that fails points at marks of the line. -/
theorem within_evaluateLine [ToString E] (h : (s.evaluateLine line).1 = .error e) :
    e.cause.Within (Span.Marks line) := by
  rcases blamed_of_evaluateLine h with hascii | ⟨span, before, c, after, rfl, hcovers, hbefore⟩
  · exact fun label hlabel => (hascii label hlabel).marks
  · exact ParseError.within_iff.2 ⟨hcovers.marks hbefore, by simp [ParseError.related?]⟩

end Session

theorem RunError.labels_onLine [ToString E] (e : RunError E) (number : Nat) :
    (e.onLine number).cause.labels = e.diagnostic.labels := by
  cases e <;> rfl

/-- A failing program blames one of its lines, which is not blank: the one that was read for the
failure, and that fails in the same way behind the lines in front of it. Each place that the report
points at covers a text of this line, between two of its characters; all characters in front of it
are ASCII, so that it starts behind as many bytes as characters, and its length is the number of
bytes that it covers. -/
theorem run_error_within_line [Value V E] [ToString E] {s : Session V} {source : String}
    {e : RunError E} (h : (s.run source).1 = .error e) :
    1 ≤ e.line ∧ e.line ≤ (Text.lines source).length ∧
    ∃ line, Source.line? source e.line = some line ∧ Text.isBlankText line = false ∧
      s.ReadFor source line e ∧
      ((s.feed 1 ((Text.lines source).take (e.line - 1))).2.evaluateLine line).1
        = .error (e.onLine 1) ∧
      ∀ label ∈ e.diagnostic.labels,
        label.span.start ≤ label.span.stop ∧ label.span.stop ≤ line.utf8ByteSize ∧
        ∃ before text after, label.span.Covers line before text after ∧
          (∀ c ∈ before.toList, c.toNat < 128) ∧ label.span.start = before.length ∧
          label.span.len = text.utf8ByteSize := by
  obtain ⟨before, line, after, hlines, hnumber, hblank, hread, hline⟩ := Session.run_error h
  have hlength := congrArg List.length hlines
  rw [List.length_append, List.length_cons] at hlength
  have hposition : e.line - 1 = before.length := by omega
  have htake : (Text.lines source).take (e.line - 1) = before := by
    rw [hlines, hposition, List.take_left']
    rfl
  refine ⟨by omega, by omega, line, ?_, hblank, hread, ?_, ?_⟩
  · rw [Source.line?, hlines, hposition, List.getElem?_append_right le_rfl, Nat.sub_self]
    rfl
  · rw [htake]
    exact hline
  · intro label hlabel
    rw [← RunError.labels_onLine e 1] at hlabel
    have hmarks := Session.within_evaluateLine hline label hlabel
    obtain ⟨before, text, after, hcovers, hascii, hcolumn⟩ := hmarks.exists_covers
    refine ⟨hmarks.le, hcovers.le_utf8ByteSize.2, before, text, after, hcovers, hascii, hcolumn, ?_⟩
    rw [Span.len, if_pos hmarks.le, hcovers.start_eq, hcovers.stop_eq, String.utf8ByteSize_append]
    omega

/-- A parenthesis that the end of the third line leaves open. -/
theorem run_error_within_line_unclosed :
    ((Session.initial : Session Integer).run "x = 1\n\ny = (x").1
        = .error (.parse 3 (.unclosedParen ⟨4, 5⟩ "end of line" ⟨6, 6⟩)) ∧
      Source.line? "x = 1\n\ny = (x" 3 = some "y = (x" ∧
      ∃ before text after, (⟨4, 5⟩ : Span).Covers "y = (x" before text after ∧
        before.length = 4 ∧ text.utf8ByteSize = 1 := by
  have hspelled : Source.spelledAll (Source.equations "x = 1\n\ny = (x")
      = .error (3, .unclosedParen ⟨4, 5⟩ "end of line" ⟨6, 6⟩) := by
    have hlines : Text.lines "x = 1\n\ny = (x" = ["x = 1", "", "y = (x"] := by cbv
    rw [Source.equations_eq, hlines, show Source.equationsFrom 1 ["x = 1", "", "y = (x"]
      = [(1, "x = 1"), (3, "y = (x")] by decide]
    cbv
  have hrun : ((Session.initial : Session Integer).run "x = 1\n\ny = (x").1
      = .error (.parse 3 (.unclosedParen ⟨4, 5⟩ "end of line" ⟨6, 6⟩)) := by
    rw [Session.run_of_parse_error (Source.parseAll_of_spelled_error hspelled _)]
  have hline : Source.line? "x = 1\n\ny = (x" 3 = some "y = (x" := by cbv
  obtain ⟨-, -, line, hthird, -, -, -, hlabels⟩ := run_error_within_line hrun
  obtain rfl : "y = (x" = line := Option.some.inj (hline.symm.trans hthird)
  obtain ⟨-, -, before, text, after, hcovers, -, hstart, hlen⟩ :=
    hlabels ⟨⟨4, 5⟩, "unclosed `(` opened here", false⟩ (.tail _ (.head _))
  exact ⟨hrun, hline, before, text, after, hcovers, hstart.symm, hlen.symm⟩

end Reckoner
