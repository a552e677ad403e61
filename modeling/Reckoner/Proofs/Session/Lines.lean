import Mathlib
import Reckoner.Proofs.Renaming.Line
import Reckoner.Session

/-!
Programs line by line. Running a program parses all of its lines before it evaluates any; feeding
its lines to the session one after the other does the same, as long as every line parses. Names that
later lines have put into the table change nothing for the earlier ones. -/

namespace Reckoner

variable {V E : Type}

/-- The failure, on another line. -/
def RunError.onLine (number : Nat) : RunError E → RunError E
  | .parse _ e => .parse number e
  | .eval _ e => .eval number e

/-- Evaluates lines one at a time, the first of which has the number `number`: blank lines are passed
over, and the first line that returns or fails is the last one. -/
def Session.feed [Value V E] (s : Session V) (number : Nat) :
    List String → Except (RunError E) (Option V) × Session V
  | [] => (.ok none, s)
  | line :: lines =>
    if Text.isBlankText line then feed s (number + 1) lines
    else
      match s.evaluateLine line with
      | (.ok (.returned v), s) => (.ok (some v), s)
      | (.ok (.assigned _ _), s) => feed s (number + 1) lines
      | (.error e, s) => (.error (e.onLine number), s)

/-! ### Parsing lines -/

namespace Source

/-- The lines that are not blank with their numbers, when the first line has the number `number`. -/
def equationsFrom (number : Nat) : List String → List (Nat × String)
  | [] => []
  | line :: lines =>
    if Text.isBlankText line then equationsFrom (number + 1) lines
    else (number, line) :: equationsFrom (number + 1) lines

theorem equations_eq (source : String) :
    equations source = equationsFrom 1 (Text.lines source) := by
  rw [equations]
  generalize Text.lines source = lines
  generalize 1 = number
  induction lines generalizing number with
  | nil => rfl
  | cons line lines ih =>
    rw [List.zipIdx_cons, List.filterMap_cons, equationsFrom, ← ih]
    split <;> simp_all

variable {names table : NameTable} {line : String} {number : Nat} {rest : List (Nat × String)}
  {e : ParseError} {tree : Tree Name}

theorem equationsFrom_of_blank (h : Text.isBlankText line = true) (number : Nat)
    (lines : List String) :
    equationsFrom number (line :: lines) = equationsFrom (number + 1) lines := by
  rw [equationsFrom, if_pos h]

theorem equationsFrom_of_not_blank (h : Text.isBlankText line = false) (number : Nat)
    (lines : List String) : equationsFrom number (line :: lines)
      = (number, line) :: equationsFrom (number + 1) lines := by
  rw [equationsFrom, if_neg (Bool.eq_false_iff.1 h)]

theorem parseAll_of_ok (h : Tree.ofLine names line = (.ok tree, table)) (number : Nat)
    (rest : List (Nat × String)) : parseAll names ((number, line) :: rest)
      = ((parseAll table rest).1.map ((number, tree) :: ·), (parseAll table rest).2) := by
  rw [parseAll, h]
  dsimp only
  rcases parseAll table rest with ⟨_ | trees, table⟩ <;> rfl

theorem parseAll_of_error (h : Tree.ofLine names line = (.error e, table)) (number : Nat)
    (rest : List (Nat × String)) :
    parseAll names ((number, line) :: rest) = (.error (number, e), table) := by
  rw [parseAll, h]

/-- Lines that parse to some trees are led by a line that does. -/
theorem exists_of_parseAll {program : List (Nat × Tree Name)}
    (h : parseAll names ((number, line) :: rest) = (.ok program, table)) :
    ∃ tree names' trees, Tree.ofLine names line = (.ok tree, names') ∧
      parseAll names' rest = (.ok trees, table) ∧ program = (number, tree) :: trees := by
  rcases hline : Tree.ofLine names line with ⟨e | tree, names'⟩
  · simp [parseAll_of_error hline] at h
  · rcases hrest : parseAll names' rest with ⟨e | trees, table'⟩
    · simp [parseAll_of_ok hline, hrest, Except.map] at h
    · simp only [parseAll_of_ok hline, hrest, Except.map, Prod.mk.injEq, Except.ok.injEq] at h
      exact ⟨tree, names', trees, rfl, by rw [hrest, h.2], h.1.symm⟩

theorem grows_parseAll : ∀ (names : NameTable) (lines : List (Nat × String)),
    names.Grows (parseAll names lines).2
  | names, [] => .refl names
  | names, (number, line) :: rest => by
    have hline := Tree.grows_ofLine names line
    rcases hresult : Tree.ofLine names line with ⟨e | tree, table⟩ <;> rw [hresult] at hline
    · rwa [parseAll_of_error hresult]
    · rw [parseAll_of_ok hresult]
      exact hline.trans (grows_parseAll table rest)

/-! ### Parsing without a table -/

/-- The trees of numbered lines with their texts in place of names, up to the first that does not
parse. -/
def spelledAll : List (Nat × String) → Except (Nat × ParseError) (List (Nat × Tree String))
  | [] => .ok []
  | (number, line) :: rest =>
    match Tree.spelled line with
    | .error e => .error (number, e)
    | .ok tree => (spelledAll rest).map ((number, tree) :: ·)

/-- Programs parse on a table if they do without one, and the names in their trees stand for the
texts of the lines. -/
theorem map_text_parseAll : ∀ {lines : List (Nat × String)} {names later : NameTable},
    (parseAll names lines).2.Grows later →
      (parseAll names lines).1.map (List.map (Prod.map id (Tree.map later.text)))
        = spelledAll lines
  | [], _, _, _ => rfl
  | (number, line) :: rest, names, later, hlater => by
    rcases hline : Tree.ofLine names line with ⟨e | tree, table⟩
    · have hspelled := Tree.ofLine_eq_error_iff.1 (congrArg Prod.fst hline)
      rw [parseAll_of_error hline, spelledAll, hspelled]
      rfl
    · rw [parseAll_of_ok hline] at hlater ⊢
      have ih := map_text_parseAll hlater
      have htable : table.Grows later := (grows_parseAll table rest).trans hlater
      have htext := @Tree.map_text_ofLine names later line (by rw [hline]; exact htable)
      rw [hline] at htext
      rw [spelledAll, ← htext, ← ih]
      cases (parseAll table rest).1 <;> rfl

variable {lines : List (Nat × String)}

theorem parseAll_of_spelled_error {e : Nat × ParseError} (h : spelledAll lines = .error e)
    (names : NameTable) : (parseAll names lines).1 = .error e := by
  rw [← map_text_parseAll (.refl (parseAll names lines).2)] at h
  cases hresult : (parseAll names lines).1 <;> simp_all [Except.map]

theorem parseAll_of_spelled_ok {trees : List (Nat × Tree String)} (h : spelledAll lines = .ok trees)
    (names : NameTable) : ∃ program, (parseAll names lines).1 = .ok program := by
  rw [← map_text_parseAll (.refl (parseAll names lines).2)] at h
  cases hresult : (parseAll names lines).1 <;> simp_all [Except.map]

/-- Whether each line that is not blank has a tree. -/
def ParsesAll (lines : List String) : Prop :=
  ∀ line ∈ lines, Text.isBlankText line = false → ∃ tree, Tree.spelled line = .ok tree

theorem spelledAll_of_parsesAll : ∀ {lines : List String}, ParsesAll lines → ∀ number : Nat,
    ∃ trees, spelledAll (equationsFrom number lines) = .ok trees
  | [], _, _ => ⟨[], rfl⟩
  | line :: lines, h, number => by
    obtain ⟨hline, hlines⟩ := List.forall_mem_cons.1 h
    obtain ⟨trees, htrees⟩ := spelledAll_of_parsesAll hlines (number + 1)
    cases hblank : Text.isBlankText line with
    | true => exact ⟨trees, by rw [equationsFrom_of_blank hblank, htrees]⟩
    | false =>
      obtain ⟨tree, htree⟩ := hline hblank
      exact ⟨(number, tree) :: trees, by
        simp [equationsFrom_of_not_blank hblank, spelledAll, htree, htrees, Except.map]⟩

/-- The first line that does not parse is the one with the error. -/
theorem spelledAll_of_error_behind (hblank : Text.isBlankText line = false)
    (herror : Tree.spelled line = .error e) (after : List String) :
    ∀ {before : List String}, ParsesAll before → ∀ number : Nat,
      spelledAll (equationsFrom number (before ++ line :: after))
        = .error (number + before.length, e)
  | [], _, number => by simp [equationsFrom_of_not_blank hblank, spelledAll, herror]
  | first :: before, h, number => by
    obtain ⟨hfirst, hbefore⟩ := List.forall_mem_cons.1 h
    have ih := spelledAll_of_error_behind hblank herror after hbefore (number + 1)
    rw [Nat.add_assoc, Nat.add_comm 1] at ih
    cases hfirstBlank : Text.isBlankText first with
    | true => rw [List.cons_append, equationsFrom_of_blank hfirstBlank, ih, List.length_cons]
    | false =>
      obtain ⟨tree, htree⟩ := hfirst hfirstBlank
      simp [equationsFrom_of_not_blank hfirstBlank, spelledAll, htree, ih, Except.map]

end Source

/-! ### Running lines -/

namespace Session

variable [Value V E] {s : Session V} {source : String} {table later : NameTable}
  {program : List (Nat × Tree Name)}

/-- What a session answers when lines have been run, the position of a failure exchanged for the
number of the line. -/
def report (program : List (Nat × Tree Name)) :
    Except (LineError E) (Option V) → Except (RunError E) (Option V)
  | .ok v => .ok v
  | .error e => .error (.eval ((program[e.index]?.map (·.1)).getD 0) e.error)

theorem run_of_parse (h : Source.parse s.names source = (.ok program, table)) :
    s.run source = (report program (s.bindings.run table (program.map (·.2))).1,
      ⟨table, (s.bindings.run table (program.map (·.2))).2⟩) := by
  rw [run, parse, h]
  dsimp only
  generalize s.bindings.run table (program.map (·.2)) = result
  obtain ⟨_ | v, b⟩ := result <;> rfl

theorem run_of_parse_error {number : Nat} {e : ParseError}
    (h : (Source.parse s.names source).1 = .error (number, e)) :
    s.run source = (.error (.parse number e), { s with names := (Source.parse s.names source).2 }) := by
  have hparse : Source.parse s.names source
      = (.error (number, e), (Source.parse s.names source).2) := Prod.ext h rfl
  rw [run, parse, hparse]

/-- What a line that has a tree does to a session. -/
theorem evaluateLine_of_ok {line : String} {tree : Tree Name}
    (h : Tree.ofLine s.names line = (.ok tree, table)) :
    s.evaluateLine line
      = ((tree.evaluate (s.bindings.scope table)).1.mapError (.eval 1),
          ⟨table, s.bindings.after (tree.evaluate (s.bindings.scope table)).1⟩) := by
  rw [evaluateLine, h]
  dsimp only [Bindings.evaluate]
  generalize (tree.evaluate (s.bindings.scope table)).1 = result
  cases result <;> rfl

/-- A line does the same after later lines have been parsed. -/
theorem evaluate_later {names : NameTable} {line : String} {tree : Tree Name}
    (h : Tree.ofLine names line = (.ok tree, table)) (hlater : table.Grows later)
    (b : Bindings V) :
    (tree.evaluate (b.scope later)).1 = (tree.evaluate (b.scope table)).1 := by
  obtain ⟨t, ht, rfl⟩ := Tree.exists_spelled (congrArg Prod.fst h)
  obtain rfl : (Tree.ofLine names line).2 = table := congrArg Prod.snd h
  have henv : ∀ s ∈ (Tree.ofLine names line).2.texts, b.get? ((Tree.ofLine names line).2.nameOf s)
      = (b.get? ∘ (Tree.ofLine names line).2.nameOf) s := fun _ _ => rfl
  exact (Tree.evaluate_eq_spelled ht hlater henv).1.trans
    (Tree.evaluate_eq_spelled ht (.refl _) henv).1.symm

theorem feed_of_blank {line : String} (h : Text.isBlankText line = true) (number : Nat)
    (lines : List String) : s.feed number (line :: lines) = s.feed (number + 1) lines := by
  rw [feed, if_pos h]

theorem feed_of_error {line : String} {e : RunError E} (hblank : Text.isBlankText line = false)
    (h : (s.evaluateLine line).1 = .error e) (number : Nat) (lines : List String) :
    (s.feed number (line :: lines)).1 = .error (e.onLine number) := by
  rw [feed, if_neg (Bool.eq_false_iff.1 hblank)]
  rcases hline : s.evaluateLine line with ⟨result, s'⟩
  rw [hline] at h
  obtain rfl : result = .error e := h
  rfl

/-- Feeding lines does what running them does, on any later state of the table. -/
theorem feed_eq_runFrom : ∀ {lines : List String} {number : Nat} {s : Session V}
    {before program : List (Nat × Tree Name)},
    Source.parseAll s.names (Source.equationsFrom number lines) = (.ok program, table) →
      table.Grows later →
      (s.feed number lines).1
          = report (before ++ program)
              (s.bindings.runFrom later before.length (program.map (·.2))).1 ∧
        (s.feed number lines).2.bindings
          = (s.bindings.runFrom later before.length (program.map (·.2))).2 ∧
        (s.feed number lines).2.names.Grows table
  | [], number, s, before, program, hparse, hlater => by
    obtain ⟨hprogram, rfl⟩ := Prod.mk.inj hparse
    obtain rfl := Except.ok.inj hprogram
    exact ⟨rfl, rfl, .refl s.names⟩
  | line :: lines, number, s, before, program, hparse, hlater => by
    cases hblank : Text.isBlankText line with
    | true =>
      rw [Source.equationsFrom_of_blank hblank] at hparse
      rw [feed_of_blank hblank]
      exact feed_eq_runFrom hparse hlater
    | false =>
      rw [Source.equationsFrom_of_not_blank hblank] at hparse
      obtain ⟨tree, names, trees, hline, hrest, rfl⟩ := Source.exists_of_parseAll hparse
      have hgrows := Source.grows_parseAll names (Source.equationsFrom (number + 1) lines)
      rw [hrest] at hgrows
      have hevaluate := evaluate_later hline (hgrows.trans hlater) s.bindings
      rw [feed, if_neg (Bool.eq_false_iff.1 hblank), evaluateLine_of_ok hline, List.map_cons,
        Bindings.runFrom, Bindings.evaluate]
      dsimp only
      rw [hevaluate]
      generalize (tree.evaluate (s.bindings.scope names)).1 = result
      rcases result with e | ⟨name, v⟩ | v
      · exact ⟨by simp [report, RunError.onLine, Except.mapError], rfl, hgrows⟩
      · have ih := @feed_eq_runFrom lines (number + 1) ⟨names, s.bindings.insert name v⟩
          (before ++ [(number, tree)]) trees hrest hlater
        rwa [List.append_assoc, List.length_append] at ih
      · exact ⟨rfl, rfl, hgrows⟩

/-- Running a program that parses does what feeding its lines one by one does. -/
theorem run_of_parse_ok (h : (Source.parse s.names source).1 = .ok program) :
    (s.run source).1 = (s.feed 1 (Text.lines source)).1 ∧
      (s.run source).2.bindings = (s.feed 1 (Text.lines source)).2.bindings ∧
        (s.feed 1 (Text.lines source)).2.names.Grows (s.run source).2.names := by
  have hparse : Source.parse s.names source = (.ok program, (Source.parse s.names source).2) :=
    Prod.ext h rfl
  have hfrom : Source.parseAll s.names (Source.equationsFrom 1 (Text.lines source))
      = (.ok program, (Source.parse s.names source).2) := by
    rw [← Source.equations_eq]
    exact hparse
  obtain ⟨hresult, hbindings, hnames⟩ := @feed_eq_runFrom V E _ _ _ _ 1 s [] program hfrom (.refl _)
  rw [run_of_parse hparse]
  exact ⟨hresult.symm, hbindings.symm, hnames⟩

/-- It does so for every program each line of which parses or is blank. -/
theorem run_of_parsesAll (h : Source.ParsesAll (Text.lines source)) :
    (s.run source).1 = (s.feed 1 (Text.lines source)).1 ∧
      (s.run source).2.bindings = (s.feed 1 (Text.lines source)).2.bindings ∧
        (s.feed 1 (Text.lines source)).2.names.Grows (s.run source).2.names := by
  obtain ⟨trees, htrees⟩ := Source.spelledAll_of_parsesAll h 1
  rw [← Source.equations_eq] at htrees
  obtain ⟨program, hprogram⟩ := Source.parseAll_of_spelled_ok htrees s.names
  exact run_of_parse_ok hprogram

/-- Running a program is feeding its lines one after the other, up to the first that returns or
fails, if all lines that are not blank parse; the names of later lines are all that is added. If a
line does not parse, the first such line is the answer, and no line has been evaluated. -/
theorem run_eq_feed (s : Session V) (source : String) :
    ((∀ line ∈ Text.lines source, Text.isBlankText line = false →
        ∃ tree, (Tree.ofLine s.names line).1 = .ok tree) →
      (s.run source).1 = (s.feed 1 (Text.lines source)).1 ∧
        (s.run source).2.bindings = (s.feed 1 (Text.lines source)).2.bindings ∧
          (s.feed 1 (Text.lines source)).2.names.Grows (s.run source).2.names) ∧
    ∀ before line after e, Text.lines source = before ++ line :: after →
      (∀ earlier ∈ before, Text.isBlankText earlier = false →
        ∃ tree, (Tree.ofLine s.names earlier).1 = .ok tree) →
      Text.isBlankText line = false → (Tree.ofLine s.names line).1 = .error e →
        (s.run source).1 = .error (.parse (before.length + 1) e) ∧
          (s.run source).2.bindings = s.bindings := by
  refine ⟨fun h => ?_, fun before line after e hlines hbefore hblank herror => ?_⟩
  · exact run_of_parsesAll fun line hline hblank =>
      Tree.exists_ofLine_eq_ok_iff.1 (h line hline hblank)
  · have hparses : Source.ParsesAll before := fun earlier hearlier h =>
      Tree.exists_ofLine_eq_ok_iff.1 (hbefore earlier hearlier h)
    have hspelled := Source.spelledAll_of_error_behind hblank (Tree.ofLine_eq_error_iff.1 herror)
      after hparses 1
    rw [← hlines, ← Source.equations_eq, Nat.add_comm] at hspelled
    rw [run_of_parse_error (Source.parseAll_of_spelled_error hspelled s.names)]
    exact ⟨rfl, rfl⟩

/-- A failing line behind a blank one, and a line that does not parse behind one that returns. -/
theorem run_eq_feed_division_and_unfinished :
    ((initial : Session Integer).run "\nreturn 1/0").1
        = .error (.eval 2 (.arithmetic .divisionByZero ⟨7, 10⟩)) ∧
      ((initial : Session Integer).run "return 1\n\na=").1
        = .error (.parse 3 (.expectedExpression "end of line" ⟨2, 2⟩)) := by
  have hexists : ∀ {line}, (Tree.ofLine NameTable.initial line).1.isOk = true →
      ∃ tree, (Tree.ofLine NameTable.initial line).1 = .ok tree := by
    intro line h
    match (Tree.ofLine NameTable.initial line).1, h with
    | .ok tree, _ => exact ⟨tree, rfl⟩
  constructor
  · have hlines : Text.lines "\nreturn 1/0" = ["", "return 1/0"] := by cbv
    have hline : ((initial : Session Integer).evaluateLine "return 1/0").1
        = .error (.eval 1 (.arithmetic .divisionByZero ⟨7, 10⟩)) := by cbv
    have hrun := (run_eq_feed (initial : Session Integer) "\nreturn 1/0").1
    rw [hlines] at hrun
    rw [(hrun ?_).1, feed_of_blank (by cbv), feed_of_error (by cbv) hline]
    · rfl
    · refine List.forall_mem_cons.2 ⟨fun h => absurd h (by decide), fun line hmem _ => ?_⟩
      obtain rfl := List.mem_singleton.1 hmem
      exact hexists (by cbv)
  · have hlines : Text.lines "return 1\n\na=" = ["return 1", ""] ++ "a=" :: [] := by cbv
    refine ((run_eq_feed (initial : Session Integer) "return 1\n\na=").2 _ _ _ _ hlines
      (List.forall_mem_cons.2 ⟨fun _ => hexists (by cbv), fun line hmem h => ?_⟩) (by cbv)
      (by cbv)).1
    obtain rfl := List.mem_singleton.1 hmem
    exact absurd h (by decide)

end Session

end Reckoner
