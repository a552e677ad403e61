import Reckoner.Proofs.Command.Signals
import Reckoner.Proofs.Session.Blame

/-!
The lines of a program that do not parse. Listing the trees of a program passes over them and reports
all of them; a run reports the first one and nothing else. Neither the names that earlier lines have
put into the table nor what a session already binds makes a difference. -/

namespace Reckoner

variable {V E : Type}

/-- The tree of a line that parses has a dump. -/
theorem Tree.exists_dump {line : String} {tree : Tree String} (h : spelled line = .ok tree)
    (text : String → String) : ∃ dump, tree.dump? text = some dump := by
  obtain ⟨d, rfl, -⟩ := exists_derivation_spelled h
  have htrivial : Span.Mergeable fun _ => True := ⟨trivial, fun _ _ => trivial⟩
  exact (d.placed_toTree htrivial fun _ _ => trivial).exists_dump text

/-! ### Lines that parse, and lines that do not -/

namespace Source

/-- A line that does not parse: its number, its text, and what is wrong with it. -/
structure Fault where
  number : Nat
  line : String
  error : ParseError

/-- The report on the line. -/
def Fault.report (f : Fault) : List Piece :=
  (f.error.diagnostic.onLine f.number).render (some f.line)

/-- What is wrong with a numbered line, if it does not parse. -/
def fault? : Nat × String → Option Fault
  | (number, line) =>
    match Tree.spelled line with
    | .error e => some ⟨number, line, e⟩
    | .ok _ => none

/-- The tree of a numbered line, if it parses. -/
def tree? : Nat × String → Option (Nat × Tree String)
  | (number, line) =>
    match Tree.spelled line with
    | .error _ => none
    | .ok tree => some (number, tree)

/-- The lines of a program that are not blank and do not parse. -/
def faults (source : String) : List Fault := (equations source).filterMap fault?

/-- The trees of the lines of a program that are not blank and parse. -/
def trees (source : String) : List (Nat × Tree String) := (equations source).filterMap tree?

/-- What is listed for the tree of a line. -/
def treeRows : Nat × Tree String → String
  | (number, tree) => "line " ++ toString number ++ ":\n" ++ (tree.dump? id).getD ""

variable {number : Nat} {line : String} {lines : List (Nat × String)} {e : ParseError}
  {tree : Tree String} {f : Fault}

theorem fault?_eq_some_iff :
    fault? (number, line) = some f ↔
      Tree.spelled line = .error f.error ∧ f.number = number ∧ f.line = line := by
  obtain ⟨n, l, e⟩ := f
  cases hline : Tree.spelled line <;> simp [fault?, hline]
  tauto

theorem exists_of_mem_faults {source : String} (h : f ∈ faults source) :
    (f.number, f.line) ∈ equations source ∧ Tree.spelled f.line = .error f.error := by
  obtain ⟨⟨number, line⟩, hmem, hfault⟩ := List.mem_filterMap.1 h
  obtain ⟨hline, rfl, rfl⟩ := fault?_eq_some_iff.1 hfault
  exact ⟨hmem, hline⟩

theorem exists_of_mem_trees {source : String} (h : (number, tree) ∈ trees source) :
    ∃ line, (number, line) ∈ equations source ∧ Tree.spelled line = .ok tree := by
  obtain ⟨⟨number', line⟩, hmem, htree⟩ := List.mem_filterMap.1 h
  cases hline : Tree.spelled line <;> simp [tree?, hline] at htree
  obtain ⟨rfl, rfl⟩ := htree
  exact ⟨line, hmem, hline⟩

/-- Lines have trees if there are no faults among them, and else the error of the first fault. -/
theorem spelledAll_eq : ∀ lines : List (Nat × String),
    spelledAll lines = match lines.filterMap fault? with
      | [] => .ok (lines.filterMap tree?)
      | f :: _ => .error (f.number, f.error)
  | [] => rfl
  | (number, line) :: lines => by
    have ih := spelledAll_eq lines
    cases hline : Tree.spelled line with
    | error e => simp [spelledAll, fault?, hline]
    | ok tree =>
      simp only [spelledAll, fault?, tree?, hline, List.filterMap_cons, ih]
      cases lines.filterMap fault? <;> rfl

end Source

open Source

variable {names : NameTable} {line : String}

/-- What is listed for a line that parses is the same on every table. -/
theorem Tree.dump?_ofLine {tree : Tree Name} {spelled : Tree String}
    (h : (Tree.ofLine names line).1 = .ok tree) (hspelled : Tree.spelled line = .ok spelled) :
    tree.dump? (Tree.ofLine names line).2.text = spelled.dump? id := by
  have hmap := Tree.map_text_ofLine (.refl (Tree.ofLine names line).2)
  rw [h, hspelled] at hmap
  rw [← Except.ok.inj hmap, Tree.dump?_map]
  rfl

/-- On any table, the trees of the lines that parse are listed, and the errors of all others. -/
theorem parseListing_eq : ∀ (lines : List (Nat × String)) (names : NameTable),
    parseListing names lines
      = (String.join ((lines.filterMap tree?).map treeRows),
          (lines.filterMap fault?).map fun f => (f.number, f.error))
  | [], _ => rfl
  | (number, line) :: lines, names => by
    rcases hline : Tree.ofLine names line with ⟨e | tree, table⟩
    · have hspelled := Tree.ofLine_eq_error_iff.1 (congrArg Prod.fst hline)
      simp [parseListing, hline, parseListing_eq lines table, tree?, fault?, hspelled]
    · obtain ⟨spelled, hspelled, -⟩ := Tree.exists_spelled (congrArg Prod.fst hline)
      have hdump := Tree.dump?_ofLine (congrArg Prod.fst hline) hspelled
      rw [hline] at hdump
      simp [parseListing, hline, parseListing_eq lines table, tree?, fault?, hspelled, treeRows,
        hdump, String.join_cons, String.append_assoc]

/-- The report on a fault shows the text of its line. -/
theorem Source.Fault.renderIn_eq {source : String} {f : Fault} (h : f ∈ faults source) :
    (f.error.diagnostic.onLine f.number).renderIn source = f.report := by
  have hline := (mem_equations_iff.1 (exists_of_mem_faults h).1).2.1
  rw [Diagnostic.renderIn, Fault.report]
  exact congrArg _ hline

/-- The answer to `parse`: all trees, and a report on each fault. -/
theorem parseAnswer_eq (colors : Bool) (source : String) :
    parseAnswer colors source
      = ⟨if faults source = [] then 0 else 1, String.join ((trees source).map treeRows),
          Piece.paintAll colors ((faults source).flatMap Fault.report
            ++ summary (faults source).length)⟩ := by
  have hreports : ((faults source).map fun f => (f.number, f.error)).flatMap
      (fun r => (r.2.diagnostic.onLine r.1).renderIn source)
        = (faults source).flatMap Fault.report := by
    rw [List.flatMap_map]
    exact List.flatMap_congr fun f hf => f.renderIn_eq hf
  rw [parseAnswer, parseListing_eq, ← trees, ← faults, ← hreports]
  simp

/-! ### Runs -/

namespace Session

variable [Value V E] {s : Session V} {source : String}

/-- A run fails because a line does not parse just when there is a fault, and then with the first. -/
theorem run_eq_parse_error_iff {number : Nat} {e : ParseError} :
    (s.run source).1 = .error (.parse number e) ↔
      ∃ f, (faults source).head? = some f ∧ f.number = number ∧ f.error = e := by
  have hspelled := spelledAll_eq (equations source)
  rw [← faults] at hspelled
  cases hfaults : faults source with
  | nil =>
    rw [hfaults] at hspelled
    obtain ⟨program, hprogram⟩ := parseAll_of_spelled_ok hspelled s.names
    have hparse : Source.parse s.names source = (.ok program, (Source.parse s.names source).2) :=
      Prod.ext hprogram rfl
    rw [run_of_parse hparse]
    cases (s.bindings.run (Source.parse s.names source).2 (program.map (·.2))).1 <;> simp [report]
  | cons f rest =>
    rw [hfaults] at hspelled
    rw [run_of_parse_error (parseAll_of_spelled_error hspelled s.names)]
    simp

/-- The answer to a run without bindings in which a line does not parse. -/
theorem exit_err_runAnswer_of_fault [ToString V] [ToString E] {options : Options}
    (hbindings : options.bindings = []) {f : Fault} (hf : (faults source).head? = some f)
    (colors : Bool) :
    (s.runAnswer colors options source).exit = 1 ∧
      (s.runAnswer colors options source).err = Piece.paintAll colors (f.report ++ summary 1) := by
  have hrun : (s.run source).1 = .error (.parse f.number f.error) :=
    run_eq_parse_error_iff.2 ⟨f, hf, rfl, rfl⟩
  rw [runAnswer, hbindings, bindAll]
  dsimp only
  rw [hrun, ← Fault.renderIn_eq (List.mem_of_head? hf)]
  exact ⟨rfl, rfl⟩

end Session

/-- Both commands agree on the lines that do not parse. Given the same text and with output that is
no terminal, `parse` exits with one if there is any such line, and reports all of them in order, each
with its number and its text, and their count; for all others it prints their numbers and dumps. A
run fails with a parse error in the same cases, whatever the values and whatever the session has done
before: with that of the first such line, whose report is all that a run without bindings and in the
default colours writes to the error output. -/
theorem parse_agrees_with_run {args : List String} {options : Options}
    (hoptions : Options.ofArgs args = .ok options) (hbindings : options.bindings = [])
    (hcolor : options.color = .auto) (path : String) (more : List String) (source : String) :
    let parsed := (Request.ofArgs ("parse" :: path :: more)).answer false (.ok source)
    let ran := (Request.ofArgs ("run" :: args)).answer false (.ok source)
    (∀ (V E : Type) [Value V E] (s : Session V),
      parsed.exit = 1 ↔ ∃ number e, (s.run source).1 = .error (.parse number e)) ∧
    parsed.exit = (if faults source = [] then 0 else 1) ∧
    parsed.err = Piece.paintAll false
      ((faults source).flatMap Fault.report ++ summary (faults source).length) ∧
    (faults source = [] → parsed.err = "") ∧
    parsed.out = String.join ((trees source).map treeRows) ∧
    (∀ t ∈ trees source, ∃ dump, t.2.dump? id = some dump) ∧
    ∀ (V E : Type) [Value V E] (s : Session V) (number : Nat) (e : ParseError),
      (s.run source).1 = .error (.parse number e) →
        ∃ f rest, faults source = f :: rest ∧ f.number = number ∧ f.error = e ∧
          ran.exit = 1 ∧ ran.err = Piece.paintAll false (f.report ++ summary 1) := by
  intro parsed ran
  have hparsed : parsed = _ := parseAnswer_eq false source
  have hran : ran = runAnswer false options source := by
    simp only [ran, (Request.RunsWith.run args).ofArgs_of_ok hoptions]
    rfl
  rw [hparsed, hran]
  refine ⟨fun V E _ s => ?_, rfl, rfl, fun h => ?_, rfl, fun t ht => ?_,
    fun V E _ s number e herror => ?_⟩
  · -- a program without faults has no first one
    simp only [Session.run_eq_parse_error_iff]
    cases faults source <;> simp
  · rw [h]
    rfl
  · obtain ⟨line, -, hline⟩ := exists_of_mem_trees ht
    exact Tree.exists_dump hline id
  · obtain ⟨f, hf, hnumber, he⟩ := Session.run_eq_parse_error_iff.1 herror
    obtain ⟨rest, hfaults⟩ := List.head?_eq_some_iff.1 hf
    refine ⟨f, rest, hfaults, hnumber, he, ?_⟩
    rw [runAnswer, hcolor]
    cases options.mode with
    | integer => exact Session.exit_err_runAnswer_of_fault hbindings hf false
    | float => exact Session.exit_err_runAnswer_of_fault hbindings hf false

/-- An operand that is missing, and a character that no token begins with. -/
theorem parse_agrees_with_run_two_faults :
    faults "x = (\n\n%" = [⟨1, "x = (", .expectedExpression "end of line" ⟨5, 5⟩⟩,
        ⟨3, "%", .invalidCharacter ⟨0, 1⟩⟩] ∧
      ((Request.ofArgs ["parse", "-"]).answer false (.ok "x = (\n\n%")).exit = 1 ∧
      ((Request.ofArgs ["run", "-"]).answer false (.ok "x = (\n\n%")).err = Piece.paintAll false
        (Fault.report ⟨1, "x = (", .expectedExpression "end of line" ⟨5, 5⟩⟩ ++ summary 1) := by
  have hfaults : faults "x = (\n\n%" = [⟨1, "x = (", .expectedExpression "end of line" ⟨5, 5⟩⟩,
      ⟨3, "%", .invalidCharacter ⟨0, 1⟩⟩] := by cbv
  have hrun := (Session.run_eq_parse_error_iff (s := (Session.initial : Session Integer))).2
    ⟨_, congrArg List.head? hfaults, rfl, rfl⟩
  obtain ⟨-, hexit, -, -, -, -, hran⟩ :=
    @parse_agrees_with_run ["-"] ⟨.stdin, .integer, [], false, .auto⟩ rfl rfl rfl "-" [] "x = (\n\n%"
  obtain ⟨f, rest, hcons, -, -, -, herr⟩ := hran _ _ _ _ _ hrun
  obtain rfl := (List.cons.inj (hfaults.symm.trans hcons)).1
  rw [hfaults, if_neg (List.cons_ne_nil _ _)] at hexit
  exact ⟨hfaults, hexit, herr⟩

end Reckoner
