import Reckoner.Command
import Reckoner.Proofs.Session.Reachable

/-!
What a command leaves behind. Whatever the arguments are and whatever is read, a command that fails
says so twice, by its exit code and by a message, and one that succeeds does neither. A run prints
nothing before its bindings are made; from then on it prints the value that was returned, and on
request the bindings at the end, however the program ended. -/

namespace Reckoner

variable {V E : Type}

/-! ### Messages -/

theorem Text.join_eq_empty_iff {ss : List String} : String.join ss = "" ↔ ∀ s ∈ ss, s = "" := by
  induction ss with
  | nil => simp [String.join_nil]
  | cons s ss ih => simp [String.join_cons, ih]

theorem Help.unlines_ne_empty (l : String) (ls : List String) : unlines (l :: ls) ≠ "" := by
  simp [unlines, Text.join_eq_empty_iff]

theorem Piece.paint_ne_empty {p : Piece} (h : p.text ≠ "") (colors : Bool) : p.paint colors ≠ "" := by
  obtain ⟨style, text⟩ := p
  cases style with
  | none => exact h
  | some style => cases colors <;> simp [paint, h]

/-- Some text is left of a summary of errors, in colours or without. -/
theorem paintAll_summary_ne_empty {errors : Nat} (h : errors ≠ 0) (reports : List Piece)
    (colors : Bool) : Piece.paintAll colors (reports ++ summary errors) ≠ "" := by
  intro hempty
  have hall := Text.join_eq_empty_iff.1 hempty
  refine Piece.paint_ne_empty (p := .styled .error "error") (by decide) colors (hall _ ?_)
  exact List.mem_map_of_mem (List.mem_append_right _ (by simp [summary, h]))

/-! ### Exit codes -/

/-- Failure is an exit code of one with a message, and success is zero without any. -/
inductive Answer.Signals (a : Answer) : Prop where
  | success (hexit : a.exit = 0) (herr : a.err = "")
  | failure (hexit : a.exit = 1) (herr : a.err ≠ "")

namespace Answer

variable {a : Answer}

theorem signals_ok (out : String) : (ok out).Signals := .success rfl rfl

theorem signals_failed {err : String} (h : err ≠ "") : (failed err).Signals := .failure rfl h

theorem Signals.exit_iff (h : a.Signals) :
    (a.exit = 0 ∨ a.exit = 1) ∧ (a.exit = 1 ↔ a.err ≠ "") := by
  cases h with
  | success hexit herr => simp [hexit, herr]
  | failure hexit herr => simp [hexit, herr]

end Answer

theorem signals_explain (text : String) : (explain text).Signals := by
  unfold explain
  split
  · exact .success rfl rfl
  · exact .failure rfl (Help.unlines_ne_empty _ _)

namespace Request

/-- A request that is settled by the arguments alone signals what became of it. -/
def Settled (r : Request) : Prop := ∀ a, r = .done a → a.Signals

theorem settled_done {a : Answer} (h : a.Signals) : Settled (.done a) := by
  rintro _ ⟨⟩
  exact h

theorem settled_ofRunArgs (args : List String) : (ofRunArgs args).Settled := by
  unfold ofRunArgs
  split
  · exact nofun
  · exact settled_done (.failure rfl (by simp [Answer.failed]))

theorem settled_ofArgs (args : List String) : (ofArgs args).Settled := by
  unfold ofArgs
  split
  · exact settled_done (.success rfl rfl)
  · split
    · exact settled_done (.failure rfl (Help.unlines_ne_empty _ _))
    · exact settled_ofRunArgs _
    · exact settled_done (.failure rfl (Help.unlines_ne_empty _ _))
    · exact nofun
    · exact settled_done (.failure rfl (Help.unlines_ne_empty _ _))
    · exact nofun
    · exact settled_done (.failure rfl (Help.unlines_ne_empty _ _))
    · exact settled_done (.failure rfl (Help.unlines_ne_empty _ _))
    · exact settled_done (signals_explain _)
    · exact settled_done (signals_explain _)
    all_goals try exact settled_done (.success rfl rfl)
    split
    · exact settled_ofRunArgs _
    · exact settled_done (.failure rfl (by simp))

end Request

theorem signals_parseAnswer (colors : Bool) (source : String) :
    (parseAnswer colors source).Signals := by
  rw [parseAnswer]
  rcases parseListing .initial (Source.equations source) with ⟨out, - | ⟨e, errors⟩⟩
  · exact .success rfl rfl
  · exact .failure rfl (paintAll_summary_ne_empty (by simp) _ _)

/-! ### Runs -/

namespace Session

variable [Value V E] [ToString V] [ToString E] {s bound : Session V} {options : Options}

/-- The row of the value that a run returned, if it returned one. -/
def returnedRow : Except (RunError E) (Option V) → String
  | .ok (some v) => toString v ++ "\n"
  | _ => ""

/-- The row of a binding. -/
def bindingRow (binding : String × V) : String := binding.1 ++ " = " ++ toString binding.2 ++ "\n"

theorem runAnswer_of_unbound {report : List Piece} (h : s.bindAll options.bindings = .error report)
    (colors : Bool) (source : String) :
    s.runAnswer colors options source = .failed (Piece.paintAll colors (report ++ summary 1)) := by
  rw [runAnswer, h]

/-- What a run with bindings prints, and that it fails just when its program does. -/
theorem runAnswer_of_bound (h : s.bindAll options.bindings = .ok bound) (colors : Bool)
    (source : String) :
    (s.runAnswer colors options source).out = returnedRow (bound.run source).1
        ++ (if options.showBindings then (bound.run source).2.bindingRows else "") ∧
      ((s.runAnswer colors options source).exit = 1 ↔ ∃ e, (bound.run source).1 = .error e) := by
  rw [runAnswer, h]
  dsimp only
  rcases (bound.run source).1 with e | - | v <;> simp [returnedRow, Answer.ok]

theorem signals_runAnswer (s : Session V) (colors : Bool) (options : Options) (source : String) :
    (s.runAnswer colors options source).Signals := by
  rw [runAnswer]
  cases s.bindAll options.bindings with
  | error report => exact .failure rfl (paintAll_summary_ne_empty one_ne_zero report colors)
  | ok bound =>
    dsimp only
    rcases (bound.run source).1 with e | - | v
    · exact .failure rfl (paintAll_summary_ne_empty one_ne_zero _ colors)
    · exact .success rfl rfl
    · exact .success rfl rfl

omit [ToString V] in
theorem coherent_bindAll : ∀ {bindings : List (String × String)} {s : Session V}, s.Coherent →
    s.bindAll bindings = .ok bound → bound.Coherent
  | [], s, hs, h => by
    obtain rfl := Except.ok.inj h
    exact hs
  | (name, expression) :: bindings, s, hs, h => by
    have hline := (evaluateLine_eq hs (name ++ " = " ++ expression)).2.1
    rw [bindAll] at h
    dsimp only at h
    rcases hresult : s.evaluateLine (name ++ " = " ++ expression) with ⟨e | outcome, s'⟩
    · rw [hresult] at h
      cases h
    · rw [hresult] at h hline
      exact coherent_bindAll hline h

omit [ToString V] [ToString E] in
theorem coherent_run (h : s.Coherent) (source : String) : (s.run source).2.Coherent :=
  ((⟨h, h, rfl⟩ : s.Alike s).run source).2.left

end Session

theorem signals_runAnswer (terminal : Bool) (options : Options) (source : String) :
    (runAnswer terminal options source).Signals := by
  rw [runAnswer]
  cases options.mode with
  | integer => exact Session.signals_runAnswer _ _ _ _
  | float => exact Session.signals_runAnswer _ _ _ _

theorem Request.signals_answer {r : Request} (h : r.Settled) (terminal : Bool)
    (text : Except ReadError String) : (r.answer terminal text).Signals := by
  have hunread : ∀ (input : Input) (e : ReadError),
      (Answer.failed (e.message input.name ++ "\n")).Signals :=
    fun input e => Answer.signals_failed (by simp)
  cases r with
  | done a => exact h a rfl
  | lex input =>
    cases text with
    | error e => exact hunread input e
    | ok source => exact Answer.signals_ok _
  | parse input =>
    cases text with
    | error e => exact hunread input e
    | ok source => exact signals_parseAnswer _ source
  | run options =>
    cases text with
    | error e => exact hunread options.input e
    | ok source => exact signals_runAnswer terminal options source

/-! ### Arguments of runs -/

namespace Options

theorem Draft.showBindings_of_bind {d d' : Draft} {text : String} (h : d.bind text = .ok d') :
    d'.showBindings = d.showBindings := by
  unfold bind at h
  cases hparsed : parseBinding text with
  | error e =>
    rw [hparsed] at h
    cases h
  | ok binding =>
    rw [hparsed] at h
    obtain rfl := Except.ok.inj h
    rfl

theorem Draft.showBindings_of_read {d d' : Draft} {arg : String} (h : d.read arg = .ok d') :
    d'.showBindings = true ↔ d.showBindings = true ∨ arg = "--env" := by
  unfold read at h
  split at h
  · rename_i hfloat
    obtain rfl := Except.ok.inj h
    have hne : arg ≠ "--env" := by
      rintro rfl
      simp at hfloat
    simp [hne]
  · split at h
    · rename_i henv
      obtain rfl := Except.ok.inj h
      simp [henv]
    · rename_i henv
      have hkept : d'.showBindings = d.showBindings := by
        split at h
        · exact showBindings_of_bind h
        · rename_i text _ _
          cases hcolor : ColorMode.ofText? text with
          | error e =>
            rw [hcolor] at h
            cases h
          | ok color =>
            rw [hcolor] at h
            obtain rfl := Except.ok.inj h
            rfl
        · split at h
          · cases h
          · split at h
            · obtain rfl := Except.ok.inj h
              rfl
            · cases h
      simp [hkept, henv]

/-- Bindings are shown just when `--env` is among the arguments; as the value of another option it
would be no binding. -/
theorem Draft.showBindings_of_readAll : ∀ {args : List String} {d d' : Draft},
    d.readAll args = .ok d' →
      (d'.showBindings = true ↔ d.showBindings = true ∨ "--env" ∈ args) := by
  intro args d d'
  fun_induction Draft.readAll d args with
  | case1 d =>
    rintro ⟨⟩
    simp
  | case2 d => exact nofun
  | case3 d text args d1 hbind ih =>
    intro h
    have htext : text ≠ "--env" := by
      rintro rfl
      cases hbind
    rw [ih h, Draft.showBindings_of_bind hbind]
    simp [htext.symm]
  | case4 => exact nofun
  | case5 d arg args _ _ d1 hread ih =>
    intro h
    rw [ih h, Draft.showBindings_of_read hread, or_assoc, List.mem_cons, @eq_comm _ arg]
  | case6 => exact nofun

theorem showBindings_of_ofArgs {args : List String} {options : Options}
    (h : ofArgs args = .ok options) : options.showBindings = true ↔ "--env" ∈ args := by
  unfold ofArgs at h
  split at h
  · rename_i d hd
    have hshow := Draft.showBindings_of_readAll hd
    unfold Draft.finish at h
    split at h
    · obtain rfl := Except.ok.inj h
      simpa using hshow
    · cases h
  · cases h

end Options

/-- The arguments ask for a run with the arguments `rest`, by its name or by the path of a program. -/
inductive Request.RunsWith : List String → List String → Prop where
  | run (rest : List String) : RunsWith ("run" :: rest) rest
  | path {path : String} (h : isProgramPath path = true) (more : List String) :
      RunsWith (path :: more) (path :: more)

namespace Request

variable {args rest : List String}

theorem ofArgs_of_isProgramPath {path : String} (h : isProgramPath path = true)
    (more : List String) : ofArgs (path :: more) = ofRunArgs (path :: more) := by
  unfold ofArgs
  split
  · contradiction
  · rename_i heq
    obtain ⟨rfl, rfl⟩ := List.cons.inj heq
    split
    -- none of the names of commands has an extension
    case h_17 => rw [if_pos h]
    all_goals cases h

/-- The options of a run make its request. -/
theorem ofRunArgs_of_ok {options : Options} (h : Options.ofArgs rest = .ok options) :
    ofRunArgs rest = .run options := by
  rw [ofRunArgs, h]

/-- If they are wrong, nothing is printed. -/
theorem exists_ofRunArgs_of_error {e : OptionError} (h : Options.ofArgs rest = .error e) :
    ∃ a, ofRunArgs rest = .done a ∧ a.exit = 1 ∧ a.out = "" := by
  rw [ofRunArgs, h]
  exact ⟨_, rfl, rfl, rfl⟩

theorem RunsWith.ofArgs_of_ok (h : RunsWith args rest) {options : Options}
    (hoptions : Options.ofArgs rest = .ok options) : ofArgs args = .run options := by
  cases h with
  | run rest =>
    cases rest with
    | nil => cases hoptions
    | cons arg rest => exact ofRunArgs_of_ok hoptions
  | path h more => rw [ofArgs_of_isProgramPath h, ofRunArgs_of_ok hoptions]

theorem RunsWith.exists_ofArgs_of_error (h : RunsWith args rest) {e : OptionError}
    (he : Options.ofArgs rest = .error e) :
    ∃ a, ofArgs args = .done a ∧ a.exit = 1 ∧ a.out = "" := by
  cases h with
  | run rest =>
    cases rest with
    | nil => exact ⟨_, rfl, rfl, rfl⟩
    | cons arg rest => exact exists_ofRunArgs_of_error he
  | path h more =>
    rw [ofArgs_of_isProgramPath h]
    exact exists_ofRunArgs_of_error he

end Request

/-- What the inputs of a command hold, or why they cannot be read. -/
abbrev Input.Texts := Input → Except ReadError String

/-! ### Answers to arguments -/

section Respond

variable {terminal : Bool} {args rest : List String}

theorem respond_of_none (h : (Request.ofArgs args).input? = none) (texts : Input.Texts) :
    Id.run (respond terminal (fun i => pure (texts i)) args)
      = (Request.ofArgs args).answer terminal (.ok "") := by
  rw [respond, h]
  rfl

theorem respond_of_some {input : Input} (h : (Request.ofArgs args).input? = some input)
    (texts : Input.Texts) : Id.run (respond terminal (fun i => pure (texts i)) args)
      = (Request.ofArgs args).answer terminal (texts input) := by
  rw [respond, h]
  rfl

theorem Request.RunsWith.respond_eq (h : RunsWith args rest) {options : Options}
    (hoptions : Options.ofArgs rest = .ok options) (texts : Input.Texts) :
    Id.run (respond terminal (fun i => pure (texts i)) args)
      = (Request.run options).answer terminal (texts options.input) := by
  have hrequest := h.ofArgs_of_ok hoptions
  rw [respond_of_some (by rw [hrequest]; rfl), hrequest]

end Respond

/-! ### What is printed -/

/-- What a run in a session prints, by what the inputs hold. If a binding fails, nothing, and no text
of the program makes a difference, so that no line of it is evaluated. Else the value that was
returned, and with `--env` all bindings at the end in the order of their bytes, also if the program
has failed. -/
structure Session.Prints [Value V E] [ToString V] [ToString E] (s : Session V) (options : Options)
    (answer : Input.Texts → Answer) : Prop where
  unbound : ∀ report, s.bindAll options.bindings = .error report → ∃ a, a.exit = 1 ∧ a.out = "" ∧
    ∀ texts source, texts options.input = .ok source → answer texts = a
  bound : ∀ bound, s.bindAll options.bindings = .ok bound →
    ∀ texts source, texts options.input = .ok source → ∃ rows : List (String × V),
      rows.Pairwise (fun a b => Text.bytes a.1 < Text.bytes b.1) ∧
      (∀ x v, (x, v) ∈ rows ↔ (bound.run source).2.get? x = some v) ∧
      (answer texts).out = returnedRow (bound.run source).1
        ++ (if options.showBindings then String.join (rows.map bindingRow) else "") ∧
      ((answer texts).exit = 1 ↔ ∃ e, (bound.run source).1 = .error e)

/-- What a run prints, with the values that its options ask for. -/
def Options.Prints (options : Options) (answer : Input.Texts → Answer) : Prop :=
  match options.mode with
  | .integer => (Session.initial : Session Integer).Prints options answer
  | .float => (Session.initial : Session Double).Prints options answer

theorem Session.prints_of_runAnswer [Value V E] [ToString V] [ToString E] {s : Session V}
    (hs : s.Coherent) {options : Options} {answer : Input.Texts → Answer} {colors : Bool}
    (h : ∀ texts source, texts options.input = .ok source →
      answer texts = s.runAnswer colors options source) : s.Prints options answer := by
  refine ⟨fun report hreport => ?_, fun bound hbound texts source hsource => ?_⟩
  · refine ⟨.failed (Piece.paintAll colors (report ++ summary 1)), rfl, rfl, ?_⟩
    intro texts source hsource
    rw [h texts source hsource, runAnswer_of_unbound hreport]
  · have hcoherent := coherent_run (coherent_bindAll hs hbound) source
    obtain ⟨hout, hexit⟩ := runAnswer_of_bound hbound colors source
    rw [h texts source hsource]
    refine ⟨(bound.run source).2.listing, ?_, fun x v => mem_listing_iff hcoherent, hout, hexit⟩
    exact (pairwise_listing_lt hcoherent).imp Text.bytes_lt_bytes

theorem Options.prints_of_runAnswer {options : Options} {answer : Input.Texts → Answer}
    {terminal : Bool} (h : ∀ texts source, texts options.input = .ok source →
      answer texts = runAnswer terminal options source) : options.Prints answer := by
  unfold Prints
  unfold runAnswer at h
  cases hmode : options.mode with
  | integer =>
    rw [hmode] at h
    exact Session.prints_of_runAnswer (Session.coherent_withNames _) h
  | float =>
    rw [hmode] at h
    exact Session.prints_of_runAnswer (Session.coherent_withNames _) h

/-- Every invocation signals failure, whatever its arguments are and whatever its inputs hold: it
exits with zero or one, and with one just when it writes to the error output. A run whose arguments
are wrong prints nothing and does not depend on any input, and one that cannot read its program
prints nothing; otherwise it prints what its bindings and its program give, and shows the bindings at
the end when `--env` is among its arguments. -/
theorem respond_signals_failure (terminal : Bool) (args : List String) :
    let answer : Input.Texts → Answer :=
      fun texts => Id.run (respond terminal (fun i => pure (texts i)) args)
    (∀ texts, ((answer texts).exit = 0 ∨ (answer texts).exit = 1) ∧
      ((answer texts).exit = 1 ↔ (answer texts).err ≠ "")) ∧
    ∀ rest, Request.RunsWith args rest →
      (∀ e, Options.ofArgs rest = .error e →
        ∃ a, a.exit = 1 ∧ a.out = "" ∧ ∀ texts, answer texts = a) ∧
      ∀ options, Options.ofArgs rest = .ok options →
        (options.showBindings = true ↔ "--env" ∈ rest) ∧
        (∀ texts e, texts options.input = .error e →
          (answer texts).exit = 1 ∧ (answer texts).out = "") ∧
        options.Prints answer := by
  intro answer
  refine ⟨fun texts => ?_, fun rest hrest => ⟨fun e he => ?_, fun options hoptions =>
    ⟨Options.showBindings_of_ofArgs hoptions, fun texts e he => ?_, ?_⟩⟩⟩
  · have hsettled := Request.settled_ofArgs args
    cases hinput : (Request.ofArgs args).input? with
    | none =>
      have hanswer : answer texts = _ := respond_of_none hinput texts
      rw [hanswer]
      exact (Request.signals_answer hsettled terminal _).exit_iff
    | some input =>
      have hanswer : answer texts = _ := respond_of_some hinput texts
      rw [hanswer]
      exact (Request.signals_answer hsettled terminal _).exit_iff
  · obtain ⟨a, ha, hexit, hout⟩ := hrest.exists_ofArgs_of_error he
    refine ⟨a, hexit, hout, fun texts => ?_⟩
    have hanswer : answer texts = _ := respond_of_none (by rw [ha]; rfl) texts
    rw [hanswer, ha]
    rfl
  · have hanswer : answer texts = _ := hrest.respond_eq hoptions texts
    rw [hanswer, he]
    exact ⟨rfl, rfl⟩
  · refine @Options.prints_of_runAnswer options answer terminal fun texts source hsource => ?_
    have hanswer : answer texts = _ := hrest.respond_eq hoptions texts
    rw [hanswer, hsource]
    rfl

/-- A binding that is shown, and an argument that is no binding. -/
theorem respond_signals_failure_shown_binding :
    (∃ rows : List (String × Integer), (∃ v, ("x", v) ∈ rows) ∧
      (Id.run (respond false (fun _ => pure (.ok "x = 1")) ["run", "-", "--env"])).out
        = String.join (rows.map Session.bindingRow)) ∧
    (Id.run (respond false (fun _ => pure (.ok "x = 1")) ["run", "-", "--set=x"])).out = "" := by
  constructor
  · obtain ⟨-, hrun⟩ := respond_signals_failure false ["run", "-", "--env"]
    obtain ⟨-, hprints⟩ := hrun _ (.run ["-", "--env"])
    obtain ⟨-, -, hprints⟩ := hprints ⟨.stdin, .integer, [], true, .auto⟩ rfl
    obtain ⟨rows, -, hrows, hout, -⟩ :=
      Session.Prints.bound hprints _ rfl (fun _ => .ok "x = 1") _ rfl
    have hx : (((Session.initial : Session Integer).run "x = 1").2.get? "x").isSome = true := by cbv
    obtain ⟨v, hv⟩ := Option.isSome_iff_exists.1 hx
    have hresult : Session.returnedRow ((Session.initial : Session Integer).run "x = 1").1 = "" := by
      cbv
    rw [hresult] at hout
    exact ⟨rows, ⟨v, (hrows "x" v).2 hv⟩, hout⟩
  · obtain ⟨-, hrun⟩ := respond_signals_failure false ["run", "-", "--set=x"]
    obtain ⟨a, -, hout, ha⟩ := (hrun _ (.run ["-", "--set=x"])).1 (.invalidBinding "x") rfl
    exact (congrArg Answer.out (ha fun _ => .ok "x = 1")).trans hout

end Reckoner
