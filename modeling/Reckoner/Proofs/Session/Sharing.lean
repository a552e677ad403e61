import Reckoner.Proofs.Session.Coherent

/-!
Sessions that share their table of names. Each session answers to its own steps as if it were alone
with a table of its own, whatever is done with the other one in between: the two runs hand out
different names, but read by their texts they stay alike. -/

namespace Reckoner

variable {V E : Type}

/-- What can be done with a session. -/
inductive Session.Step (V : Type) where
  | bind (name : String) (value : V)
  | get (name : String)
  | bindings
  | parse (source : String)
  | run (source : String)
  | line (line : String)

/-- A line of a program as it is shown: its number and its tree, with texts in place of names, the
source text below each node, and the dump. -/
structure ParsedLine where
  number : Nat
  tree : Tree String
  text : Nat → Option String
  dump : Option String

/-- What a session answers to a step, with texts in place of names. -/
inductive Session.Reply (V E : Type) where
  | replaced (value : Option V)
  | value (value : Option V)
  | bindings (listing : List (String × V))
  | parsed (result : Except (RunError E) (List ParsedLine))
  | ran (result : Except (RunError E) (Option V))
  | evaluated (result : Except (RunError E) (Outcome String V))

/-- A numbered tree as it is shown. -/
def ParsedLine.of (names : NameTable) (line : Nat × Tree Name) : ParsedLine :=
  ⟨line.1, line.2.map names.text, line.2.text? names.text, line.2.dump? names.text⟩

namespace Session

variable [Value V E]

/-- Does a step. -/
def perform (s : Session V) : Step V → Reply V E × Session V
  | .bind name v => let (old, s) := s.bind name v; (.replaced old, s)
  | .get name => (.value (s.get? name), s)
  | .bindings => (.bindings s.listing, s)
  | .parse source =>
    let (result, s) := s.parse source
    (.parsed (result.map (List.map (ParsedLine.of s.names))), s)
  | .run source => let (result, s) := s.run source; (.ran result, s)
  | .line line =>
    let (result, s) := s.evaluateLine line
    (.evaluated (result.map (Outcome.map s.names.text)), s)

/-- Does steps one after the other. -/
def performAll (s : Session V) : List (Step V) → List (Reply V E) × Session V
  | [] => ([], s)
  | step :: steps =>
    let (answer, s) := s.perform step
    let (answers, s) := performAll s steps
    (answer :: answers, s)

end Session

/-- Does steps, each with one or the other of two sessions, in the order in which they come. -/
def SessionPair.interleave [Value V E] (p : SessionPair V) :
    List (Bool × Session.Step V) → List (Bool × Session.Reply V E) × SessionPair V
  | [] => ([], p)
  | (onRight, step) :: steps =>
    let (answer, p) := p.withSession onRight (Session.perform · step)
    let (answers, p) := interleave p steps
    ((onRight, answer) :: answers, p)

/-- What belongs to one of two sessions. -/
def ofSide {γ : Type} (onRight : Bool) (xs : List (Bool × γ)) : List γ :=
  (xs.filter (·.1 = onRight)).map (·.2)

section

variable {γ : Type} {side onRight : Bool}

theorem ofSide_cons_self (x : γ) (xs : List (Bool × γ)) :
    ofSide onRight ((onRight, x) :: xs) = x :: ofSide onRight xs := by
  rw [ofSide, List.filter_cons_of_pos (by simp)]
  rfl

theorem ofSide_cons_other (h : side ≠ onRight) (x : γ) (xs : List (Bool × γ)) :
    ofSide onRight ((side, x) :: xs) = ofSide onRight xs := by
  rw [ofSide, List.filter_cons_of_neg (by simpa using h)]
  rfl

end

/-! ### Parsing -/

/-- A line as it is shown, told from its tree with texts. -/
def ParsedLine.ofSpelled (line : Nat × Tree String) : ParsedLine :=
  ⟨line.1, line.2, line.2.text? id, line.2.dump? id⟩

theorem ParsedLine.of_eq (names : NameTable) :
    ParsedLine.of names = ParsedLine.ofSpelled ∘ Prod.map id (Tree.map names.text) := by
  funext line
  have htext : (line.2.map names.text).text? id = line.2.text? names.text :=
    funext (Tree.text?_map names.text line.2 id)
  have hdump : (line.2.map names.text).dump? id = line.2.dump? names.text :=
    Tree.dump?_map names.text line.2 id
  rw [Function.comp_apply, ofSpelled, Prod.map, htext, hdump]
  rfl

/-! ### Alike sessions -/

namespace Session

/-- Coherent sessions in which every text has the same value, whatever its name is. -/
structure Alike (s s' : Session V) : Prop where
  left : s.Coherent
  right : s'.Coherent
  get? : s.get? = s'.get?

variable {s s' : Session V} {later later' : NameTable}

theorem alike_withNames (names names' : NameTable) :
    (withNames names : Session V).Alike (withNames names') :=
  ⟨coherent_withNames names, coherent_withNames names', funext fun x =>
    Option.ext fun v => by simp [get?_eq_some_iff, withNames, Bindings.get?, Bindings.empty]⟩

/-- Sessions stay alike when others put texts into their tables. -/
theorem Alike.of_grows (h : s.Alike s') (hlater : s.names.Grows later)
    (hlater' : s'.names.Grows later') :
    Alike { s with names := later } { s' with names := later' } := by
  refine ⟨coherent_of_grows h.left hlater, coherent_of_grows h.right hlater', funext fun x => ?_⟩
  rw [get?_of_grows h.left hlater, get?_of_grows h.right hlater', h.get?]

theorem Alike.bind (h : s.Alike s') (x : String) (v : V) :
    (s.bind x v).1 = (s'.bind x v).1 ∧ (s.bind x v).2.Alike (s'.bind x v).2 := by
  obtain ⟨hold, hcoherent, hget⟩ := bind_eq h.left x v
  obtain ⟨hold', hcoherent', hget'⟩ := bind_eq h.right x v
  refine ⟨by rw [hold, hold', h.get?], hcoherent, hcoherent', funext fun y => ?_⟩
  rw [hget, hget', h.get?]

variable [Value V E]

theorem Alike.evaluateLine (h : s.Alike s') (line : String) :
    (s.evaluateLine line).1.map (Outcome.map (s.evaluateLine line).2.names.text)
        = (s'.evaluateLine line).1.map (Outcome.map (s'.evaluateLine line).2.names.text) ∧
      (s.evaluateLine line).2.Alike (s'.evaluateLine line).2 := by
  obtain ⟨hanswer, hcoherent, hget⟩ := evaluateLine_eq h.left line
  obtain ⟨hanswer', hcoherent', hget'⟩ := evaluateLine_eq h.right line
  exact ⟨by rw [hanswer, hanswer', h.get?], hcoherent, hcoherent', by rw [hget, hget', h.get?]⟩

/-- Lines fed to alike sessions have the same answer. -/
theorem Alike.feed : ∀ {lines : List String} {s s' : Session V} (number : Nat), s.Alike s' →
    (s.feed number lines).1 = (s'.feed number lines).1 ∧
      (s.feed number lines).2.Alike (s'.feed number lines).2
  | [], s, s', number, h => ⟨rfl, h⟩
  | line :: lines, s, s', number, h => by
    cases hblank : Text.isBlankText line with
    | true =>
      rw [feed_of_blank hblank, feed_of_blank hblank]
      exact feed (number + 1) h
    | false =>
      obtain ⟨hanswer, hafter⟩ := h.evaluateLine line
      have hneg := Bool.eq_false_iff.1 hblank
      rw [Session.feed, Session.feed, if_neg hneg, if_neg hneg]
      rcases hline : s.evaluateLine line with ⟨result, t⟩
      rcases hline' : s'.evaluateLine line with ⟨result', t'⟩
      rw [hline, hline'] at hanswer hafter
      rcases result with e | ⟨name, v⟩ | v <;> rcases result' with e' | ⟨name', v'⟩ | v' <;>
        simp only [Except.map, Outcome.map, reduceCtorEq, Except.error.injEq, Except.ok.injEq,
          Outcome.returned.injEq] at hanswer
      · exact ⟨by rw [hanswer], hafter⟩
      · exact feed (number + 1) hafter
      · exact ⟨by rw [hanswer], hafter⟩

/-- The lines of a program are shown as they are without a table. -/
theorem perform_parse (s : Session V) (source : String) :
    s.perform (.parse source)
      = (.parsed (((Source.spelledAll (Source.equations source)).map
            (List.map ParsedLine.ofSpelled)).mapError fun e => .parse e.1 e.2),
          { s with names := (Source.parse s.names source).2 }) := by
  have htext := Source.map_text_parseAll (.refl (Source.parse s.names source).2)
  rw [← htext, Session.perform, Session.parse]
  change _ = (Reply.parsed ((((Source.parse s.names source).1.map _).map _).mapError _), _)
  rcases Source.parse s.names source with ⟨e | program, table⟩
  · rfl
  · refine Prod.ext (congrArg (fun shown => Reply.parsed (.ok shown)) ?_) rfl
    rw [List.map_map, ParsedLine.of_eq]

theorem Alike.run (h : s.Alike s') (source : String) :
    (s.run source).1 = (s'.run source).1 ∧ (s.run source).2.Alike (s'.run source).2 := by
  cases hspelled : Source.spelledAll (Source.equations source) with
  | error e =>
    rw [run_of_parse_error (Source.parseAll_of_spelled_error hspelled s.names),
      run_of_parse_error (Source.parseAll_of_spelled_error hspelled s'.names)]
    exact ⟨rfl, h.of_grows (Source.grows_parseAll _ _) (Source.grows_parseAll _ _)⟩
  | ok trees =>
    obtain ⟨program, hprogram⟩ := Source.parseAll_of_spelled_ok hspelled s.names
    obtain ⟨program', hprogram'⟩ := Source.parseAll_of_spelled_ok hspelled s'.names
    obtain ⟨hresult, hbindings, hgrows⟩ := run_of_parse_ok hprogram
    obtain ⟨hresult', hbindings', hgrows'⟩ := run_of_parse_ok hprogram'
    obtain ⟨hfeed, hafter⟩ := @Alike.feed V E _ (Text.lines source) s s' 1 h
    have hrun := hafter.of_grows hgrows hgrows'
    rw [← hbindings, ← hbindings'] at hrun
    exact ⟨hresult.trans (hfeed.trans hresult'.symm), hrun⟩

/-- Alike sessions answer to every step in the same way, and stay alike. -/
theorem Alike.perform (h : s.Alike s') (step : Step V) :
    (s.perform step).1 = (s'.perform step).1 ∧ (s.perform step).2.Alike (s'.perform step).2 := by
  cases step with
  | bind name v =>
    obtain ⟨hold, hafter⟩ := h.bind name v
    exact ⟨congrArg Reply.replaced hold, hafter⟩
  | get name => exact ⟨congrArg Reply.value (congrFun h.get? name), h⟩
  | bindings => exact ⟨congrArg Reply.bindings (listing_eq h.left h.right h.get?), h⟩
  | parse source =>
    rw [perform_parse, perform_parse]
    exact ⟨rfl, h.of_grows (Source.grows_parseAll _ _) (Source.grows_parseAll _ _)⟩
  | run source =>
    obtain ⟨hresult, hafter⟩ := h.run source
    exact ⟨congrArg Reply.ran hresult, hafter⟩
  | line line =>
    obtain ⟨hresult, hafter⟩ := h.evaluateLine line
    exact ⟨congrArg Reply.evaluated hresult, hafter⟩

theorem names_run (s : Session V) (source : String) :
    (s.run source).2.names = (Source.parse s.names source).2 := by
  rcases hparse : Source.parse s.names source with ⟨e | program, table⟩
  · rw [run_of_parse_error (congrArg Prod.fst hparse), hparse]
  · rw [run_of_parse hparse]

theorem names_evaluateLine (s : Session V) (line : String) :
    (s.evaluateLine line).2.names = (Tree.ofLine s.names line).2 := by
  rcases hline : Tree.ofLine s.names line with ⟨e | tree, table⟩
  · rw [evaluateLine, hline]
  · rw [evaluateLine_of_ok hline]

/-- Steps only ever add texts to the table. -/
theorem grows_perform (s : Session V) (step : Step V) : s.names.Grows (s.perform step).2.names := by
  cases step with
  | bind name v => exact NameTable.grows_intern s.names name
  | get name => exact .refl s.names
  | bindings => exact .refl s.names
  | parse source =>
    rw [perform_parse]
    exact Source.grows_parseAll s.names (Source.equations source)
  | run source =>
    show s.names.Grows (s.run source).2.names
    rw [names_run]
    exact Source.grows_parseAll s.names (Source.equations source)
  | line line =>
    show s.names.Grows (s.evaluateLine line).2.names
    rw [names_evaluateLine]
    exact Tree.grows_ofLine s.names line

end Session

/-! ### Two sessions -/

namespace SessionPair

variable [Value V E] {p : SessionPair V} {onRight : Bool}

theorem session_withSession {γ : Type} (p : SessionPair V) (onRight : Bool)
    (f : Session V → γ × Session V) :
    (p.withSession onRight f).2.session onRight = (f (p.session onRight)).2 := by
  cases onRight <;> rfl

/-- Work with one session does no more to the other than add texts to a table that they share. -/
theorem session_withSession_other {γ : Type} (hshared : p.shared = true) (onRight : Bool)
    (f : Session V → γ × Session V) :
    (p.withSession onRight f).2.session (!onRight)
      = { p.session (!onRight) with names := (f (p.session onRight)).2.names } := by
  cases onRight <;> simp [withSession, session, renamed, hshared]

/-- One table of names for both sessions. -/
structure Shares (p : SessionPair V) : Prop where
  shared : p.shared = true
  names : p.left.names = p.right.names

theorem Shares.withSession {γ : Type} (h : p.Shares) (onRight : Bool)
    (f : Session V → γ × Session V) : (p.withSession onRight f).2.Shares := by
  cases onRight <;> exact ⟨h.shared, by simp [SessionPair.withSession, renamed, h.shared]⟩

theorem Shares.names_eq (h : p.Shares) (a b : Bool) : (p.session a).names = (p.session b).names := by
  cases a <;> cases b <;> simp [session, h.names]

/-- What one session answers in between the steps of the other is what a session alike to it answers
alone. -/
theorem interleave_alike : ∀ {steps : List (Bool × Session.Step V)} {p : SessionPair V}
    {alone : Session V}, p.Shares → (p.session onRight).Alike alone →
      ofSide onRight (p.interleave steps).1
          = (alone.performAll (ofSide onRight steps)).1 ∧
        ((p.interleave steps).2.session onRight).Alike
          (alone.performAll (ofSide onRight steps)).2
  | [], p, alone, _, halike => ⟨rfl, halike⟩
  | (side, step) :: steps, p, alone, hshares, halike => by
    have hnext := hshares.withSession side (Session.perform · step)
    by_cases hside : side = onRight
    · obtain rfl := hside.symm
      obtain ⟨hanswer, hafter⟩ := halike.perform step
      rw [← session_withSession p onRight (Session.perform · step)] at hafter
      obtain ⟨hanswers, hend⟩ := interleave_alike hnext hafter
      rw [ofSide_cons_self]
      refine ⟨?_, hend⟩
      rw [interleave, ofSide_cons_self, hanswers]
      exact congrArg (· :: _) hanswer
    · have hother := session_withSession_other hshares.shared side (Session.perform · step)
      rw [← Bool.eq_not.2 (Ne.symm hside)] at hother
      have hgrows := Session.grows_perform (p.session side) step
      rw [hshares.names_eq side onRight] at hgrows
      have hafter := halike.of_grows hgrows (.refl alone.names)
      rw [← hother] at hafter
      obtain ⟨hanswers, hend⟩ := interleave_alike hnext hafter
      rw [ofSide_cons_other hside]
      refine ⟨?_, hend⟩
      rw [interleave, ofSide_cons_other hside]
      exact hanswers

end SessionPair

/-- Sessions that share their table do not interfere: whatever the other one does in between, each of
them answers, and its variables have the values, as if it were alone with a table of its own. -/
theorem interleave_eq_alone [Value V E] (names : NameTable)
    (steps : List (Bool × Session.Step V)) (onRight : Bool) :
    let shared := (⟨true, .withNames names, .withNames names⟩ : SessionPair V).interleave steps
    let alone := (Session.initial : Session V).performAll (ofSide onRight steps)
    ofSide onRight shared.1 = alone.1 ∧
      (∀ x, (shared.2.session onRight).get? x = alone.2.get? x) ∧
        (shared.2.session onRight).listing = alone.2.listing := by
  have halike : ((⟨true, .withNames names, .withNames names⟩ : SessionPair V).session onRight).Alike
      (Session.initial : Session V) := by
    cases onRight <;> exact Session.alike_withNames names .initial
  obtain ⟨hanswers, hafter⟩ := @SessionPair.interleave_alike V E _ onRight steps _ _
    ⟨rfl, rfl⟩ halike
  exact ⟨hanswers, congrFun hafter.get?, Session.listing_eq hafter.left hafter.right hafter.get?⟩

end Reckoner
