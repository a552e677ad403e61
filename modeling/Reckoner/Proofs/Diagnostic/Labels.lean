import Reckoner.Proofs.Evaluation.Places
import Reckoner.Proofs.Parse.Errors
import Reckoner.Proofs.Renaming.Line
import Reckoner.Proofs.Token.Column

/-!
The places that reports point at. A line that does not parse is blamed at its first invalid
character, or at a token and at a parenthesis in front of it; a line that has no value is blamed at
a node of its tree. All of these are marks of the line. -/

namespace Reckoner

variable {α V E : Type} {P : Span → Prop}

/-- All places of the report have a property of spans. -/
def Diagnostic.Within (P : Span → Prop) (d : Diagnostic) : Prop := ∀ label ∈ d.labels, P label.span

/-- A parse error points at its own place and at the one that explains it. -/
theorem ParseError.within_iff {e : ParseError} :
    e.diagnostic.Within P ↔ P e.span ∧ ∀ r ∈ e.related?, P r.1 := by
  rw [Diagnostic.Within, diagnostic, List.forall_mem_cons]
  cases e.related? <;> simp

theorem EvalError.At.within [ToString E] {e : EvalError E} (h : e.At P) :
    e.diagnostic.Within P := by
  have hspan : P e.span := by
    cases e with
    | gap id => exact h.elim
    | unresolved | unsupported | literal | arithmetic => exact h
  intro label hlabel
  obtain rfl := List.mem_singleton.1 hlabel
  exact hspan

/-! ### Lines that do not parse -/

theorem mem_of_mem_unmatched {ts : List (Token α)} {t : Token α} (h : t ∈ unmatched ts) :
    t ∈ ts := by
  induction ts using List.reverseRecOn with
  | nil => exact h
  | append_singleton ts u ih =>
    rw [Parse.unmatched_append, matchParen] at h
    rw [List.mem_append, List.mem_singleton]
    split at h
    · rcases List.mem_cons.1 h with rfl | h
      · exact .inr rfl
      · exact .inl (ih h)
    · exact .inl (ih (List.mem_of_mem_tail h))
    · exact .inl (ih h)

/-- An error of the automaton points at the token that could not be read, and at no other token but
one that has been read. -/
theorem Parse.within_of_step_error {before : List (Token α)} {s : State α} {t : Token α}
    {e : ParseError} (hread : readLine before = .ok s) (hstep : s.step t = .error e)
    (hbefore : ∀ u ∈ before, P u.span) (ht : P t.span) : e.diagnostic.Within P := by
  have hlevels := readLine_levels hread
  cases hplace : s.place with
  | operand signs =>
    obtain ⟨rfl, -⟩ := State.step_operand_error hplace hstep
    exact ParseError.within_iff.2 ⟨ht, by simp [ParseError.related?]⟩
  | behind last =>
    obtain rfl := State.step_behind_error hplace hstep
    obtain ⟨side, levels, pending, place⟩ := s
    cases levels with
    | cons level levels =>
      have hopening : level.opening ∈ before := by
        refine mem_of_mem_unmatched ?_
        rw [← hlevels]
        exact List.mem_cons_self
      refine ParseError.within_iff.2 ⟨ht, ?_⟩
      simpa [State.refusal, ParseError.related?] using hbefore _ hopening
    | nil =>
      -- no parenthesis is open, so the token is all that the error knows of
      cases side <;> exact ParseError.within_iff.2 ⟨ht, by simp [State.refusal, ParseError.related?]⟩

/-- A line that does not parse is blamed at its first invalid character if it has one, and at tokens
of it otherwise. -/
theorem Phrase.ofLine_error {body : List (Token α)} {eof : Token α} {e : ParseError}
    (hbody : ∀ t ∈ body, t.kind.isEof = false) (heof : eof.kind.isEof = true)
    (h : ofLine body eof = .error e) :
    (∃ us t vs, body = us ++ t :: vs ∧ (∀ u ∈ us, u.kind.isInvalid = false) ∧
      e = .invalidCharacter t.span) ∨
      (∀ t ∈ body ++ [eof], t.kind.isInvalid = false) ∧
        ∀ {P : Span → Prop}, (∀ t ∈ body ++ [eof], P t.span) → e.diagnostic.Within P := by
  cases hinvalid : invalid? body with
  | some e' =>
    rw [ofLine, hinvalid] at h
    obtain rfl := Except.error.inj h
    obtain ⟨t, ht, rfl⟩ := Option.map_eq_some_iff.1 hinvalid
    obtain ⟨-, us, vs, rfl, hus⟩ := List.find?_eq_some_iff_append.1 ht
    exact .inl ⟨us, t, vs, rfl, by simpa using hus, rfl⟩
  | none =>
    have hvalid := invalid?_eq_none_iff.1 hinvalid
    have heofValid : eof.kind.isInvalid = false := by
      obtain ⟨kind, span⟩ := eof
      cases kind <;> first | rfl | cases heof
    refine .inr ⟨fun t ht => ?_, fun hspans => ?_⟩
    · rcases List.mem_append.1 ht with ht | ht
      · exact hvalid t ht
      · rw [List.mem_singleton.1 ht, heofValid]
    · obtain ⟨before, t, after, s, hsplit, hread, -, hstep, -⟩ :=
        Parse.ofLine_error (fun t ht => ⟨hvalid t ht, hbody t ht⟩) heof h
      rw [hsplit] at hspans
      exact Parse.within_of_step_error hread hstep
        (fun u hu => hspans u (List.mem_append_left _ hu))
        (hspans t (List.mem_append_right _ List.mem_cons_self))

theorem Token.isEof_of_mem_scan {line : String} {t : Token String} (h : t ∈ scan line) :
    t.kind.isEof = false := by
  obtain ⟨before, text, after, -, -, hkind⟩ := (scan_tokenizes line).part t h
  have hne := TokenKind.ne_eof_of_munched_or_stray hkind
  obtain ⟨kind, span⟩ := t
  cases kind <;> first | rfl | exact absurd rfl hne

namespace Tree

variable {names : NameTable} {line : String} {tree : Tree Name}

/-- The report on a line that does not parse points at parts of the line that are ASCII, or at a
single invalid character; all in front of these is ASCII. -/
theorem within_ofLine {e : ParseError} (h : (ofLine names line).1 = .error e) :
    e.diagnostic.Within (Span.MarksAscii line) ∨ ∃ span before c after,
      e = .invalidCharacter span ∧ span.Covers line before (String.singleton c) after ∧
        Text.Ascii before.toList := by
  have hspelled := ofLine_eq_error_iff.1 h
  rw [spelled] at hspelled
  cases hphrase : Phrase.ofLine (Token.scan line) (Token.endOf line) with
  | ok p =>
    rw [hphrase] at hspelled
    cases hspelled
  | error e' =>
    rw [hphrase] at hspelled
    obtain rfl := Except.error.inj hspelled
    rcases Phrase.ofLine_error (fun _ => Token.isEof_of_mem_scan) rfl hphrase with
      ⟨us, t, vs, hscan, hus, rfl⟩ | ⟨hvalid, hwithin⟩
    · have hmarks : t.span.Marks line :=
        Token.upToInvalid_scan line us t (vs ++ [Token.endOf line]) (by rw [hscan]; simp) hus
      have hmem : t ∈ Token.scan line := hscan ▸ List.mem_append_right _ List.mem_cons_self
      rcases Token.marksAscii_or_stray hmem hmarks with
        hascii | ⟨-, before, c, after, hcovers, hbefore⟩
      · exact .inl (ParseError.within_iff.2 ⟨hascii, by simp [ParseError.related?]⟩)
      · exact .inr ⟨t.span, before, c, after, rfl, hcovers, hbefore⟩
    · exact .inl (hwithin (Token.marksAscii_of_valid hvalid))

/-! ### Lines that have no value -/

/-- No token of a line that parses is invalid. -/
theorem valid_of_ofLine (h : (ofLine names line).1 = .ok tree) :
    ∀ t ∈ Token.scan line ++ [Token.endOf line], t.kind.isInvalid = false := by
  obtain ⟨⟨d, -, hyield⟩, -⟩ := ofLine_eq_ok_iff.1 (Prod.ext h rfl)
  intro t ht
  rcases List.mem_append.1 ht with ht | ht
  · have hmem : t.map (Token.scanWith names line).2.nameOf ∈ d.yield := by
      rw [hyield]
      exact List.mem_map_of_mem ht
    have hkind := (d.kind_of_mem_yield _ hmem).1
    rwa [Token.map, TokenKind.isInvalid_map] at hkind
  · rw [List.mem_singleton.1 ht]
    rfl

/-- The tokens of a line that parses mark parts of it that are ASCII. -/
theorem marksAscii_of_mem_scanWith (h : (ofLine names line).1 = .ok tree) :
    ∀ t ∈ (Token.scanWith names line).1, t.span.MarksAscii line := by
  intro t ht
  obtain ⟨u, hu, rfl⟩ := List.mem_map.1 ht
  exact Token.marksAscii_of_valid (valid_of_ofLine h) u (List.mem_append_left _ hu)

/-- The report on a line that has no value points at a part of the line that is ASCII, as all in
front of it is. -/
theorem within_evaluate [Value V E] [ToString E] (h : (ofLine names line).1 = .ok tree)
    {scope : Scope Name V} {e : EvalError E} (he : (tree.evaluate scope).1 = .error e) :
    e.diagnostic.Within (Span.MarksAscii line) := by
  have hmarks := marksAscii_of_mem_scanWith h
  obtain ⟨⟨d, rfl, hyield⟩, -⟩ := ofLine_eq_ok_iff.1 (Prod.ext h rfl)
  rw [← hyield] at hmarks
  have hmergeable := Span.mergeable_marksAscii line
  exact (failsAt_evaluate hmergeable (d.placed_toTree hmergeable hmarks) scope e he).within

end Tree

end Reckoner
