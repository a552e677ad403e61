import Reckoner.Diagnostic.Cause
import Reckoner.NameTable
import Reckoner.Proofs.Parse.Derivations

/-!
Where a line is refused, and why. The tokens in front of the error still begin some line, and no
line goes on with the token at which it is reported; so the error stands at the earliest place that
any reader could have noticed it. Its code is decided by the tokens in front of it alone: whether
they are a complete equation, whether an operand has just ended, and whether a parenthesis is
still open. -/

namespace Reckoner

variable {α : Type}

/-- The tokens of a line of the grammar. -/
def IsLine (ts : List (Token α)) : Prop := ∃ d : Derivation α .equation, d.yield = ts

/-- Whether an operand ends with the token. -/
def TokenKind.endsOperand : TokenKind α → Bool
  | .number _ | .ident _ | .rparen => true
  | _ => false

/-- Whether the last of some tokens ends an operand. -/
def endInOperand (ts : List (Token α)) : Bool := ts.getLast?.any (·.kind.endsOperand)

/-- The parentheses that are still open once the token has been read, the last one first. -/
def matchParen (opened : List (Token α)) (t : Token α) : List (Token α) :=
  match t.kind with
  | .lparen => t :: opened
  | .rparen => opened.tail
  | _ => opened

/-- The opening parentheses among some tokens that no closing one matches, the last one first. -/
def unmatched (ts : List (Token α)) : List (Token α) := ts.foldl matchParen []

/-- The name of the token that an error tells of. -/
def ParseError.found? : ParseError → Option String
  | .invalidCharacter _ => none
  | .expectedEquals found _ | .expectedExpression found _ | .unclosedParen _ found _
  | .trailingInput found _ => some found

namespace Parse

/-! ### What the tokens read so far tell of a state -/

@[simp] theorem unmatched_append (ts : List (Token α)) (t : Token α) :
    unmatched (ts ++ [t]) = matchParen (unmatched ts) t := by
  rw [unmatched, List.foldl_append]
  rfl

@[simp] theorem endInOperand_append (ts : List (Token α)) (t : Token α) :
    endInOperand (ts ++ [t]) = t.kind.endsOperand := by
  rw [endInOperand, List.getLast?_concat]
  rfl

theorem matchParen_of_isSign {t : Token α} (h : t.kind.isSign = true) (opened : List (Token α)) :
    matchParen opened t = opened := by
  obtain ⟨kind, span⟩ := t
  cases kind <;> first | rfl | cases h

theorem matchParen_of_joins {rule : Rule} {t : Token α} (h : rule.joins t.kind = true)
    (opened : List (Token α)) : matchParen opened t = opened := by
  obtain ⟨kind, span⟩ := t
  cases rule <;> cases kind <;> first | rfl | cases h

/-- The open levels are the parentheses that nothing matches yet. -/
theorem readLine_levels {s : State α} {ts : List (Token α)} (h : readLine ts = .ok s) :
    s.levels.map Level.opening = unmatched ts := by
  refine readLine_induction (P := fun s ts => s.levels.map Level.opening = unmatched ts)
    ?_ rfl (fun _ => rfl) h
  intro s s' t ts hs hm
  rw [unmatched_append, ← hs]
  cases hm with
  | number => rfl
  | ident => rfl
  | sign _ ht => rw [matchParen_of_isSign ht]
  | opens => rfl
  | links _ ht => rw [matchParen_of_joins ht]
  | closes _ hl => rw [hl]; rfl
  | equals _ hl => rw [hl]; rfl

/-- Whether an operand has just been read. -/
def Place.isBehind : Place α → Bool
  | .operand _ => false
  | .behind _ => true

/-- The automaton stands behind an operand when the last token ends one. -/
theorem readLine_place {s : State α} {ts : List (Token α)} (h : readLine ts = .ok s) :
    s.place.isBehind = endInOperand ts := by
  refine readLine_induction (P := fun s ts => s.place.isBehind = endInOperand ts)
    ?_ rfl (fun _ => rfl) h
  intro s s' t ts _ hm
  rw [endInOperand_append]
  cases hm with
  | number => rfl
  | ident => rfl
  | sign _ ht =>
    obtain ⟨kind, span⟩ := t
    cases kind <;> first | rfl | cases ht
  | opens => rfl
  | @links _ _ rule _ ht =>
    obtain ⟨kind, span⟩ := t
    cases rule <;> cases kind <;> first | rfl | cases ht
  | closes => rfl
  | equals => rfl

/-- What has been read is a line when it can be finished, and only then. -/
theorem isLine_iff_finish {s : State α} {ts : List (Token α)} (h : readLine ts = .ok s)
    (eof : Token α) : IsLine ts ↔ ∃ p, s.finish eof = .ok p := by
  constructor
  · rintro ⟨d, rfl⟩
    obtain ⟨s', hs', hfinish⟩ := readLine_yield d
    obtain rfl := Except.ok.inj (h.symm.trans hs')
    exact ⟨d.phrase, hfinish eof⟩
  · rintro ⟨p, hp⟩
    obtain ⟨d, -, hd⟩ := (State.Spelled.readLine h).finish hp
    exact ⟨d, hd⟩

/-! ### Going on to the end of a line -/

namespace State

/-- A number completes the operand that is expected. -/
theorem exists_read_behind [Inhabited α] (s : State α) :
    ∃ us last, s.read us = .ok { s with place := .behind last } := by
  obtain ⟨side, levels, pending, place⟩ := s
  cases place with
  | operand signs =>
    exact ⟨[⟨.number default, .none⟩], _, read_cons_of_moves (.number rfl default .none) []⟩
  | behind last => exact ⟨[], last, rfl⟩

/-- Closing parentheses lead out of all levels. -/
theorem exists_read_closed (side : Side α) (levels : List (Level α)) (p : Pending α)
    (last : Phrase α) : ∃ us q next,
      (⟨side, levels, p, .behind last⟩ : State α).read us = .ok ⟨side, [], q, .behind next⟩ := by
  induction levels generalizing p last with
  | nil => exact ⟨[], p, last, rfl⟩
  | cons level levels ih =>
    obtain ⟨us, q, next, hus⟩ := ih level.pending _
    refine ⟨⟨.rparen, .none⟩ :: us, q, next, ?_⟩
    exact (read_cons_of_moves (.closes rfl rfl .none) us).trans hus

/-- From every state some tokens lead to the end of a line. -/
theorem exists_read_finish [Inhabited α] (s : State α) (eof : Token α) :
    ∃ us s' p, s.read us = .ok s' ∧ s'.finish eof = .ok p := by
  obtain ⟨us, last, hus⟩ := exists_read_behind s
  obtain ⟨vs, q, next, hvs⟩ := exists_read_closed s.side s.levels s.pending last
  have hclosed : s.read (us ++ vs) = .ok ⟨s.side, [], q, .behind next⟩ :=
    (read_append_of_ok hus vs).trans hvs
  cases hside : s.side with
  | value before => exact ⟨us ++ vs, _, _, hside ▸ hclosed, rfl⟩
  | target =>
    rw [hside] at hclosed
    have hvalue : s.read (us ++ vs ++ [⟨.eq, .none⟩, ⟨.number default, .none⟩])
        = .ok ((start (.value [q.expression next, .ofToken ⟨.eq, .none⟩])).afterAtom []
          [.leaf (.scientific default) .none]) := by
      rw [read_append_of_ok hclosed, read_cons_of_moves (.equals rfl rfl rfl .none)]
      exact read_cons_of_moves (.number rfl default .none) []
    exact ⟨_, _, _, hvalue, rfl⟩

end State

/-- Whatever has been read without an error begins a line. -/
theorem exists_isLine_append [Inhabited α] {s : State α} {ts : List (Token α)}
    (h : readLine ts = .ok s) : ∃ us, IsLine (ts ++ us) := by
  obtain ⟨us, s', p, hus, hp⟩ := s.exists_read_finish ⟨.eof, .none⟩
  refine ⟨us, (isLine_iff_finish (s := s') ?_ ⟨.eof, .none⟩).2 ⟨p, hp⟩⟩
  cases ts with
  | nil =>
    obtain rfl := Except.ok.inj h
    exact readLine_of_read hus
  | cons t ts => rw [readLine_append h nofun, hus]

/-! ### The first error -/

/-- A run that fails has a state in which a token cannot be read. -/
theorem State.read_error {s : State α} {ts : List (Token α)} {e : ParseError}
    (h : s.read ts = .error e) : ∃ before t after s', ts = before ++ t :: after ∧
      s.read before = .ok s' ∧ s'.step t = .error e := by
  induction ts generalizing s with
  | nil => cases h
  | cons t ts ih =>
    rw [read] at h
    split at h
    · rename_i s₁ hstep
      obtain ⟨before, u, after, s', rfl, hread, hfail⟩ := ih h
      refine ⟨t :: before, u, after, s', rfl, ?_, hfail⟩
      rw [read, hstep]
      exact hread
    · rename_i e' hstep
      obtain rfl := Except.error.inj h
      exact ⟨[], t, ts, s, rfl, rfl, hstep⟩

theorem readLine_error {ts : List (Token α)} {e : ParseError} (h : readLine ts = .error e) :
    ∃ before t after s, ts = before ++ t :: after ∧ readLine before = .ok s ∧
      (before = [] → t.kind ≠ .ret) ∧ s.step t = .error e := by
  rcases readLine_cases ts with ⟨span, us, rfl, hline⟩ | ⟨hhead, hline⟩
  · obtain ⟨before, t, after, s, rfl, hread, hfail⟩ := State.read_error (hline ▸ h)
    exact ⟨⟨.ret, span⟩ :: before, t, after, s, rfl, hread, nofun, hfail⟩
  · obtain ⟨before, t, after, s, rfl, hread, hfail⟩ := State.read_error (hline ▸ h)
    refine ⟨before, t, after, s, rfl, readLine_of_read hread, ?_, hfail⟩
    rintro rfl
    exact hhead t rfl

/-- At the end of a line that cannot be finished, the end-of-line token cannot be read. -/
theorem State.step_error_of_finish {s : State α} {eof : Token α} {e : ParseError}
    (heof : eof.kind.isEof = true) (h : s.finish eof = .error e) : s.step eof = .error e := by
  obtain ⟨side, levels, pending, place⟩ := s
  obtain ⟨kind, span⟩ := eof
  cases kind with
  | eof =>
    cases place with
    | operand => exact congrArg Except.error (Except.error.inj h)
    | behind last =>
      cases levels with
      | cons => exact congrArg Except.error (Except.error.inj h)
      | nil =>
        cases side with
        | target => exact congrArg Except.error (Except.error.inj h)
        | value => cases h
  | _ => cases heof

/-- A line that is refused has a first token that cannot be read, which is the end of the line only
when the tokens in front of it are no line. -/
theorem ofLine_error {body : List (Token α)} {eof : Token α} {e : ParseError}
    (hbody : ∀ t ∈ body, t.kind.isInvalid = false ∧ t.kind.isEof = false)
    (heof : eof.kind.isEof = true) (h : Phrase.ofLine body eof = .error e) :
    ∃ before t after s, body ++ [eof] = before ++ t :: after ∧ readLine before = .ok s ∧
      (before = [] → t.kind ≠ .ret) ∧ s.step t = .error e ∧
      (t.kind.isEof = true → ¬ IsLine before) := by
  rw [Phrase.ofLine, Phrase.invalid?_eq_none_iff.2 fun t ht => (hbody t ht).1] at h
  cases hread : readLine body with
  | error e' =>
    rw [hread] at h
    obtain rfl := Except.error.inj h
    obtain ⟨before, t, after, s, rfl, hbefore, hkeyword, hstep⟩ := readLine_error hread
    refine ⟨before, t, after ++ [eof], s, ?_, hbefore, hkeyword, hstep, ?_⟩
    · rw [List.append_assoc, List.cons_append]
    · intro ht
      have hmem : t ∈ before ++ t :: after := List.mem_append_right _ List.mem_cons_self
      rw [(hbody t hmem).2] at ht
      cases ht
  | ok s =>
    rw [hread] at h
    have hfinish : s.finish eof = .error e := h
    refine ⟨body, eof, [], s, rfl, hread, ?_, State.step_error_of_finish heof hfinish, ?_⟩
    · rintro - hret
      rw [hret] at heof
      cases heof
    · intro _ hline
      obtain ⟨p, hp⟩ := (isLine_iff_finish hread eof).1 hline
      rw [hp] at hfinish
      cases hfinish

/-- No line goes on with a token that cannot be read. -/
theorem not_prefix_of_step_error {before : List (Token α)} {s : State α} {t : Token α}
    {e : ParseError} (h : readLine before = .ok s) (hkeyword : before = [] → t.kind ≠ .ret)
    (hstep : s.step t = .error e) (hend : t.kind.isEof = true → ¬ IsLine before) :
    ∀ line eof, IsLine line → eof.kind.isEof = true → ¬ before ++ [t] <+: line ++ [eof] := by
  intro line eof hline heof hprefix
  rcases List.prefix_concat_iff.1 hprefix with heq | ⟨rest, hrest⟩
  · -- the token would be the end of the line
    obtain ⟨rfl, ht⟩ := List.append_inj' heq rfl
    obtain rfl := List.head_eq_of_cons_eq ht
    exact hend heof hline
  · -- the token would be one of the line
    obtain ⟨d, rfl⟩ := hline
    obtain ⟨s', hs', -⟩ := readLine_yield d
    have hfail : readLine (before ++ t :: rest) = .error e := by
      rw [readLine_append h fun hnil u hu => ?_, State.read, hstep]
      obtain rfl : t = u := Option.some.inj hu
      exact hkeyword hnil
    rw [← hrest, List.append_assoc] at hs'
    cases hfail.symm.trans hs'

end Parse

/-- What an error at the token `t` says, when the tokens `before` stand in front of it. -/
structure Blames (e : ParseError) (before : List (Token α)) (t : Token α) : Prop where
  span : e.span = t.span
  found : e.found? = some t.kind.describe
  viable : ∃ us, IsLine (before ++ us)
  hopeless : ∀ line eof, IsLine line → eof.kind.isEof = true → ¬ before ++ [t] <+: line ++ [eof]
  trailing : e.code.id = "E1004" ↔ IsLine before
  unclosed : ¬ IsLine before → endInOperand before = true →
    (e.code.id = "E1003" ↔ unmatched before ≠ [])
  related : ¬ IsLine before → endInOperand before = true →
    e.related? = (unmatched before).head?.map fun t => (t.span, "unclosed `(` opened here")
  unexpected : ¬ IsLine before → endInOperand before = true →
    (e.code.id = "E1001" ↔ unmatched before = [])
  operand : ¬ IsLine before → endInOperand before = false →
    e.code.id = "E1002" ∧ t.kind.startsExpression = false

/-- An error of the automaton blames the token that could not be read. -/
theorem blames_of_step_error [Inhabited α] {before : List (Token α)} {s : Parse.State α}
    {t : Token α} {e : ParseError} (h : Parse.readLine before = .ok s)
    (hkeyword : before = [] → t.kind ≠ .ret) (hstep : s.step t = .error e)
    (hend : t.kind.isEof = true → ¬ IsLine before) : Blames e before t := by
  have hviable := Parse.exists_isLine_append h
  have hhopeless := Parse.not_prefix_of_step_error h hkeyword hstep hend
  have hlevels := Parse.readLine_levels h
  have hplace := Parse.readLine_place h
  have hline := Parse.isLine_iff_finish h t
  obtain ⟨side, levels, pending, place⟩ := s
  cases place with
  | operand signs =>
    obtain ⟨rfl, hstarts⟩ := Parse.State.step_operand_error rfl hstep
    have hnot : ¬ IsLine before := fun hl => nomatch (hline.1 hl).choose_spec
    have hend' : endInOperand before = false := hplace.symm
    exact
      { span := rfl
        found := rfl
        viable := hviable
        hopeless := hhopeless
        trailing := iff_of_false (show Code.id .expectedExpression ≠ "E1004" by decide) hnot
        unclosed := fun _ ho => nomatch hend'.symm.trans ho
        related := fun _ ho => nomatch hend'.symm.trans ho
        unexpected := fun _ ho => nomatch hend'.symm.trans ho
        operand := fun _ _ => ⟨rfl, hstarts⟩ }
  | behind last =>
    obtain rfl := Parse.State.step_behind_error rfl hstep
    have hend' : endInOperand before = true := hplace.symm
    cases levels with
    | cons level levels =>
      have hnot : ¬ IsLine before := fun hl => nomatch (hline.1 hl).choose_spec
      exact
        { span := rfl
          found := rfl
          viable := hviable
          hopeless := hhopeless
          trailing := iff_of_false (show Code.id .unclosedParen ≠ "E1004" by decide) hnot
          unclosed := fun _ _ => iff_of_true rfl (hlevels ▸ nofun)
          related := fun _ _ => hlevels ▸ rfl
          unexpected := fun _ _ =>
            iff_of_false (show Code.id .unclosedParen ≠ "E1001" by decide) (hlevels ▸ nofun)
          operand := fun _ ho => nomatch hend'.symm.trans ho }
    | nil =>
      have hnone : unmatched before = [] := hlevels.symm
      cases side with
      | target =>
        have hnot : ¬ IsLine before := fun hl => nomatch (hline.1 hl).choose_spec
        exact
          { span := rfl
            found := rfl
            viable := hviable
            hopeless := hhopeless
            trailing := iff_of_false (show Code.id .unexpectedToken ≠ "E1004" by decide) hnot
            unclosed := fun _ _ =>
              iff_of_false (show Code.id .unexpectedToken ≠ "E1003" by decide) (not_not_intro hnone)
            related := fun _ _ => hnone ▸ rfl
            unexpected := fun _ _ => iff_of_true rfl hnone
            operand := fun _ ho => nomatch hend'.symm.trans ho }
      | value parts =>
        have hyes : IsLine before := hline.2 ⟨_, rfl⟩
        exact
          { span := rfl
            found := rfl
            viable := hviable
            hopeless := hhopeless
            trailing := iff_of_true rfl hyes
            unclosed := fun hnot => absurd hyes hnot
            related := fun hnot => absurd hyes hnot
            unexpected := fun hnot => absurd hyes hnot
            operand := fun hnot => absurd hyes hnot }

/-- The first invalid character is reported before anything else. -/
theorem ofTokens?_invalid {before after : List (Token α)} {t : Token α}
    (hbefore : ∀ u ∈ before, u.kind.isInvalid = false) (ht : t.kind.isInvalid = true) :
    Phrase.ofTokens? (before ++ t :: after) = some (.error (.invalidCharacter t.span)) := by
  have hinvalid : Phrase.invalid? (before ++ t :: after) = some (.invalidCharacter t.span) := by
    have hnone : before.find? (·.kind.isInvalid) = none :=
      List.find?_eq_none.2 fun u hu => by rw [hbefore u hu]; decide
    rw [Phrase.invalid?, List.find?_append, hnone, List.find?_cons, ht]
    rfl
  simp only [Phrase.ofTokens?, hinvalid]

/-- Every refused line is blamed at the first token that no line goes on with, with the code that
tells why; but an invalid character anywhere is blamed before that. -/
theorem refused_at_first_hopeless_token [Inhabited α] :
    (∀ (body : List (Token α)) (eof : Token α) (e : ParseError),
      (∀ t ∈ body, t.kind.isInvalid = false ∧ t.kind.isEof = false) → eof.kind.isEof = true →
      Phrase.ofTokens? (body ++ [eof]) = some (.error e) →
      ∃ before t after, body ++ [eof] = before ++ t :: after ∧ Blames e before t) ∧
    ∀ (before : List (Token α)) (t : Token α) (after : List (Token α)),
      (∀ u ∈ before, u.kind.isInvalid = false) → t.kind.isInvalid = true →
      ∃ e, Phrase.ofTokens? (before ++ t :: after) = some (.error e) ∧
        e.code.id = "E0001" ∧ e.span = t.span := by
  refine ⟨?_, ?_⟩
  · intro body eof e hbody heof h
    rw [Phrase.ofTokens?_append_eof (fun t ht => (hbody t ht).2) heof] at h
    obtain ⟨before, t, after, s, hsplit, hread, hkeyword, hstep, hend⟩ :=
      Parse.ofLine_error hbody heof (Option.some.inj h)
    exact ⟨before, t, after, hsplit, blames_of_step_error hread hkeyword hstep hend⟩
  · intro before t after hbefore ht
    exact ⟨_, ofTokens?_invalid hbefore ht, rfl, rfl⟩

/-- In `a = ((1)` the end of the line is blamed, with the first parenthesis as the open one. -/
theorem refused_at_first_hopeless_token_unclosed :
    ∃ (before : List (Token Name)) (t : Token Name) (after : List (Token Name)),
      [⟨.ident ⟨2⟩, ⟨0, 1⟩⟩, ⟨.eq, ⟨2, 3⟩⟩, ⟨.lparen, ⟨4, 5⟩⟩, ⟨.lparen, ⟨5, 6⟩⟩,
        ⟨.number ⟨3⟩, ⟨6, 7⟩⟩, ⟨.rparen, ⟨7, 8⟩⟩, ⟨.eof, ⟨8, 8⟩⟩] = before ++ t :: after ∧
        Blames (.unclosedParen ⟨4, 5⟩ "end of line" ⟨8, 8⟩) before t :=
  (@refused_at_first_hopeless_token Name _).1
    [⟨.ident ⟨2⟩, ⟨0, 1⟩⟩, ⟨.eq, ⟨2, 3⟩⟩, ⟨.lparen, ⟨4, 5⟩⟩, ⟨.lparen, ⟨5, 6⟩⟩,
      ⟨.number ⟨3⟩, ⟨6, 7⟩⟩, ⟨.rparen, ⟨7, 8⟩⟩]
    ⟨.eof, ⟨8, 8⟩⟩ _ (by decide) rfl rfl

end Reckoner
