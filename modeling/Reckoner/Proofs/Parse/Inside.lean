import Reckoner.Proofs.Parse.Lockstep

/-!
The parser stays inside its list of tokens. An end-of-line token anywhere decides the line, and what
stands behind it is not looked at. Without one, the parser runs past the end exactly when the tokens
do not decide the line: when all of them can be read, so that only an end-of-line token behind them
would tell whether they are a line. -/

namespace Reckoner

open Parse

variable {α : Type}

/-- The error is reported at the token. -/
def ParseError.At (e : ParseError) (t : Token α) : Prop :=
  e.found? = some t.kind.describe ∧ e.span = t.span

theorem ParseError.At.of_step {s : State α} {t : Token α} {e : ParseError}
    (h : s.step t = .error e) : e.At t := by
  obtain ⟨side, levels, pending, place⟩ := s
  cases place with
  | operand signs =>
    obtain ⟨rfl, -⟩ := State.step_operand_error rfl h
    exact ⟨rfl, rfl⟩
  | behind last =>
    obtain rfl := State.step_behind_error rfl h
    cases levels with
    | cons => exact ⟨rfl, rfl⟩
    | nil => cases side <;> exact ⟨rfl, rfl⟩

/-- Only the end of the line is called so. -/
theorem TokenKind.isEof_of_describe {k k' : TokenKind α} (h : k.describe = k'.describe)
    (hk' : k'.isEof = true) : k.isEof = true := by
  cases k' <;> cases hk'
  cases k <;> first | rfl | exact absurd h (by simp [describe])

/-! ### The answer to a list with an end somewhere -/

/-- Behind tokens that are not the end of the line, the answer comes from the state they lead to. -/
theorem Parse.State.answer?_append (s : State α) {before : List (Token α)}
    (hbefore : ∀ t ∈ before, t.kind.isEof = false) (rest : List (Token α)) :
    s.answer? (before ++ rest) = match s.read before with
      | .ok s' => s'.answer? rest
      | .error e => some (.error e) := by
  induction before generalizing s with
  | nil => rfl
  | cons t before ih =>
    obtain ⟨ht, hbefore⟩ := List.forall_mem_cons.1 hbefore
    rw [List.cons_append, answer?, ht, read]
    cases s.step t with
    | ok s' => exact ih s' hbefore
    | error e => rfl

namespace Phrase

/-- Valid tokens are read up to a place behind which the end of the line may come. -/
theorem ofTokens?_append {before rest : List (Token α)}
    (hbefore : ∀ t ∈ before, t.kind.isEof = false) (hrest : ∀ t ∈ rest.head?, t.kind ≠ .ret)
    (hne : before ++ rest ≠ []) (hvalid : invalid? (before ++ rest) = none) :
    ofTokens? (before ++ rest) = match readLine before with
      | .ok s => s.answer? rest
      | .error e => some (.error e) := by
  obtain ⟨t, ts, hts⟩ := List.exists_cons_of_ne_nil hne
  rw [hts] at hvalid ⊢
  rw [Descent.ofTokens?_eq_answer? hvalid]
  rcases readLine_cases before with ⟨span, us, rfl, hline⟩ | ⟨hhead, hline⟩
  · obtain ⟨rfl, rfl⟩ := List.cons.inj hts
    rw [hline]
    exact State.answer?_append _ (List.forall_mem_cons.1 hbefore).2 rest
  · have ht : t.kind ≠ .ret := by
      cases before with
      | nil =>
        obtain rfl : rest = t :: ts := hts
        exact hrest t rfl
      | cons u us =>
        obtain ⟨rfl, -⟩ := List.cons.inj hts
        exact hhead u rfl
    rw [Descent.opening_of_ne ht, ← hts, hline]
    exact State.answer?_append _ hbefore rest

/-- The first end-of-line token decides, whatever stands behind it. -/
theorem ofTokens?_of_eof {before after : List (Token α)} {eof : Token α}
    (hbefore : ∀ t ∈ before, t.kind.isEof = false) (heof : eof.kind.isEof = true)
    (hvalid : invalid? (before ++ eof :: after) = none) :
    ofTokens? (before ++ eof :: after) = some (ofLine before eof) := by
  have hrest : ∀ t ∈ (eof :: after).head?, t.kind ≠ .ret := by
    rintro t ht hret
    obtain rfl := Option.some.inj ht
    rw [hret] at heof
    cases heof
  have hfront : invalid? before = none := invalid?_eq_none_iff.2 fun t ht =>
    invalid?_eq_none_iff.1 hvalid t (List.mem_append_left _ ht)
  rw [ofTokens?_append hbefore hrest (by simp) hvalid, ofLine, hfront]
  cases readLine before with
  | ok s => simp only [State.answer?, heof, if_true]
  | error e => rfl

/-- A list with an end-of-line token has an answer, which is the one to its tokens up to there. -/
theorem ofTokens?_cut {ts : List (Token α)} (h : ∃ t ∈ ts, t.kind.isEof = true) :
    ∃ r, ofTokens? ts = some r ∧
      ((∀ t ∈ ts, t.kind.isInvalid = false) →
        ∀ before eof after, ts = before ++ eof :: after → (∀ t ∈ before, t.kind.isEof = false) →
          eof.kind.isEof = true → ofTokens? (before ++ [eof]) = some r) := by
  cases hinvalid : invalid? ts with
  | some e =>
    refine ⟨.error e, by simp only [ofTokens?, hinvalid], fun hvalid => ?_⟩
    rw [invalid?_eq_none_iff.2 hvalid] at hinvalid
    cases hinvalid
  | none =>
    obtain ⟨eof, hfind⟩ := Option.isSome_iff_exists.1 (List.find?_isSome.2 h)
    obtain ⟨heof, before, after, hts, hbefore⟩ := List.find?_eq_some_iff_append.1 hfind
    have hanswer : ofTokens? ts = some (ofLine before eof) := by
      rw [hts] at hinvalid ⊢
      exact ofTokens?_of_eof (fun t ht => by simpa using hbefore t ht) heof hinvalid
    refine ⟨_, hanswer, fun _ before' eof' after' hts' hbefore' heof' => ?_⟩
    rw [← hanswer, ofTokens?_append_eof hbefore' heof', hts']
    exact (ofTokens?_of_eof hbefore' heof' (hts' ▸ hinvalid)).symm

/-- Tokens without an end are never a line: the parser runs past them if the end of the line would
be the token to decide, and it refuses them as it would in front of that end otherwise. -/
theorem ofTokens?_without_eof {ts : List (Token α)} {eof : Token α} (hne : ts ≠ [])
    (hts : ∀ t ∈ ts, t.kind.isInvalid = false ∧ t.kind.isEof = false)
    (heof : eof.kind.isEof = true) :
    ∃ r, ofTokens? (ts ++ [eof]) = some r ∧
      (ofTokens? ts = none ↔ (∃ p, r = .ok p) ∨ ∃ e, r = .error e ∧ e.At eof) ∧
      ∀ r', ofTokens? ts = some r' → ∃ e, r' = .error e ∧ r = .error e := by
  have hends : ∀ t ∈ ts, t.kind.isEof = false := fun t ht => (hts t ht).2
  have hvalid : invalid? ts = none := invalid?_eq_none_iff.2 fun t ht => (hts t ht).1
  have hopen := @ofTokens?_append α ts [] hends (fun t ht => by cases ht) (by simpa using hne)
    (by simpa using hvalid)
  rw [List.append_nil] at hopen
  refine ⟨_, ofTokens?_append_eof hends heof, ?_⟩
  rw [hopen, ofLine, hvalid]
  cases hread : readLine ts with
  | ok s =>
    refine ⟨iff_of_true rfl ?_, fun r' hr' => by cases hr'⟩
    cases hfinish : s.finish eof with
    | ok p => exact .inl ⟨p, hfinish⟩
    | error e => exact .inr ⟨e, hfinish, .of_step (State.step_error_of_finish heof hfinish)⟩
  | error e =>
    obtain ⟨before, t, after, s, rfl, -, -, hstep⟩ := readLine_error hread
    have hat : e.At t := .of_step hstep
    have ht : t.kind.isEof = false := hends t (by simp)
    refine ⟨iff_of_false (fun h => by cases h) ?_,
      fun r' hr' => ⟨e, (Option.some.inj hr').symm, rfl⟩⟩
    rintro (⟨p, hp⟩ | ⟨e', he', hfound, -⟩)
    · cases hp
    · obtain rfl := Except.error.inj he'
      have hdescribe := Option.some.inj (hat.1.symm.trans hfound)
      rw [TokenKind.isEof_of_describe hdescribe heof] at ht
      cases ht

end Phrase

/-- The parser gives the answers of a descent that moves over the list of tokens without a bound of
its own. An end-of-line token anywhere gives it an answer, and nothing behind the first one counts;
without one it has no answer exactly when the end of the line would decide, or be blamed, and no
tokens without an end are ever a line. -/
theorem parser_stays_inside :
    (∀ ts : List (Token α), Descent.parse ts = Phrase.ofTokens? ts) ∧
    (∀ ts : List (Token α), (∃ t ∈ ts, t.kind.isEof = true) → ∃ r, Phrase.ofTokens? ts = some r ∧
      ((∀ t ∈ ts, t.kind.isInvalid = false) → ∀ before eof after, ts = before ++ eof :: after →
        (∀ t ∈ before, t.kind.isEof = false) → eof.kind.isEof = true →
          Phrase.ofTokens? (before ++ [eof]) = some r)) ∧
    ∀ (ts : List (Token α)) (eof : Token α), ts ≠ [] →
      (∀ t ∈ ts, t.kind.isInvalid = false ∧ t.kind.isEof = false) → eof.kind.isEof = true →
      ∃ r, Phrase.ofTokens? (ts ++ [eof]) = some r ∧
        (Phrase.ofTokens? ts = none ↔ (∃ p, r = .ok p) ∨ ∃ e, r = .error e ∧ e.At eof) ∧
        ∀ r', Phrase.ofTokens? ts = some r' → ∃ e, r' = .error e ∧ r = .error e :=
  ⟨Descent.parse_eq_ofTokens?, fun _ => Phrase.ofTokens?_cut,
    fun _ _ => Phrase.ofTokens?_without_eof⟩

/-- Behind `x = 1` a token is asked for, and behind `x = )` none is. -/
theorem parser_stays_inside_open_and_refused :
    Phrase.ofTokens? [⟨.ident ⟨2⟩, ⟨0, 1⟩⟩, ⟨.eq, ⟨2, 3⟩⟩, (⟨.number ⟨3⟩, ⟨4, 5⟩⟩ : Token Name)]
      = none ∧
    ∃ e, Phrase.ofTokens? [⟨.ident ⟨2⟩, ⟨0, 1⟩⟩, ⟨.eq, ⟨2, 3⟩⟩, (⟨.rparen, ⟨4, 5⟩⟩ : Token Name)]
        = some (.error e) ∧
      Phrase.ofTokens? [⟨.ident ⟨2⟩, ⟨0, 1⟩⟩, ⟨.eq, ⟨2, 3⟩⟩, ⟨.rparen, ⟨4, 5⟩⟩,
        (⟨.eof, ⟨5, 5⟩⟩ : Token Name)] = some (.error e) := by
  obtain ⟨-, -, hopen⟩ := @parser_stays_inside Name
  refine ⟨?_, ?_⟩
  · obtain ⟨r, hr, hnone, -⟩ := hopen
      [⟨.ident ⟨2⟩, ⟨0, 1⟩⟩, ⟨.eq, ⟨2, 3⟩⟩, ⟨.number ⟨3⟩, ⟨4, 5⟩⟩] ⟨.eof, ⟨5, 5⟩⟩ nofun
      (by decide) rfl
    exact hnone.2 (.inl ⟨_, (Option.some.inj hr).symm⟩)
  · obtain ⟨r, hr, -, hrefused⟩ := hopen
      [⟨.ident ⟨2⟩, ⟨0, 1⟩⟩, ⟨.eq, ⟨2, 3⟩⟩, ⟨.rparen, ⟨4, 5⟩⟩] ⟨.eof, ⟨5, 5⟩⟩ nofun (by decide) rfl
    obtain ⟨e, he, rfl⟩ := hrefused _ rfl
    exact ⟨e, congrArg some he, hr⟩

end Reckoner
