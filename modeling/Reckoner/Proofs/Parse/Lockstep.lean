import Reckoner.Proofs.Parse.Descent
import Reckoner.Proofs.Parse.Errors

/-!
The automaton and the descent in lockstep. Where a rule starts to read, the automaton is in a state
with nothing pending for this rule; where the rule has read its phrase, the automaton stands behind
an operand with which exactly this phrase is complete; and if there is an error on the way, or no
token is left, it is so for both. -/

namespace Reckoner

open Descent Parse

variable {α : Type} {rule operand : Rule} {m n : Nat}

/-- The reading agrees with the answer to a whole line: it runs past the end where there is no
answer, it fails with the error that is the answer, and otherwise `Q` tells how the line goes on. -/
def Descent.Reading.Agrees (answer : Option (Except ParseError (Phrase α)))
    (Q : Phrase α → List (Token α) → Prop) : Reading α n → Prop
  | .past => answer = none
  | .fails e => answer = some (.error e)
  | .reads p rest _ => Q p rest

namespace Descent.Reading.Agrees

variable {answer : Option (Except ParseError (Phrase α))} {P Q : Phrase α → List (Token α) → Prop}
  {x : Reading α n}

theorem andThen {next : Phrase α → ∀ rest : List (Token α), rest.length < n → Reading α m}
    (hx : x.Agrees answer P)
    (hnext : ∀ p rest (fewer : rest.length < n), P p rest → (next p rest fewer).Agrees answer Q) :
    (x.andThen next).Agrees answer Q := by
  cases x with
  | past => exact hx
  | fails e => exact hx
  | reads p rest fewer => exact hnext p rest fewer hx

theorem widen (hx : x.Agrees answer Q) (h : n ≤ m) : (x.widen h).Agrees answer Q := by
  cases x <;> exact hx

theorem mono (hx : x.Agrees answer P) (h : ∀ p rest, P p rest → Q p rest) : x.Agrees answer Q := by
  cases x with
  | past => exact hx
  | fails e => exact hx
  | reads p rest fewer => exact h p rest hx

end Descent.Reading.Agrees

/-! ### The answer of a state -/

namespace Parse.State

/-- What comes of reading from the state to the end of the line, if there is one. -/
def answer? (s : State α) : List (Token α) → Option (Except ParseError (Phrase α))
  | [] => none
  | t :: ts =>
    if t.kind.isEof then some (s.finish t)
    else
      match s.step t with
      | .ok s' => s'.answer? ts
      | .error e => some (.error e)

variable {s s' : State α} {t : Token α}

theorem answer?_eq (s : State α) (ts : List (Token α)) :
    s.answer? ts = match s.read (ts.takeWhile (!·.kind.isEof)), ts.dropWhile (!·.kind.isEof) with
      | .error e, _ => some (.error e)
      | .ok s', eof :: _ => some (s'.finish eof)
      | .ok _, [] => none := by
  induction ts generalizing s with
  | nil => rfl
  | cons t ts ih =>
    rw [answer?, List.takeWhile_cons, List.dropWhile_cons]
    cases t.kind.isEof with
    | true => rfl
    | false =>
      simp only [Bool.not_false, if_true, read, Bool.false_eq_true, if_false]
      cases s.step t with
      | error e => rfl
      | ok s' => exact ih s'

theorem Moves.isEof_eq_false (h : s.Moves t s') : t.kind.isEof = false := by
  cases h with
  | sign _ ht => exact (TokenKind.kind_of_isSign ht).2
  | links _ ht => exact (Rule.kind_of_joins ht).2
  | _ => rfl

/-- A step moves the cursor by one token. -/
theorem answer?_of_moves (h : s.Moves t s') (ts : List (Token α)) :
    s.answer? (t :: ts) = s'.answer? (advance (t :: ts)) := by
  rw [advance_cons h.isEof_eq_false, answer?, h.isEof_eq_false, step_of_moves h]
  rfl

variable {side : Side α} {levels : List (Level α)} {p : Pending α} {last : Phrase α}
  {signs : List (Token α)}

/-- Where an operand is expected, a token that no expression begins with is an error. -/
theorem answer?_operand (h : t.kind.startsExpression = false) (ts : List (Token α)) :
    (⟨side, levels, p, .operand signs⟩ : State α).answer? (t :: ts)
      = some (.error (.expectedExpression t.kind.describe t.span)) := by
  obtain ⟨kind, span⟩ := t
  cases kind <;> first | rfl | cases h

/-- Behind an operand, a token that no rule goes on with is refused, if neither a parenthesis nor
the target nor the line ends with it. -/
theorem answer?_behind (hstop : ∀ rule : Rule, rule.joins t.kind = false)
    (hparen : t.kind = .rparen → levels = []) (heq : t.kind = .eq → levels = [] → side ≠ .target)
    (heof : t.kind = .eof → levels = [] → side = .target) (ts : List (Token α)) :
    (⟨side, levels, p, .behind last⟩ : State α).answer? (t :: ts)
      = some (.error ((⟨side, levels, p, .behind last⟩ : State α).refusal t)) := by
  obtain ⟨kind, span⟩ := t
  cases kind with
  | plus | minus => exact Bool.noConfusion (hstop .expression)
  | star | slash => exact Bool.noConfusion (hstop .term)
  | caret => exact Bool.noConfusion (hstop .factor)
  | rparen =>
    obtain rfl := hparen rfl
    rfl
  | eq =>
    cases levels with
    | cons => rfl
    | nil =>
      cases side with
      | target => exact absurd rfl (heq rfl rfl)
      | value => rfl
  | eof =>
    cases levels with
    | cons => rfl
    | nil =>
      obtain rfl := heof rfl rfl
      rfl
  | _ => rfl

end Parse.State

/-! ### Rules in step -/

namespace Parse.Pending.Keeps

variable {p q r : Pending α}

theorem refl (p : Pending α) (rule : Rule) : p.Keeps p rule := by
  cases rule <;> trivial

theorem trans (hq : p.Keeps q rule) (hr : q.Keeps r rule) : p.Keeps r rule := by
  cases rule with
  | expression => trivial
  | factor => exact ⟨hr.1.trans hq.1, hr.2.trans hq.2⟩
  | _ => exact Eq.trans hr hq

end Parse.Pending.Keeps

namespace Descent

/-- The tokens go on with no operator of the rule, nor of one within it. -/
def Stops (rule : Rule) (ts : List (Token α)) : Prop :=
  ∀ t ∈ ts.head?, ∀ r : Rule, r.rank ≤ rule.rank → r.joins t.kind = false

theorem Stops.of_operand (h : rule.Chains operand) {t : Token α} {ts : List (Token α)}
    (hstop : Stops operand (t :: ts)) (ht : rule.joins t.kind = false) : Stops rule (t :: ts) := by
  intro u hu r hr
  obtain rfl := Option.some.inj hu
  by_cases hlower : r.rank ≤ operand.rank
  · exact hstop t rfl r hlower
  · obtain rfl : r = rule := by
      cases h <;> cases r <;> simp_all [Rule.rank]
    exact ht

theorem Stops.joins {t : Token α} {ts : List (Token α)} (h : Stops .expression (t :: ts)) :
    ∀ r : Rule, r.joins t.kind = false := by
  intro r
  cases r with
  | equation => cases t.kind <;> rfl
  | _ => exact h t rfl _ (by decide)

/-- Where nothing is pending for the rule, reading it leads behind an operand that completes its
phrase. -/
def InStep (rule : Rule) (ts : List (Token α)) : Prop :=
  ∀ (side : Side α) (levels : List (Level α)) (p : Pending α), p.Fresh rule →
    (read rule ts).Agrees ((⟨side, levels, p, .operand []⟩ : State α).answer? ts) fun phrase rest =>
      ∃ q last, (⟨side, levels, p, .operand []⟩ : State α).answer? ts
          = (⟨side, levels, q, .behind last⟩ : State α).answer? rest ∧
        p.Keeps q rule ∧ q.complete rule last = phrase ∧ Stops rule rest

/-- Behind signs, reading the rule completes `whole`, whatever is pending. -/
def InStepSigns (rule : Rule) (whole : Phrase α → List (Token α) → Phrase α)
    (ts : List (Token α)) : Prop :=
  ∀ (side : Side α) (levels : List (Level α)) (p : Pending α) (signs : List (Token α)),
    (read rule ts).Agrees ((⟨side, levels, p, .operand signs⟩ : State α).answer? ts)
      fun phrase rest => (⟨side, levels, p, .operand signs⟩ : State α).answer? ts
        = (⟨side, levels, p, .behind (whole phrase signs)⟩ : State α).answer? rest

theorem InStepSigns.inStep {ts : List (Token α)} (h : InStepSigns .signedAtom behindSigns ts) :
    InStep .signedAtom ts := by
  intro side levels p _
  refine (h side levels p []).mono fun phrase rest hanswer => ?_
  refine ⟨p, phrase, hanswer, rfl, rfl, fun t _ r hr => ?_⟩
  cases r <;> first | rfl | exact absurd hr (by decide)

theorem inStep_atom {ts : List (Token α)} (hsign : ∀ t ∈ ts.head?, t.kind.isSign = false)
    (ih : ∀ us : List (Token α), us.length < ts.length → InStep .expression us) :
    InStepSigns .atom (fun atom signs => Phrase.signed signs atom) ts := by
  intro side levels p signs
  cases ts with
  | nil =>
    rw [read]
    exact rfl
  | cons t ts =>
    obtain ⟨kind, span⟩ := t
    rw [read]
    cases kind with
    | number text => exact State.answer?_of_moves (.number rfl text span) ts
    | ident name => exact State.answer?_of_moves (.ident rfl name span) ts
    | plus | minus => exact Bool.noConfusion (hsign _ rfl)
    | lparen =>
      rw [State.answer?_of_moves (.opens rfl span)]
      refine (ih _ (length_advance_lt rfl ts) _ _ {} Pending.fresh_empty).andThen ?_
      rintro inner rest hlt ⟨q, last, hanswer, -, rfl, hstop⟩
      cases rest with
      | nil => exact hanswer
      | cons u rest =>
        rw [hanswer]
        have hopen : (⟨p, signs, ⟨.lparen, span⟩⟩ :: levels : List (Level α)) ≠ [] :=
          List.cons_ne_nil _ _
        have hunclosed : u.kind ≠ .rparen →
            (⟨side, ⟨p, signs, ⟨.lparen, span⟩⟩ :: levels, q, .behind last⟩ : State α).answer?
              (u :: rest) = some (.error (.unclosedParen span u.kind.describe u.span)) :=
          fun h => State.answer?_behind hstop.joins (absurd · h) (fun _ hl => absurd hl hopen)
            (fun _ hl => absurd hl hopen) rest
        obtain ⟨kind, span'⟩ := u
        cases kind with
        | rparen =>
          have hcloses := State.Moves.closes
            (s := ⟨side, ⟨p, signs, ⟨.lparen, span⟩⟩ :: levels, q, .behind last⟩) rfl rfl span'
          exact State.answer?_of_moves hcloses rest
        | _ => exact hunclosed fun h => by cases h
    | _ => exact State.answer?_operand rfl ts

theorem inStep_signedAtom {ts : List (Token α)}
    (ih : ∀ us : List (Token α), us.length < ts.length →
      InStepSigns .signedAtom behindSigns us ∧ InStep .expression us) :
    InStepSigns .signedAtom behindSigns ts := by
  intro side levels p signs
  cases ts with
  | nil =>
    rw [read]
    exact rfl
  | cons t ts =>
    rw [read]
    by_cases hsign : t.kind.isSign = true
    · rw [dif_pos hsign, State.answer?_of_moves (.sign rfl hsign)]
      have hlt := length_advance_lt (TokenKind.kind_of_isSign hsign).2 ts
      refine ((ih _ hlt).1 side levels p (t :: signs)).andThen fun inner rest _ hanswer => ?_
      exact hanswer
    · have hatom : InStepSigns .atom _ (t :: ts) := inStep_atom
        (fun u hu => Option.some.inj hu ▸ Bool.eq_false_iff.2 hsign) fun us hus => (ih us hus).2
      rw [dif_neg hsign]
      exact (hatom side levels p signs).andThen fun atom rest _ hanswer => hanswer

/-- Going on with a chain that has its first operand. -/
theorem agrees_links (h : rule.Chains operand) (side : Side α) (levels : List (Level α))
    {ts : List (Token α)} (ih : ∀ us : List (Token α), us.length < ts.length → InStep operand us)
    {p : Pending α} {last : Phrase α} {parts : List (Phrase α)}
    (hlast : p.complete rule last = .node rule parts) (hstop : Stops operand ts) :
    (links rule operand parts ts).Agrees ((⟨side, levels, p, .behind last⟩ : State α).answer? ts)
      fun phrase rest => ∃ q last', (⟨side, levels, p, .behind last⟩ : State α).answer? ts
          = (⟨side, levels, q, .behind last'⟩ : State α).answer? rest ∧
        p.Keeps q rule ∧ q.complete rule last' = phrase ∧ Stops rule rest := by
  match ts, ih, hstop with
  | [], _, _ =>
    rw [links]
    exact rfl
  | t :: ts, ih, hstop =>
    rw [links]
    by_cases hop : rule.joins t.kind = true
    · rw [dif_pos hop, State.answer?_of_moves (.links rfl hop)]
      have hlt := length_advance_lt (Rule.kind_of_joins hop).2 ts
      refine (ih _ hlt side levels _ (p.fresh_extend h last t)).andThen ?_
      rintro next rest hrest ⟨q, last', hanswer, hkeeps, rfl, hstop'⟩
      -- the chain goes on behind the operand, with one more link pending
      have hshorter := Nat.lt_trans hrest hlt
      have hrun := agrees_links h side levels (fun us hus => ih us (Nat.lt_trans hus hshorter))
        (Pending.complete_extend h hlast hkeeps last') hstop'
      rw [hanswer]
      refine (hrun.mono ?_).widen _
      rintro phrase rest' ⟨r, last'', hanswer', hkeeps', hphrase, hstop''⟩
      have hq : p.Keeps q rule := .of_extend h (.refl p rule) hkeeps
      exact ⟨r, last'', hanswer', hq.trans hkeeps', hphrase, hstop''⟩
    · rw [dif_neg hop]
      exact ⟨p, last, rfl, .refl p rule, hlast, hstop.of_operand h (Bool.eq_false_iff.2 hop)⟩
termination_by ts.length
decreasing_by exact hshorter

theorem inStep_chain (h : rule.Chains operand) {ts : List (Token α)}
    (hread : read rule ts = (read operand ts).andThen fun p rest hrest =>
      (links rule operand [p] rest).widen hrest)
    (ih : ∀ us : List (Token α), us.length < ts.length → InStep operand us)
    (hfirst : InStep operand ts) : InStep rule ts := by
  intro side levels p hp
  rw [hread]
  refine (hfirst side levels p (hp.within h)).andThen ?_
  rintro first rest hrest ⟨q, last, hanswer, hkeeps, rfl, hstop⟩
  have hrun := agrees_links h side levels (fun us hus => ih us (Nat.lt_trans hus hrest))
    (Pending.complete_first h hp hkeeps last) hstop
  rw [hanswer]
  refine (hrun.mono ?_).widen _
  rintro phrase rest' ⟨r, last', hanswer', hkeeps', hphrase, hstop'⟩
  exact ⟨r, last', hanswer', (hkeeps.of_operand h).trans hkeeps', hphrase, hstop'⟩

/-- Every rule is in step, on lists of any length. -/
theorem inStep (ts : List (Token α)) :
    InStepSigns .signedAtom behindSigns ts ∧ InStep .factor ts ∧ InStep .term ts ∧
      InStep .expression ts := by
  have ih : ∀ us : List (Token α), us.length < ts.length →
      InStepSigns .signedAtom behindSigns us ∧ InStep .factor us ∧ InStep .term us ∧
        InStep .expression us := fun us _ => inStep us
  have hsigned := inStep_signedAtom fun us hus => ⟨(ih us hus).1, (ih us hus).2.2.2⟩
  have hfactor := inStep_chain .factor (by rw [read]) (fun us hus => (ih us hus).1.inStep)
    hsigned.inStep
  have hterm := inStep_chain .term (by rw [read]) (fun us hus => (ih us hus).2.1) hfactor
  have hexpression := inStep_chain .expression (by rw [read]) (fun us hus => (ih us hus).2.2.1)
    hterm
  exact ⟨hsigned, hfactor, hterm, hexpression⟩
termination_by ts.length

/-! ### Lines -/

theorem opening_of_ne {t : Token α} (h : t.kind ≠ .ret) (ts : List (Token α)) :
    opening (t :: ts) = (.start .target, t :: ts) := by
  obtain ⟨kind, span⟩ := t
  cases kind <;> first | rfl | exact absurd rfl h

/-- Behind an equation only the end of the line is left to read. -/
theorem agrees_equation (ts : List (Token α)) :
    (read .equation ts).Agrees ((opening ts).1.answer? (opening ts).2) fun phrase rest =>
      ∃ before q last, (opening ts).1.answer? (opening ts).2
          = (⟨.value before, [], q, .behind last⟩ : State α).answer? rest ∧
        .node .equation (before ++ [q.expression last]) = phrase ∧ Stops .expression rest := by
  have hexpression : ∀ us : List (Token α), InStep .expression us := fun us => (inStep us).2.2.2
  cases ts with
  | nil =>
    rw [read]
    exact rfl
  | cons t ts =>
    rw [read]
    split
    · rename_i hk
      obtain ⟨kind, span⟩ := t
      obtain rfl : kind = .ret := hk
      refine (hexpression ts (.value [.ofToken ⟨.ret, span⟩]) [] {} Pending.fresh_empty).andThen ?_
      rintro value rest _ ⟨q, last, hanswer, -, rfl, hstop⟩
      exact ⟨_, q, last, hanswer, rfl, hstop⟩
    · rename_i hk
      rw [opening_of_ne hk]
      refine (hexpression (t :: ts) .target [] {} Pending.fresh_empty).andThen ?_
      rintro target rest _ ⟨q, last, hanswer, -, rfl, hstop⟩
      cases rest with
      | nil => exact hanswer
      | cons u rest =>
        have hunexpected : u.kind ≠ .eq →
            (⟨.target, [], q, .behind last⟩ : State α).answer? (u :: rest)
              = some (.error (.expectedEquals u.kind.describe u.span)) := fun h =>
          State.answer?_behind hstop.joins (fun _ => rfl) (fun he => absurd he h) (fun _ _ => rfl)
            rest
        show Reading.Agrees ((⟨.target, [], {}, .operand []⟩ : State α).answer? (t :: ts)) _ _
        rw [hanswer]
        dsimp only
        split
        · rename_i hu
          obtain ⟨kind, span⟩ := u
          obtain rfl : kind = .eq := hu
          have hequals := State.answer?_of_moves
            (.equals (s := ⟨.target, [], q, .behind last⟩) rfl rfl rfl span) rest
          rw [hequals]
          refine (hexpression rest (.value [q.expression last, .ofToken ⟨.eq, span⟩]) [] {}
            Pending.fresh_empty).andThen ?_
          rintro value rest' _ ⟨q', last', hanswer', -, rfl, hstop'⟩
          exact ⟨[q.expression last, .ofToken ⟨.eq, span⟩], q', last',
            hanswer.trans (hequals.trans hanswer'), rfl, hstop'⟩
        · rename_i hu
          exact hunexpected hu

/-- On valid tokens, the automaton answers from the state in which it opens the line. -/
theorem ofTokens?_eq_answer? {t : Token α} {ts : List (Token α)}
    (hvalid : Phrase.invalid? (t :: ts) = none) :
    Phrase.ofTokens? (t :: ts) = (opening (t :: ts)).1.answer? (opening (t :: ts)).2 := by
  unfold Phrase.ofTokens?
  rw [hvalid, State.answer?_eq]
  obtain ⟨kind, span⟩ := t
  cases kind <;> rfl

/-- Reading a whole line gives the answer of the state in which it opens. -/
theorem parseLine_eq_answer? (ts : List (Token α)) :
    parseLine ts = (opening ts).1.answer? (opening ts).2 := by
  have hagrees := agrees_equation ts
  rw [parseLine]
  cases hread : read .equation ts with
  | past =>
    rw [hread] at hagrees
    exact hagrees.symm
  | fails e =>
    rw [hread] at hagrees
    exact hagrees.symm
  | reads p rest fewer =>
    rw [hread] at hagrees
    obtain ⟨before, q, last, hanswer, rfl, hstop⟩ := hagrees
    rw [hanswer]
    cases rest with
    | nil => rfl
    | cons t rest =>
      cases heof : t.kind.isEof with
      | true => simp only [State.answer?, heof, if_true, State.finish]
      | false =>
        have hne : t.kind ≠ .eof := fun h => by
          rw [h] at heof
          cases heof
        have hvalue : (.value before : Side α) ≠ .target := fun h => by cases h
        rw [State.answer?_behind hstop.joins (fun _ => rfl) (fun _ _ => hvalue) (absurd · hne)]
        simp only [heof]
        rfl

/-- The descent and the automaton give the same answer on all lists of tokens. -/
theorem parse_eq_ofTokens? (ts : List (Token α)) : parse ts = Phrase.ofTokens? ts := by
  cases hinvalid : Phrase.invalid? ts with
  | some e => simp only [parse, Phrase.ofTokens?, hinvalid]
  | none =>
    cases ts with
    | nil => rfl
    | cons t ts =>
      unfold parse
      rw [ofTokens?_eq_answer? hinvalid, ← parseLine_eq_answer?, hinvalid]

end Descent

end Reckoner
