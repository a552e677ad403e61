import Reckoner.Parse
import Reckoner.Proofs.Grammar

/-!
What reading one token can do. Each way on from a state is one constructor of a relation, and the
automaton takes a step exactly when the relation has one; every invariant of the automaton is
proved from that relation. Links are put on a chain by its rule, in the same way for all three. -/

namespace Reckoner.Parse

variable {α : Type}

/-! ### Chains -/

/-- The parts of a chain are those of its links, and then its last operand. -/
theorem foldl_links (links : Phrase.Links α) (ps qs : List (Phrase α)) :
    links.foldl (fun parts link => link.1 :: .ofToken link.2 :: parts) (ps ++ qs)
      = links.foldl (fun parts link => link.1 :: .ofToken link.2 :: parts) ps ++ qs := by
  induction links generalizing ps with
  | nil => rfl
  | cons link links ih => exact ih (link.1 :: .ofToken link.2 :: ps)

/-- One more link puts an operator and an operand behind the chain that it extends. -/
theorem chain_cons {rule : Rule} {links : Phrase.Links α} {last : Phrase α} {ps : List (Phrase α)}
    (h : Phrase.chain rule links last = .node rule ps) (op : Token α) (next : Phrase α) :
    Phrase.chain rule ((last, op) :: links) next = .node rule (ps ++ [.ofToken op, next]) := by
  obtain ⟨-, rfl⟩ := Phrase.node.inj h
  exact congrArg (Phrase.node rule) (foldl_links links [last] [.ofToken op, next])

namespace Pending

/-- The phrase of a rule that ends with the signed atom `last`. -/
def complete (p : Pending α) : Rule → Phrase α → Phrase α
  | .expression, last => p.expression last
  | .term, last => p.term last
  | .factor, last => p.factor last
  | _, last => last

/-- What is pending once the operator `op` has linked on to the chain of `rule` that ends with
`last`. -/
def extend (p : Pending α) (rule : Rule) (last : Phrase α) (op : Token α) : Pending α :=
  match rule with
  | .expression => { terms := (p.term last, op) :: p.terms }
  | .term => { p with factors := (p.factor last, op) :: p.factors, atoms := [] }
  | .factor => { p with atoms := (last, op) :: p.atoms }
  | _ => p

theorem link?_of_joins {rule : Rule} {op : Token α} (h : rule.joins op.kind = true)
    (p : Pending α) (last : Phrase α) : p.link? last op = some (p.extend rule last op) := by
  obtain ⟨kind, span⟩ := op
  cases rule <;> cases kind <;> first | rfl | cases h

theorem link?_eq_some {p q : Pending α} {last : Phrase α} {op : Token α}
    (h : p.link? last op = some q) :
    ∃ rule : Rule, rule.joins op.kind = true ∧ q = p.extend rule last op := by
  obtain ⟨kind, span⟩ := op
  cases kind with
  | plus | minus => exact ⟨.expression, rfl, (Option.some.inj h).symm⟩
  | star | slash => exact ⟨.term, rfl, (Option.some.inj h).symm⟩
  | caret => exact ⟨.factor, rfl, (Option.some.inj h).symm⟩
  | _ => cases h

end Pending

/-! ### Steps -/

namespace State

/-- The ways on from a state. -/
inductive Moves (s : State α) : Token α → State α → Prop where
  | number {signs : List (Token α)} (h : s.place = .operand signs) (a : α) (span : Span) :
      s.Moves ⟨.number a, span⟩ (s.afterAtom signs [.leaf (.scientific a) span])
  | ident {signs : List (Token α)} (h : s.place = .operand signs) (a : α) (span : Span) :
      s.Moves ⟨.ident a, span⟩ (s.afterAtom signs [.leaf (.variable a) span])
  | sign {signs : List (Token α)} (h : s.place = .operand signs) {t : Token α}
      (ht : t.kind.isSign = true) : s.Moves t { s with place := .operand (t :: signs) }
  | opens {signs : List (Token α)} (h : s.place = .operand signs) (span : Span) :
      s.Moves ⟨.lparen, span⟩
        ⟨s.side, ⟨s.pending, signs, ⟨.lparen, span⟩⟩ :: s.levels, {}, .operand []⟩
  | links {last : Phrase α} (h : s.place = .behind last) {rule : Rule} {t : Token α}
      (ht : rule.joins t.kind = true) :
      s.Moves t { s with pending := s.pending.extend rule last t, place := .operand [] }
  | closes {last : Phrase α} (h : s.place = .behind last) {level : Level α}
      {levels : List (Level α)} (hs : s.levels = level :: levels) (span : Span) :
      s.Moves ⟨.rparen, span⟩
        (afterAtom ⟨s.side, levels, level.pending, s.place⟩ level.signs
          [.ofToken level.opening, s.pending.expression last, .ofToken ⟨.rparen, span⟩])
  | equals {last : Phrase α} (h : s.place = .behind last) (hl : s.levels = [])
      (hs : s.side = .target) (span : Span) :
      s.Moves ⟨.eq, span⟩ (start (.value [s.pending.expression last, .ofToken ⟨.eq, span⟩]))

/-- A step is one of the ways on. -/
theorem moves_of_step {s s' : State α} {t : Token α} (h : s.step t = .ok s') : s.Moves t s' := by
  obtain ⟨kind, span⟩ := t
  rw [step] at h
  split at h
  · -- an operand is expected
    rename_i signs hp
    cases kind with
    | number a => exact Except.ok.inj h ▸ .number hp a span
    | ident a => exact Except.ok.inj h ▸ .ident hp a span
    | lparen => exact Except.ok.inj h ▸ .opens hp span
    | plus | minus => exact Except.ok.inj h ▸ .sign hp rfl
    | _ => cases h
  · -- an operand has just been read
    rename_i last hp
    rw [readBehind] at h
    split at h
    · rename_i pending hlink
      obtain ⟨rule, hrule, rfl⟩ := Pending.link?_eq_some hlink
      exact Except.ok.inj h ▸ .links hp hrule
    · split at h
      · rename_i level levels hk hl
        obtain rfl : kind = .rparen := hk
        exact Except.ok.inj h ▸ .closes hp hl span
      · rename_i hk hl hs
        obtain rfl : kind = .eq := hk
        exact Except.ok.inj h ▸ .equals hp hl hs span
      · cases h

/-- Each way on is a step. -/
theorem step_of_moves {s s' : State α} {t : Token α} (h : s.Moves t s') : s.step t = .ok s' := by
  cases h with
  | number h a span => rw [step, h]; rfl
  | ident h a span => rw [step, h]; rfl
  | sign h ht =>
    obtain ⟨kind, span⟩ := t
    rw [step, h]
    cases kind <;> first | rfl | cases ht
  | opens h span => rw [step, h]; rfl
  | links h ht => simp only [step, h, readBehind, Pending.link?_of_joins ht]
  | closes h hl span => simp only [step, h, readBehind, Pending.link?, hl]
  | equals h hl hs span => simp only [step, h, readBehind, Pending.link?, hl, hs]

/-- Where an operand is expected, the error is at a token that no expression begins with. -/
theorem step_operand_error {s : State α} {signs : List (Token α)} (hp : s.place = .operand signs)
    {t : Token α} {e : ParseError} (h : s.step t = .error e) :
    e = .expectedExpression t.kind.describe t.span ∧ t.kind.startsExpression = false := by
  obtain ⟨kind, span⟩ := t
  rw [step, hp] at h
  cases kind <;> first | exact ⟨(Except.error.inj h).symm, rfl⟩ | cases h

/-- Behind an operand, the error names what is still missing there. -/
theorem step_behind_error {s : State α} {last : Phrase α} (hp : s.place = .behind last)
    {t : Token α} {e : ParseError} (h : s.step t = .error e) : e = s.refusal t := by
  simp only [step, hp, readBehind] at h
  split at h
  · cases h
  · split at h
    · cases h
    · cases h
    · exact (Except.error.inj h).symm

end State

/-! ### Runs -/

/-- A line opens with the keyword, or is read as the target of an assignment. -/
theorem readLine_cases (ts : List (Token α)) :
    (∃ span us, ts = ⟨.ret, span⟩ :: us ∧
      readLine ts = (State.start (.value [.ofToken ⟨.ret, span⟩])).read us) ∨
    ((∀ t ∈ ts.head?, t.kind ≠ .ret) ∧ readLine ts = (State.start .target).read ts) := by
  cases ts with
  | nil => exact .inr ⟨nofun, rfl⟩
  | cons t ts =>
    obtain ⟨kind, span⟩ := t
    cases kind with
    | ret => exact .inl ⟨span, ts, rfl, rfl⟩
    | _ => exact .inr ⟨by simp, rfl⟩

section Induction

variable {P : State α → List (Token α) → Prop}
  (hmoves : ∀ {s s' : State α} {t : Token α} {ts : List (Token α)},
    P s ts → s.Moves t s' → P s' (ts ++ [t]))

include hmoves

theorem read_induction {s s' : State α} {ts us : List (Token α)} (h : P s ts)
    (hr : s.read us = .ok s') : P s' (ts ++ us) := by
  induction us generalizing s ts with
  | nil =>
    obtain rfl := Except.ok.inj hr
    rwa [List.append_nil]
  | cons t us ih =>
    rw [State.read] at hr
    split at hr
    · rename_i s₁ hstep
      have h₁ := ih (hmoves h (State.moves_of_step hstep)) hr
      rwa [List.append_assoc] at h₁
    · cases hr

/-- What holds of both ways to open a line and is kept by every step holds after any run. -/
theorem readLine_induction (htarget : P (.start .target) [])
    (hret : ∀ span, P (.start (.value [.ofToken ⟨.ret, span⟩])) [⟨.ret, span⟩])
    {s : State α} {ts : List (Token α)} (hr : readLine ts = .ok s) : P s ts := by
  rcases readLine_cases ts with ⟨span, us, rfl, hline⟩ | ⟨-, hline⟩
  · exact read_induction hmoves (hret span) (hline ▸ hr)
  · exact read_induction hmoves htarget (hline ▸ hr)

end Induction

theorem State.read_append_of_ok {s s' : State α} {ts : List (Token α)} (h : s.read ts = .ok s')
    (us : List (Token α)) : s.read (ts ++ us) = s'.read us := by
  rw [read_append, h]

theorem State.read_cons_of_moves {s s' : State α} {t : Token α} (h : s.Moves t s')
    (ts : List (Token α)) : s.read (t :: ts) = s'.read ts := by
  rw [read, step_of_moves h]

/-- The keyword cannot stand where an operand is expected, so it decides how a line opens. -/
theorem readLine_of_read {ts : List (Token α)} {s : State α}
    (h : (State.start .target).read ts = .ok s) : readLine ts = .ok s := by
  cases ts with
  | nil => exact h
  | cons t ts =>
    obtain ⟨kind, span⟩ := t
    cases kind <;> first | exact h | cases h

/-- Behind a run, a line goes on from the state that the run has led to. -/
theorem readLine_append {ts us : List (Token α)} {s : State α} (h : readLine ts = .ok s)
    (hkeyword : ts = [] → ∀ t ∈ us.head?, t.kind ≠ .ret) : readLine (ts ++ us) = s.read us := by
  rcases readLine_cases ts with ⟨span, ts', rfl, hline⟩ | ⟨hhead, hline⟩
  · exact State.read_append_of_ok (hline ▸ h) us
  · rcases readLine_cases (ts ++ us) with ⟨span, us', hts, -⟩ | ⟨-, hline'⟩
    · cases ts with
      | nil =>
        obtain rfl : us = ⟨.ret, span⟩ :: us' := hts
        exact absurd rfl (hkeyword rfl _ rfl)
      | cons t ts =>
        obtain ⟨rfl, -⟩ := List.cons.inj hts
        exact absurd rfl (hhead _ rfl)
    · rw [hline', State.read_append_of_ok (hline ▸ h)]

end Reckoner.Parse
