import Reckoner.Proofs.Parse.Step

/-!
The automaton follows every derivation: reading the tokens of a derivation ends in the state that
has just completed its phrase. For a chain this says what is pending at its end, and that nothing
outside the chain has changed; at the top it says that the line is finished without an error. -/

namespace Reckoner.Parse

variable {α : Type} {rule operand : Rule}

namespace Pending

/-- Nothing is pending for the rule or for one within it. -/
def Fresh (p : Pending α) : Rule → Prop
  | .expression => p.terms = [] ∧ p.factors = [] ∧ p.atoms = []
  | .term => p.factors = [] ∧ p.atoms = []
  | .factor => p.atoms = []
  | _ => True

/-- `q` differs from `p` only in what is pending for the rule and for those within it. -/
def Keeps (p q : Pending α) : Rule → Prop
  | .expression => True
  | .term => q.terms = p.terms
  | .factor => q.terms = p.terms ∧ q.factors = p.factors
  | _ => q = p

theorem fresh_empty : ({} : Pending α).Fresh .expression := ⟨rfl, rfl, rfl⟩

theorem Fresh.within {p : Pending α} (h : rule.Chains operand) (hp : p.Fresh rule) :
    p.Fresh operand := by
  cases h with
  | expression => exact hp.2
  | term => exact hp.2
  | factor => trivial

theorem fresh_extend (p : Pending α) (h : rule.Chains operand) (last : Phrase α) (op : Token α) :
    (p.extend rule last op).Fresh operand := by
  cases h with
  | expression => exact ⟨rfl, rfl⟩
  | term => rfl
  | factor => trivial

theorem Keeps.of_operand {p q : Pending α} (h : rule.Chains operand) (hq : p.Keeps q operand) :
    p.Keeps q rule := by
  cases h with
  | expression => trivial
  | term => exact hq.1
  | factor => obtain rfl := hq; exact ⟨rfl, rfl⟩

theorem Keeps.of_extend {p q r : Pending α} {last : Phrase α} {op : Token α}
    (h : rule.Chains operand) (hq : p.Keeps q rule)
    (hr : (q.extend rule last op).Keeps r operand) : p.Keeps r rule := by
  cases h with
  | expression => trivial
  | term => exact hr.1.trans hq
  | factor => obtain rfl := hr; exact hq

end Pending

/-! ### Chains -/

namespace Pending

theorem complete_first {p q : Pending α} (h : rule.Chains operand) (hp : p.Fresh rule)
    (hq : p.Keeps q operand) (last : Phrase α) :
    q.complete rule last = .node rule [q.complete operand last] := by
  cases h with
  | expression => simp only [complete, expression, show q.terms = [] from hq.trans hp.1]; rfl
  | term => simp only [complete, term, show q.factors = [] from hq.2.trans hp.1]; rfl
  | factor => simp only [complete, factor, show q.atoms = [] from hq ▸ hp]; rfl

theorem complete_extend {q r : Pending α} {last : Phrase α} {op : Token α} {ps : List (Phrase α)}
    (h : rule.Chains operand) (hq : q.complete rule last = .node rule ps)
    (hr : (q.extend rule last op).Keeps r operand) (next : Phrase α) :
    r.complete rule next = .node rule (ps ++ [.ofToken op, r.complete operand next]) := by
  cases h with
  | expression =>
    simp only [complete, expression, show r.terms = (q.term last, op) :: q.terms from hr]
    exact chain_cons hq op _
  | term =>
    simp only [complete, term, show r.factors = (q.factor last, op) :: q.factors from hr.2]
    exact chain_cons hq op _
  | factor =>
    simp only [complete, factor, show r.atoms = (last, op) :: q.atoms from hr ▸ rfl]
    exact chain_cons hq op _

end Pending

/-! ### Following a derivation -/

/-- Where nothing of the rule is pending, reading the derivation completes its phrase. -/
def FollowsChain (d : Derivation α rule) : Prop :=
  ∀ (side : Side α) (levels : List (Level α)) (p : Pending α), p.Fresh rule →
    ∃ (q : Pending α) (last : Phrase α),
      (⟨side, levels, p, .operand []⟩ : State α).read d.yield
          = .ok ⟨side, levels, q, .behind last⟩ ∧
        p.Keeps q rule ∧ q.complete rule last = d.phrase

/-- Behind signs, reading the derivation completes `whole`, whatever is pending. -/
def FollowsSigns (d : Derivation α rule) (whole : List (Token α) → Phrase α) : Prop :=
  ∀ (side : Side α) (levels : List (Level α)) (p : Pending α) (signs : List (Token α)),
    (⟨side, levels, p, .operand signs⟩ : State α).read d.yield
      = .ok ⟨side, levels, p, .behind (whole signs)⟩

/-- The phrase with signs in front of it, the latest sign first. -/
def behindSigns (inner : Phrase α) (signs : List (Token α)) : Phrase α :=
  signs.foldl (fun inner sign => .node .signedAtom [.ofToken sign, inner]) inner

/-- What reading a derivation does where its rule is expected. -/
def Follows : {rule : Rule} → Derivation α rule → Prop
  | .equation, _ => True
  | .atom, d => FollowsSigns d (Phrase.signed · d.phrase)
  | .signedAtom, d => FollowsSigns d (behindSigns d.phrase)
  | _, d => FollowsChain d

theorem Follows.within (h : rule.Chains operand) {d : Derivation α operand} (hd : Follows d) :
    FollowsChain d := by
  cases h with
  | expression => exact hd
  | term => exact hd
  | factor =>
    intro side levels p _
    exact ⟨p, d.phrase, hd side levels p [], rfl, rfl⟩

theorem FollowsChain.follows (h : rule.Chains operand) {d : Derivation α rule}
    (hd : FollowsChain d) : Follows d := by
  cases h <;> exact hd

theorem Follows.chain (h : rule.Chains operand) {d : Derivation α rule} (hd : Follows d) :
    FollowsChain d := by
  cases h <;> exact hd

theorem follows_first (h : rule.Chains operand) {d : Derivation α operand}
    (hd : FollowsChain d) : FollowsChain (.first h d) := by
  intro side levels p hp
  obtain ⟨q, last, hread, hkeeps, hlast⟩ := hd side levels p (hp.within h)
  refine ⟨q, last, hread, hkeeps.of_operand h, ?_⟩
  rw [Pending.complete_first h hp hkeeps, hlast]
  rfl

theorem follows_link (h : rule.Chains operand) {left : Derivation α rule} {op : Token α}
    (hop : rule.joins op.kind = true) {right : Derivation α operand}
    (hl : FollowsChain left) (hr : FollowsChain right) :
    FollowsChain (.link h left op hop right) := by
  intro side levels p hp
  obtain ⟨q, last, hread, hkeeps, hlast⟩ := hl side levels p hp
  obtain ⟨r, next, hread', hkeeps', hnext⟩ :=
    hr side levels (q.extend rule last op) (Pending.fresh_extend q h last op)
  refine ⟨r, next, ?_, .of_extend h hkeeps hkeeps', ?_⟩
  · rw [Derivation.yield, State.read_append_of_ok hread,
      State.read_cons_of_moves (.links rfl hop), hread']
  · rw [Pending.complete_extend h hlast hkeeps', hnext]
    rfl

theorem follows_parens {inner : Derivation α .expression} (hi : FollowsChain inner)
    (opening closing : Span) :
    FollowsSigns (.parens opening inner closing)
      (Phrase.signed · (Derivation.parens opening inner closing).phrase) := by
  intro side levels p signs
  obtain ⟨q, last, hread, -, hlast⟩ :=
    hi side (⟨p, signs, ⟨.lparen, opening⟩⟩ :: levels) {} Pending.fresh_empty
  have hlast : q.expression last = inner.phrase := hlast
  rw [Derivation.yield, State.read_cons_of_moves (.opens rfl opening),
    State.read_append_of_ok hread, State.read_cons_of_moves (.closes rfl rfl closing), hlast]
  rfl

/-- Reading the tokens of a derivation does what its rule promises. -/
theorem follows (d : Derivation α rule) : Follows d := by
  induction d with
  | returned => trivial
  | assigned => trivial
  | first h d ih => exact (follows_first h (ih.within h)).follows h
  | link h left op hop right ihl ihr =>
    exact (follows_link h hop (ihl.chain h) (ihr.within h)).follows h
  | signed sign hsign inner ih =>
    intro side levels p signs
    rw [Derivation.yield, State.read_cons_of_moves (.sign rfl hsign)]
    exact ih side levels p (sign :: signs)
  | unsigned atom ih =>
    intro side levels p signs
    exact ih side levels p signs
  | number text span =>
    intro side levels p signs
    exact State.read_cons_of_moves (.number rfl text span) []
  | ident name span =>
    intro side levels p signs
    exact State.read_cons_of_moves (.ident rfl name span) []
  | parens opening inner closing ih => exact follows_parens ih opening closing

/-! ### Lines -/

/-- The automaton accepts the tokens of every equation, and completes its phrase. -/
theorem readLine_yield (d : Derivation α .equation) :
    ∃ s, readLine d.yield = .ok s ∧ ∀ eof, s.finish eof = .ok d.phrase := by
  cases d with
  | returned keyword value =>
    obtain ⟨q, last, hread, -, hlast⟩ :=
      follows value (.value [.ofToken ⟨.ret, keyword⟩]) [] {} Pending.fresh_empty
    refine ⟨_, hread, fun eof => ?_⟩
    have hlast : q.expression last = value.phrase := hlast
    simp only [State.finish, hlast]
    rfl
  | assigned target sign value =>
    obtain ⟨q, last, hread, -, hlast⟩ := follows target .target [] {} Pending.fresh_empty
    obtain ⟨q', last', hread', -, hlast'⟩ :=
      follows value (.value [q.expression last, .ofToken ⟨.eq, sign⟩]) [] {} Pending.fresh_empty
    have hlast : q.expression last = target.phrase := hlast
    have hlast' : q'.expression last' = value.phrase := hlast'
    have hline : (State.start .target).read (Derivation.assigned target sign value).yield
        = .ok ⟨.value [q.expression last, .ofToken ⟨.eq, sign⟩], [], q', .behind last'⟩ := by
      rw [Derivation.yield, State.start, State.read_append_of_ok hread,
        State.read_cons_of_moves (.equals rfl rfl rfl sign)]
      exact hread'
    refine ⟨_, readLine_of_read hline, fun eof => ?_⟩
    simp only [State.finish, hlast, hlast']
    rfl
  | first h => cases h
  | link h => cases h

end Reckoner.Parse
