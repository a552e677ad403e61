import Reckoner.Proofs.Parse.Step

/-!
Whatever the automaton has read is spelled by its state: the side of the equation, the open levels,
what is pending and the operand at hand account, in this order, for every token so far, and each
complete piece among them has a derivation. A step keeps this, so a line that is finished without an
error has a derivation of all its tokens. -/

namespace Reckoner.Parse

variable {α : Type} {rule operand : Rule}

/-- `p` is the phrase of a derivation by `rule` of the tokens `ts`. -/
def Derives (rule : Rule) (p : Phrase α) (ts : List (Token α)) : Prop :=
  ∃ d : Derivation α rule, d.phrase = p ∧ d.yield = ts

/-- The tokens of links in a chain of `rule`, each an operand and the operator behind it. -/
inductive Linked (rule operand : Rule) : Phrase.Links α → List (Token α) → Prop where
  | nil : Linked rule operand [] []
  | cons {links : Phrase.Links α} {us ts : List (Token α)} {p : Phrase α} {op : Token α}
      (hl : Linked rule operand links us) (hp : Derives operand p ts)
      (hop : rule.joins op.kind = true) :
      Linked rule operand ((p, op) :: links) (us ++ (ts ++ [op]))

theorem Linked.derives {links : Phrase.Links α} {us ts : List (Token α)} {last : Phrase α}
    (h : rule.Chains operand) (hl : Linked rule operand links us) (hp : Derives operand last ts) :
    Derives rule (.chain rule links last) (us ++ ts) := by
  induction hl generalizing last ts with
  | nil =>
    obtain ⟨d, rfl, rfl⟩ := hp
    exact ⟨.first h d, rfl, rfl⟩
  | cons hl hq hop ih =>
    obtain ⟨left, hleft, hyield⟩ := ih hq
    obtain ⟨d, rfl, rfl⟩ := hp
    refine ⟨.link h left _ hop d, ?_, ?_⟩
    · rw [chain_cons hleft.symm]
      rfl
    · rw [Derivation.yield, hyield, List.append_assoc, List.append_assoc, List.append_assoc]
      rfl

/-- Signs, the latest first, in front of a signed atom make one again. -/
theorem derives_signs {signs ts : List (Token α)} {p : Phrase α}
    (hs : ∀ t ∈ signs, t.kind.isSign = true) (hp : Derives .signedAtom p ts) :
    Derives .signedAtom
      (signs.foldl (fun inner sign => .node .signedAtom [.ofToken sign, inner]) p)
      (signs.reverse ++ ts) := by
  induction signs generalizing p ts with
  | nil => exact hp
  | cons t signs ih =>
    obtain ⟨d, rfl, rfl⟩ := hp
    obtain ⟨ht, hs⟩ := List.forall_mem_cons.1 hs
    rw [List.foldl_cons, List.reverse_cons, List.append_assoc]
    exact ih hs ⟨.signed t ht d, rfl, rfl⟩

/-! ### What each part of a state spells -/

/-- The tokens of what is pending at one level. -/
def Pending.Spelled (p : Pending α) (ts : List (Token α)) : Prop :=
  ∃ a b c, ts = a ++ (b ++ c) ∧ Linked .expression .term p.terms a ∧
    Linked .term .factor p.factors b ∧ Linked .factor .signedAtom p.atoms c

/-- The tokens in front of the innermost level. -/
inductive LevelsSpelled : List (Level α) → List (Token α) → Prop where
  | nil : LevelsSpelled [] []
  | cons {level : Level α} {levels : List (Level α)} {us vs : List (Token α)}
      (hls : LevelsSpelled levels us) (hp : level.pending.Spelled vs)
      (hs : ∀ t ∈ level.signs, t.kind.isSign = true) (ho : level.opening.kind = .lparen) :
      LevelsSpelled (level :: levels)
        (us ++ (vs ++ (level.signs.reverse ++ [level.opening])))

/-- The tokens in front of the side that is read. -/
inductive Side.Spelled : Side α → List (Token α) → Prop where
  | target : Side.Spelled .target []
  | returned (span : Span) : Side.Spelled (.value [.ofToken ⟨.ret, span⟩]) [⟨.ret, span⟩]
  | assigned {p : Phrase α} {ts : List (Token α)} (hp : Derives .expression p ts) (span : Span) :
      Side.Spelled (.value [p, .ofToken ⟨.eq, span⟩]) (ts ++ [⟨.eq, span⟩])

/-- The tokens of the operand at hand, or of the signs in front of it. -/
inductive Place.Spelled : Place α → List (Token α) → Prop where
  | operand {signs : List (Token α)} (hs : ∀ t ∈ signs, t.kind.isSign = true) :
      Place.Spelled (.operand signs) signs.reverse
  | behind {p : Phrase α} {ts : List (Token α)} (hp : Derives .signedAtom p ts) :
      Place.Spelled (.behind p) ts

/-- The tokens that a state has read. -/
def State.Spelled (s : State α) (ts : List (Token α)) : Prop :=
  ∃ a b c d, ts = a ++ (b ++ (c ++ d)) ∧ s.side.Spelled a ∧ LevelsSpelled s.levels b ∧
    s.pending.Spelled c ∧ s.place.Spelled d

namespace Pending.Spelled

variable {p : Pending α} {us ts : List (Token α)} {last : Phrase α}

theorem empty : ({} : Pending α).Spelled [] := ⟨[], [], [], rfl, .nil, .nil, .nil⟩

theorem expression (hp : p.Spelled us) (hl : Derives .signedAtom last ts) :
    Derives .expression (p.expression last) (us ++ ts) := by
  obtain ⟨a, b, c, rfl, ha, hb, hc⟩ := hp
  have h := ha.derives .expression (hb.derives .term (hc.derives .factor hl))
  rwa [← List.append_assoc, ← List.append_assoc, List.append_assoc a b c] at h

theorem extend (hp : p.Spelled us) (hl : Derives .signedAtom last ts) {op : Token α}
    (hop : rule.joins op.kind = true) : (p.extend rule last op).Spelled (us ++ (ts ++ [op])) := by
  obtain ⟨a, b, c, rfl, ha, hb, hc⟩ := hp
  cases rule with
  | expression =>
    have h := hb.derives .term (hc.derives .factor hl)
    refine ⟨_, [], [], ?_, .cons ha h hop, .nil, .nil⟩
    simp only [List.append_assoc, List.append_nil]
  | term =>
    refine ⟨a, _, [], ?_, ha, .cons hb (hc.derives .factor hl) hop, .nil⟩
    simp only [List.append_assoc, List.append_nil]
  | factor =>
    refine ⟨a, b, _, ?_, ha, hb, .cons hc hl hop⟩
    simp only [List.append_assoc]
  | _ => cases hop

end Pending.Spelled

/-! ### Steps and runs -/

namespace State.Spelled

variable {s s' : State α} {ts : List (Token α)}

theorem start {side : Side α} (h : side.Spelled ts) : (State.start side).Spelled ts :=
  ⟨ts, [], [], [], by simp only [List.append_nil], h, .nil, .empty, .operand nofun⟩

/-- An atom behind the signs at hand becomes the operand at hand. -/
theorem afterAtom {signs us : List (Token α)} {parts : List (Phrase α)} (h : s.Spelled ts)
    (hp : s.place = .operand signs) (ha : Derives .atom (.node .atom parts) us) :
    (s.afterAtom signs parts).Spelled (ts ++ us) := by
  obtain ⟨a, b, c, d, rfl, hside, hlevels, hpending, hplace⟩ := h
  rw [hp] at hplace
  cases hplace with
  | operand hs =>
    obtain ⟨atom, hatom, rfl⟩ := ha
    refine ⟨a, b, c, _, ?_, hside, hlevels, hpending,
      .behind (derives_signs hs ⟨.unsigned atom, hatom ▸ rfl, rfl⟩)⟩
    simp only [List.append_assoc]
    rfl

theorem moves {t : Token α} (h : s.Spelled ts) (hm : s.Moves t s') : s'.Spelled (ts ++ [t]) := by
  cases hm with
  | number hp x span => exact h.afterAtom hp ⟨.number x span, rfl, rfl⟩
  | ident hp x span => exact h.afterAtom hp ⟨.ident x span, rfl, rfl⟩
  | sign hp ht =>
    obtain ⟨a, b, c, d, rfl, hside, hlevels, hpending, hplace⟩ := h
    rw [hp] at hplace
    cases hplace with
    | operand hs =>
      refine ⟨a, b, c, _, ?_, hside, hlevels, hpending,
        .operand (List.forall_mem_cons.2 ⟨ht, hs⟩)⟩
      simp only [List.append_assoc, List.reverse_cons]
  | opens hp span =>
    obtain ⟨a, b, c, d, rfl, hside, hlevels, hpending, hplace⟩ := h
    rw [hp] at hplace
    cases hplace with
    | operand hs =>
      refine ⟨a, _, [], [], ?_, hside, .cons hlevels hpending hs rfl, .empty, .operand nofun⟩
      simp only [List.append_assoc, List.append_nil]
  | links hp ht =>
    obtain ⟨a, b, c, d, rfl, hside, hlevels, hpending, hplace⟩ := h
    rw [hp] at hplace
    cases hplace with
    | behind hl =>
      refine ⟨a, b, _, [], ?_, hside, hlevels, hpending.extend hl ht, .operand nofun⟩
      simp only [List.append_assoc, List.append_nil]
  | @closes last hp level levels hs span =>
    obtain ⟨a, b, c, d, rfl, hside, hlevels, hpending, hplace⟩ := h
    rw [hp] at hplace
    rw [hs] at hlevels
    cases hplace with
    | behind hl =>
      cases hlevels with
      | @cons _ _ us vs hls hpend hsigns ho =>
        obtain ⟨pending, signs, ⟨kind, opening⟩⟩ := level
        obtain rfl : kind = .lparen := ho
        obtain ⟨inner, hinner, hyield⟩ := hpending.expression hl
        -- the state that the level was left in, where the parenthesised atom is now read
        have hleft : (⟨s.side, levels, pending, .operand signs⟩ : State α).Spelled
            (a ++ (us ++ (vs ++ signs.reverse))) :=
          ⟨a, us, vs, _, rfl, hside, hls, hpend, .operand hsigns⟩
        have hatom := hleft.afterAtom rfl ⟨.parens opening inner span, rfl, rfl⟩
        rw [Derivation.yield, hyield] at hatom
        rw [← hinner]
        simp only [List.append_assoc, List.cons_append, List.nil_append] at hatom ⊢
        exact hatom
  | equals hp hl hs span =>
    obtain ⟨a, b, c, d, rfl, hside, hlevels, hpending, hplace⟩ := h
    rw [hp] at hplace
    rw [hl] at hlevels
    rw [hs] at hside
    cases hplace with
    | behind hlast =>
      cases hlevels with
      | nil =>
        cases hside with
        | target =>
          exact start (.assigned (hpending.expression hlast) span)

/-- Every run spells the tokens that it has read. -/
theorem readLine (h : Parse.readLine ts = .ok s) : s.Spelled ts :=
  readLine_induction moves (start .target) (fun span => start (.returned span)) h

/-- A line that is finished without an error is an equation of all its tokens. -/
theorem finish {eof : Token α} {p : Phrase α} (h : s.Spelled ts) (hf : s.finish eof = .ok p) :
    Derives .equation p ts := by
  obtain ⟨side, levels, pending, place⟩ := s
  obtain ⟨a, b, c, d, rfl, hside, hlevels, hpending, hplace⟩ := h
  cases hplace with
  | operand => cases hf
  | behind hl =>
    cases hlevels with
    | cons => cases hf
    | nil =>
      obtain ⟨value, hvalue, hyield⟩ := hpending.expression hl
      cases hside with
      | target => cases hf
      | returned span =>
        obtain rfl := Except.ok.inj hf
        refine ⟨.returned span value, ?_, ?_⟩
        · rw [← hvalue]
          rfl
        · rw [Derivation.yield, hyield]
          rfl
      | assigned htarget span =>
        obtain rfl := Except.ok.inj hf
        obtain ⟨target, rfl, rfl⟩ := htarget
        refine ⟨.assigned target span value, ?_, ?_⟩
        · rw [← hvalue]
          rfl
        · rw [Derivation.yield, hyield, List.append_assoc]
          rfl

end State.Spelled

end Reckoner.Parse
