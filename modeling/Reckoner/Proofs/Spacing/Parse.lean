import Reckoner.Proofs.Parse.Errors
import Reckoner.Proofs.Sides
import Reckoner.Proofs.Spacing.Evaluation

/-!
Parsing wherever the tokens stand. A derivation asks for kinds of tokens only, so tokens of the same
kinds have a derivation that differs in nothing but spans; hence lists of tokens of the same kinds
are lines of the grammar together, and if they are none, the first token that no line goes on with
is at the same place in both. -/

namespace Reckoner

variable {α : Type}

/-! ### Phrases without places -/

namespace Phrase

mutual

/-- The phrase with its leaves in no place. -/
def bare : Phrase α → Phrase α
  | .leaf kind _ => .leaf kind .none
  | .node rule parts => .node rule (bareAll parts)

/-- Phrases with their leaves in no place. -/
def bareAll : List (Phrase α) → List (Phrase α)
  | [] => []
  | p :: ps => bare p :: bareAll ps

end

@[simp] theorem bareAll_append : ∀ ps qs : List (Phrase α),
    bareAll (ps ++ qs) = bareAll ps ++ bareAll qs
  | [], _ => rfl
  | p :: ps, qs => by rw [List.cons_append, bareAll, bareAll_append ps qs, bareAll]; rfl

theorem bare_ofToken {t u : Token α} (h : t.kind = u.kind) :
    (ofToken t).bare = (ofToken u).bare := by
  rw [ofToken, ofToken, bare, bare, h]

end Phrase

/-- Nodes in no place cover none. -/
theorem Arena.cover?_bare (a : Arena α) (ids : List Nat) :
    (Arena.cover? (Array.map Node.bare a) ids).getD .none = .none := by
  cases ids with
  | nil => rfl
  | cons first rest =>
    rw [cover?, Array.getElem?_map, Array.getElem?_map]
    cases a[first]? with
    | none => rfl
    | some x => cases a[rest.getLast?.getD first]? <;> rfl

namespace Phrase

mutual

theorem layOut_bare : ∀ (p : Phrase α) (a : Arena α),
    p.bare.layOut (Array.map Node.bare a) = Array.map Node.bare (p.layOut a)
  | .leaf kind span, a => by
    rw [bare, layOut, layOut, Arena.leaf, Arena.leaf, Array.map_push]
    rfl
  | .node rule parts, a => by
    rw [bare, layOut, layOut, layOutAll_bare parts a, Array.map_push]
    simp only [Arena.cover?_bare]
    rfl

theorem layOutAll_bare : ∀ (ps : List (Phrase α)) (a : Arena α),
    layOutAll (bareAll ps) (Array.map Node.bare a)
      = (Array.map Node.bare (layOutAll ps a).1, (layOutAll ps a).2)
  | [], a => rfl
  | p :: ps, a => by
    rw [bareAll, layOutAll, layOutAll, layOut_bare p a, layOutAll_bare ps, Array.size_map]

end

/-- The tree of a phrase in no place is its tree in no place. -/
theorem toTree_bare (p : Phrase α) : p.bare.toTree = p.toTree.bare := by
  have hnodes := layOut_bare p #[]
  rw [Array.map_empty] at hnodes
  rw [toTree, toTree, Tree.bare, hnodes, Array.size_map]

theorem bare_toTree_congr {p q : Phrase α} (h : p.bare = q.bare) :
    p.toTree.bare = q.toTree.bare := by
  rw [← toTree_bare, ← toTree_bare, h]

end Phrase

/-! ### Derivations -/

/-- Wherever tokens of these kinds stand, they have the same derivation. -/
theorem Derivation.exists_respaced {rule : Rule} (d : Derivation α rule) {ts : List (Token α)}
    (h : ts.map Token.kind = d.kinds) : ∃ d' : Derivation α rule, d'.yield = ts ∧
      Phrase.bareAll d'.parts = Phrase.bareAll d.parts := by
  induction d generalizing ts with
  | returned keyword value ih =>
    obtain ⟨⟨kind, place⟩, us, rfl, hkind, hus⟩ := List.map_eq_cons_iff.1 h
    obtain rfl : kind = .ret := hkind
    obtain ⟨value', rfl, hvalue⟩ := ih hus
    refine ⟨.returned place value', rfl, ?_⟩
    simp only [parts, Phrase.bareAll, Phrase.bare, hvalue]
    rfl
  | assigned target sign value iht ihv =>
    rw [kinds_assigned] at h
    obtain ⟨us, vs, rfl, hus, hvs⟩ := List.map_eq_append_iff.1 h
    obtain ⟨⟨kind, place⟩, ws, rfl, hkind, hws⟩ := List.map_eq_cons_iff.1 hvs
    obtain rfl : kind = .eq := hkind
    obtain ⟨target', rfl, htarget⟩ := iht hus
    obtain ⟨value', rfl, hvalue⟩ := ihv hws
    refine ⟨.assigned target' place value', rfl, ?_⟩
    simp only [parts, Phrase.bareAll, Phrase.bare, htarget, hvalue]
    rfl
  | first hc d ih =>
    obtain ⟨d', rfl, hd⟩ := ih h
    refine ⟨.first hc d', rfl, ?_⟩
    simp only [parts, Phrase.bareAll, Phrase.bare, hd]
  | link hc left op hop right ihl ihr =>
    rw [kinds_link] at h
    obtain ⟨us, vs, rfl, hus, hvs⟩ := List.map_eq_append_iff.1 h
    obtain ⟨t, ws, rfl, ht, hws⟩ := List.map_eq_cons_iff.1 hvs
    obtain ⟨left', rfl, hleft⟩ := ihl hus
    obtain ⟨right', rfl, hright⟩ := ihr hws
    refine ⟨.link hc left' t (ht ▸ hop) right', rfl, ?_⟩
    simp only [parts, Phrase.bareAll_append, Phrase.bareAll, Phrase.bare, hleft, hright,
      Phrase.bare_ofToken ht]
  | signed sign hsign inner ih =>
    obtain ⟨t, us, rfl, ht, hus⟩ := List.map_eq_cons_iff.1 h
    obtain ⟨inner', rfl, hinner⟩ := ih hus
    refine ⟨.signed t (ht ▸ hsign) inner', rfl, ?_⟩
    simp only [parts, Phrase.bareAll, Phrase.bare, hinner, Phrase.bare_ofToken ht]
  | unsigned atom ih =>
    obtain ⟨atom', rfl, hatom⟩ := ih h
    refine ⟨.unsigned atom', rfl, ?_⟩
    simp only [parts, Phrase.bareAll, Phrase.bare, hatom]
  | number text span =>
    obtain ⟨⟨kind, place⟩, us, rfl, hkind, hus⟩ := List.map_eq_cons_iff.1 h
    obtain rfl := List.map_eq_nil_iff.1 hus
    obtain rfl : kind = .number text := hkind
    exact ⟨.number text place, rfl, rfl⟩
  | ident name span =>
    obtain ⟨⟨kind, place⟩, us, rfl, hkind, hus⟩ := List.map_eq_cons_iff.1 h
    obtain rfl := List.map_eq_nil_iff.1 hus
    obtain rfl : kind = .ident name := hkind
    exact ⟨.ident name place, rfl, rfl⟩
  | parens opening inner closing ih =>
    rw [kinds_parens] at h
    obtain ⟨⟨kind, place⟩, us, rfl, hkind, hus⟩ := List.map_eq_cons_iff.1 h
    obtain ⟨vs, ws, rfl, hvs, hws⟩ := List.map_eq_append_iff.1 hus
    obtain ⟨⟨kind', place'⟩, xs, rfl, hkind', hxs⟩ := List.map_eq_cons_iff.1 hws
    obtain rfl := List.map_eq_nil_iff.1 hxs
    obtain rfl : kind = .lparen := hkind
    obtain rfl : kind' = .rparen := hkind'
    obtain ⟨inner', rfl, hinner⟩ := ih hvs
    refine ⟨.parens place inner' place', rfl, ?_⟩
    simp only [parts, Phrase.bareAll, Phrase.bare, hinner]
    rfl

/-- Tokens are a line if their kinds are those of one. -/
theorem IsLine.congr {ts us : List (Token α)} (h : ts.map Token.kind = us.map Token.kind)
    (hts : IsLine ts) : IsLine us := by
  obtain ⟨d, rfl⟩ := hts
  obtain ⟨d', hd', -⟩ := d.exists_respaced h.symm
  exact ⟨d', hd'⟩

/-! ### Places -/

/-- The two tokens stand at the same place of two lists. -/
def SamePlace (ts us : List (Token α)) (t u : Token α) : Prop :=
  ∃ i : Nat, ts[i]? = some t ∧ us[i]? = some u

namespace SamePlace

variable {ts us : List (Token α)} {t u : Token α}

theorem append (h : SamePlace ts us t u) (vs ws : List (Token α)) :
    SamePlace (ts ++ vs) (us ++ ws) t u := by
  obtain ⟨i, ht, hu⟩ := h
  obtain ⟨hit, -⟩ := List.getElem?_eq_some_iff.1 ht
  obtain ⟨hiu, -⟩ := List.getElem?_eq_some_iff.1 hu
  exact ⟨i, by rw [List.getElem?_append_left hit, ht], by rw [List.getElem?_append_left hiu, hu]⟩

/-- Tokens behind lists of one length. -/
theorem behind (h : ts.map Token.kind = us.map Token.kind) (t u : Token α)
    (vs ws : List (Token α)) : SamePlace (ts ++ t :: vs) (us ++ u :: ws) t u := by
  have hlength := congrArg List.length h
  rw [List.length_map, List.length_map] at hlength
  exact ⟨ts.length, by simp, by simp [hlength]⟩

end SamePlace

theorem endInOperand_congr {ts us : List (Token α)} (h : ts.map Token.kind = us.map Token.kind) :
    endInOperand ts = endInOperand us := by
  have hlast := congrArg List.getLast? h
  rw [List.getLast?_map, List.getLast?_map] at hlast
  have hany := congrArg (Option.any TokenKind.endsOperand) hlast
  rwa [Option.any_map, Option.any_map] at hany

/-- The open parentheses are at the same places in lists of the same kinds. -/
theorem unmatched_samePlace {ts us : List (Token α)}
    (h : ts.map Token.kind = us.map Token.kind) :
    List.Forall₂ (fun t u => SamePlace ts us t u ∧ t.kind = .lparen) (unmatched ts)
      (unmatched us) := by
  induction ts using List.reverseRecOn generalizing us with
  | nil =>
    obtain rfl := List.map_eq_nil_iff.1 h.symm
    exact .nil
  | append_singleton ts t ih =>
    rw [List.map_append] at h
    obtain ⟨us, vs, rfl, hus, hvs⟩ := List.map_eq_append_iff.1 h.symm
    obtain ⟨u, ws, rfl, hu, hws⟩ := List.map_eq_cons_iff.1 hvs
    obtain rfl := List.map_eq_nil_iff.1 hws
    have hopen : List.Forall₂ (fun t' u' => SamePlace (ts ++ [t]) (us ++ [u]) t' u' ∧
        t'.kind = .lparen) (unmatched ts) (unmatched us) :=
      (ih hus.symm).imp fun _ _ hplace => ⟨hplace.1.append [t] [u], hplace.2⟩
    rw [Parse.unmatched_append, Parse.unmatched_append, matchParen, matchParen, hu]
    split
    · rename_i hparen
      exact .cons ⟨.behind hus.symm t u [] [], hparen⟩ hopen
    · revert hopen
      generalize unmatched ts = opened, unmatched us = opened'
      rintro (_ | ⟨-, hrest⟩)
      · exact .nil
      · exact hrest
    · exact hopen

/-! ### Errors -/

/-- Errors that say the same of two lists of tokens: with one code and one message, at the same
place in both lists, and with a reference to the same parenthesis if they have one. -/
structure ParseError.Alike (ts us : List (Token α)) (e f : ParseError) : Prop where
  code : e.code = f.code
  message : e.message = f.message
  place : ∃ t u : Token α, SamePlace ts us t u ∧ e.span = t.span ∧ f.span = u.span
  related : e.related? = none ∧ f.related? = none ∨
    ∃ (t u : Token α) (remark : String), SamePlace ts us t u ∧ t.kind = .lparen ∧
      e.related? = some (t.span, remark) ∧ f.related? = some (u.span, remark)

namespace ParseError

variable {e f : ParseError}

/-- No two codes are written in the same way. -/
theorem code_eq_of_id (h : e.code.id = f.code.id) : e.code = f.code := by
  revert h
  generalize e.code = c, f.code = c'
  cases c <;> cases c' <;> decide

/-- A message is made of the code and the name of the token that was found. -/
theorem message_eq (hcode : e.code = f.code) (hfound : e.found? = f.found?) :
    e.message = f.message := by
  cases e <;> cases f <;>
    first | rfl | exact Code.noConfusion hcode | (obtain rfl := Option.some.inj hfound; rfl)

/-- Only an error of an open parenthesis refers to another place. -/
theorem related?_eq_none (h : e.code.id ≠ "E1003") : e.related? = none := by
  cases e <;> first | rfl | exact absurd rfl h

end ParseError

namespace Blames

variable {e f : ParseError} {before before' after after' : List (Token α)} {t t' : Token α}

/-- No line goes past the token that one of two errors blames, in tokens of the same kinds either.
-/
theorem length_le (he : Blames e before t) (hf : Blames f before' t')
    (hkinds : (before ++ t :: after).map Token.kind = (before' ++ t' :: after').map Token.kind) :
    before'.length ≤ before.length := by
  by_contra hlt
  obtain ⟨us, hline⟩ := hf.viable
  -- the tokens in front of the later error, where the earlier one is
  have hsame : ((before ++ t :: after).take before'.length).map Token.kind
      = before'.map Token.kind := by
    rw [List.map_take, hkinds, ← List.map_take, List.take_left]
  have hline' : IsLine ((before ++ t :: after).take before'.length ++ us) :=
    hline.congr (by rw [List.map_append, List.map_append, hsame])
  have hprefix : before ++ [t] <+: (before ++ t :: after).take before'.length := by
    refine List.prefix_take_iff.2 ⟨⟨after, by rw [List.append_assoc]; rfl⟩, ?_⟩
    rw [List.length_append, List.length_singleton]
    omega
  refine he.hopeless _ ⟨.eof, .none⟩ hline' rfl ?_
  rw [List.append_assoc]
  exact hprefix.trans (List.prefix_append _ _)

variable (he : Blames e before t) (hf : Blames f before' t')
  (hkinds : before.map Token.kind = before'.map Token.kind)
include he hf hkinds

theorem code_eq : e.code = f.code := by
  refine ParseError.code_eq_of_id ?_
  by_cases hline : IsLine before
  · rw [he.trailing.2 hline, hf.trailing.2 (hline.congr hkinds)]
  · have hline' : ¬ IsLine before' := fun h => hline (h.congr hkinds.symm)
    have hend := endInOperand_congr hkinds
    cases hoperand : endInOperand before with
    | false => rw [(he.operand hline hoperand).1, (hf.operand hline' (hend ▸ hoperand)).1]
    | true =>
      have hopen := (unmatched_samePlace hkinds).length_eq
      by_cases hnone : unmatched before = []
      · have hnone' : unmatched before' = [] := by
          rw [hnone] at hopen
          exact List.eq_nil_of_length_eq_zero hopen.symm
        rw [(he.unexpected hline hoperand).2 hnone,
          (hf.unexpected hline' (hend ▸ hoperand)).2 hnone']
      · have hnone' : unmatched before' ≠ [] := fun h => by
          rw [h] at hopen
          exact hnone (List.eq_nil_of_length_eq_zero hopen)
        rw [(he.unclosed hline hoperand).2 hnone, (hf.unclosed hline' (hend ▸ hoperand)).2 hnone']

theorem related_alike : e.related? = none ∧ f.related? = none ∨
    ∃ (u u' : Token α) (remark : String), SamePlace before before' u u' ∧ u.kind = .lparen ∧
      e.related? = some (u.span, remark) ∧ f.related? = some (u'.span, remark) := by
  have hcode := code_eq he hf hkinds
  by_cases hparen : e.code.id = "E1003"
  · have hline : ¬ IsLine before := fun h => by
      rw [he.trailing.2 h] at hparen
      exact absurd hparen (by decide)
    have hline' : ¬ IsLine before' := fun h => hline (h.congr hkinds.symm)
    have hoperand : endInOperand before = true := by
      by_contra h
      rw [(he.operand hline (Bool.eq_false_iff.2 h)).1] at hparen
      exact absurd hparen (by decide)
    have hrelated := he.related hline hoperand
    have hrelated' := hf.related hline' (endInOperand_congr hkinds ▸ hoperand)
    have hopen := unmatched_samePlace hkinds
    revert hrelated hrelated' hopen
    generalize unmatched before = opened, unmatched before' = opened'
    rintro hrelated hrelated' (_ | ⟨⟨hplace, hkind⟩, -⟩)
    · exact .inl ⟨hrelated, hrelated'⟩
    · exact .inr ⟨_, _, _, hplace, hkind, hrelated, hrelated'⟩
  · exact .inl ⟨ParseError.related?_eq_none hparen,
      ParseError.related?_eq_none (hcode ▸ hparen)⟩

end Blames

/-- Two errors that blame tokens of lists of the same kinds say the same. -/
theorem Blames.alike {e f : ParseError} {before before' after after' : List (Token α)}
    {t t' : Token α} (he : Blames e before t) (hf : Blames f before' t')
    (hkinds : (before ++ t :: after).map Token.kind = (before' ++ t' :: after').map Token.kind) :
    ParseError.Alike (before ++ t :: after) (before' ++ t' :: after') e f := by
  have hlength : before.length = before'.length :=
    Nat.le_antisymm (hf.length_le he hkinds.symm) (he.length_le hf hkinds)
  rw [List.map_append, List.map_append] at hkinds
  obtain ⟨hbefore, hrest⟩ := List.append_inj hkinds (by simpa using hlength)
  have hkind : t.kind = t'.kind := (List.cons.inj hrest).1
  have hcode := code_eq he hf hbefore
  exact
    { code := hcode
      message := ParseError.message_eq hcode (by rw [he.found, hf.found, hkind])
      place := ⟨t, t', .behind hbefore t t' after after', he.span, hf.span⟩
      related := (related_alike he hf hbefore).imp_right fun ⟨u, u', remark, hplace, hrelated⟩ =>
        ⟨u, u', remark, hplace.append _ _, hrelated⟩ }

/-- The first character that is part of no token is the error of a line. -/
theorem Phrase.ofLine_invalid {before after : List (Token α)} {t eof : Token α}
    (hbefore : ∀ u ∈ before, u.kind.isInvalid = false) (ht : t.kind.isInvalid = true) :
    ofLine (before ++ t :: after) eof = .error (.invalidCharacter t.span) := by
  have hnone : before.find? (·.kind.isInvalid) = none :=
    List.find?_eq_none.2 fun u hu => by rw [hbefore u hu]; decide
  rw [ofLine, invalid?, List.find?_append, hnone, List.find?_cons, ht]
  rfl

/-- What holds of all kinds in a list holds of those in every list with the same ones. -/
theorem Token.forall_kind_congr {ts us : List (Token α)}
    (h : ts.map Token.kind = us.map Token.kind) {P : TokenKind α → Prop}
    (hts : ∀ t ∈ ts, P t.kind) : ∀ u ∈ us, P u.kind := by
  rw [← List.forall_mem_map (f := Token.kind) (P := P)] at hts ⊢
  rwa [← h]

/-- Lists of tokens of the same kinds are lines of the same phrase, or refused alike. -/
theorem Phrase.ofLine_alike [Inhabited α] {body body' : List (Token α)} {eof eof' : Token α}
    (hkinds : body.map Token.kind = body'.map Token.kind)
    (hbody : ∀ t ∈ body, t.kind.isEof = false) (heof : eof.kind = .eof) (heof' : eof'.kind = .eof) :
    (∃ p p', ofLine body eof = .ok p ∧ ofLine body' eof' = .ok p' ∧ p.bare = p'.bare) ∨
      ∃ e e', ofLine body eof = .error e ∧ ofLine body' eof' = .error e' ∧
        ParseError.Alike (body ++ [eof]) (body' ++ [eof']) e e' := by
  have hbody' := Token.forall_kind_congr (P := (·.isEof = false)) hkinds hbody
  cases hinvalid : body.find? (·.kind.isInvalid) with
  | some t =>
    obtain ⟨ht, before, after, rfl, hbefore⟩ := List.find?_eq_some_iff_append.1 hinvalid
    rw [List.map_append, List.map_cons] at hkinds
    obtain ⟨before', us, rfl, hus, hvs⟩ := List.map_eq_append_iff.1 hkinds.symm
    obtain ⟨t', after', rfl, ht', -⟩ := List.map_eq_cons_iff.1 hvs
    have hvalid : ∀ u ∈ before, u.kind.isInvalid = false := fun u hu => by simpa using hbefore u hu
    refine .inr ⟨_, _, ofLine_invalid hvalid ht, ofLine_invalid ?_ (ht' ▸ ht), ?_⟩
    · exact Token.forall_kind_congr (P := (·.isInvalid = false)) hus.symm hvalid
    · exact
        { code := rfl
          message := rfl
          place := ⟨t, t', (SamePlace.behind hus.symm t t' after after').append _ _, rfl, rfl⟩
          related := .inl ⟨rfl, rfl⟩ }
  | none =>
    have hvalid : ∀ t ∈ body, t.kind.isInvalid = false := fun t ht => by
      simpa using List.find?_eq_none.1 hinvalid t ht
    have hvalid' := Token.forall_kind_congr (P := (·.isInvalid = false)) hkinds hvalid
    cases hline : ofLine body eof with
    | ok p =>
      obtain ⟨d, rfl, rfl⟩ := (ofLine_eq_ok_iff eof).1 hline
      obtain ⟨d', rfl, hparts⟩ := d.exists_respaced hkinds.symm
      refine .inl ⟨_, _, rfl, (ofLine_eq_ok_iff eof').2 ⟨d', rfl, rfl⟩, ?_⟩
      rw [Derivation.phrase, Derivation.phrase, bare, bare, hparts]
    | error e =>
      cases hline' : ofLine body' eof' with
      | ok p =>
        obtain ⟨d', rfl, rfl⟩ := (ofLine_eq_ok_iff eof').1 hline'
        obtain ⟨d, rfl, -⟩ := d'.exists_respaced hkinds
        cases hline.symm.trans ((ofLine_eq_ok_iff eof).2 ⟨d, rfl, rfl⟩)
      | error e' =>
        have hends : eof.kind.isEof = true := by rw [heof]; rfl
        have hends' : eof'.kind.isEof = true := by rw [heof']; rfl
        have hcomplete : (body ++ [eof]).map Token.kind = (body' ++ [eof']).map Token.kind := by
          simp only [List.map_append, hkinds, List.map_cons, heof, heof']
        obtain ⟨before, t, after, s, hsplit, hread, hkeyword, hstep, hend⟩ :=
          Parse.ofLine_error (fun u hu => ⟨hvalid u hu, hbody u hu⟩) hends hline
        obtain ⟨before', t', after', s', hsplit', hread', hkeyword', hstep', hend'⟩ :=
          Parse.ofLine_error (fun u hu => ⟨hvalid' u hu, hbody' u hu⟩) hends' hline'
        have he := blames_of_step_error hread hkeyword hstep hend
        have hf := blames_of_step_error hread' hkeyword' hstep' hend'
        rw [hsplit, hsplit'] at hcomplete ⊢
        exact .inr ⟨e, e', rfl, rfl, he.alike hf hcomplete⟩

end Reckoner
