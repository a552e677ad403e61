import Reckoner.NameTable
import Reckoner.Proofs.Parse.Complete
import Reckoner.Proofs.Parse.Sound
import Reckoner.Proofs.Tree.Reading
import Reckoner.Source

/-!
The parser and the grammar agree. A line is read as a phrase exactly when that phrase has a
derivation of all tokens of the line, so what the parser builds is the derivation; and since a
phrase keeps every rule that was used, a line has no second one. -/

namespace Reckoner

variable {α : Type}

namespace Phrase

theorem invalid?_eq_none_iff {ts : List (Token α)} :
    invalid? ts = none ↔ ∀ t ∈ ts, t.kind.isInvalid = false := by
  rw [invalid?, Option.map_eq_none_iff, List.find?_eq_none]
  simp only [Bool.not_eq_true]

/-- A line is read as exactly the phrases that derive its tokens. -/
theorem ofLine_eq_ok_iff {body : List (Token α)} (eof : Token α) {p : Phrase α} :
    ofLine body eof = .ok p ↔ ∃ d : Derivation α .equation, d.phrase = p ∧ d.yield = body := by
  constructor
  · intro h
    rw [ofLine] at h
    split at h
    · cases h
    · split at h
      · rename_i s hs
        exact (Parse.State.Spelled.readLine hs).finish h
      · cases h
  · rintro ⟨d, rfl, rfl⟩
    obtain ⟨s, hs, hfinish⟩ := Parse.readLine_yield d
    have hvalid := invalid?_eq_none_iff.2 fun t ht => (d.kind_of_mem_yield t ht).1
    rw [ofLine, hvalid, hs]
    exact hfinish eof

/-- A list that ends at its only end-of-line token is read as the line in front of it. -/
theorem ofTokens?_append_eof {body : List (Token α)} {eof : Token α}
    (hbody : ∀ t ∈ body, t.kind.isEof = false) (heof : eof.kind.isEof = true) :
    ofTokens? (body ++ [eof]) = some (ofLine body eof) := by
  have hinvalid : invalid? (body ++ [eof]) = invalid? body := by
    have hkind : eof.kind.isInvalid = false := by
      cases hk : eof.kind <;> rw [hk] at heof <;> first | rfl | cases heof
    rw [invalid?, invalid?, List.find?_append, List.find?_cons, hkind]
    simp
  have htake : (body ++ [eof]).takeWhile (!·.kind.isEof) = body := by
    rw [List.takeWhile_append_of_pos fun t ht => by rw [hbody t ht]; rfl]
    simp [heof]
  have hdrop : (body ++ [eof]).dropWhile (!·.kind.isEof) = [eof] := by
    rw [List.dropWhile_append_of_pos fun t ht => by rw [hbody t ht]; rfl]
    simp [heof]
  rw [ofLine]
  unfold ofTokens?
  rw [hinvalid]
  cases hi : invalid? body with
  | some e => rfl
  | none =>
    cases hb : body ++ [eof] with
    | nil => simp at hb
    | cons t ts =>
      rw [hb] at htake hdrop
      simp only [htake, hdrop]
      cases Parse.readLine body <;> rfl

/-- A list that ends at its only end-of-line token is read as exactly the phrases that derive the
tokens in front of it. -/
theorem ofTokens?_eq_ok_iff {body : List (Token α)} {eof : Token α} {p : Phrase α}
    (hbody : ∀ t ∈ body, t.kind.isEof = false) (heof : eof.kind.isEof = true) :
    ofTokens? (body ++ [eof]) = some (.ok p) ↔
      ∃ d : Derivation α .equation, d.phrase = p ∧ d.yield = body := by
  rw [ofTokens?_append_eof hbody heof, Option.some.injEq, ofLine_eq_ok_iff]

end Phrase

/-- The trees of a line of text are those of the derivations of its tokens. -/
theorem Tree.ofLine_eq_ok_iff {names names' : NameTable} {line : String} {tree : Tree Name} :
    Tree.ofLine names line = (.ok tree, names') ↔
      (∃ d : Derivation Name .equation, d.phrase.toTree = tree ∧
        d.yield = (Token.scanWith names line).1) ∧ (Token.scanWith names line).2 = names' := by
  have hline : Tree.ofLine names line
      = ((Phrase.ofLine (Token.scanWith names line).1 (Token.endOf line)).map Phrase.toTree,
        (Token.scanWith names line).2) := rfl
  rw [hline, Prod.mk.injEq]
  refine and_congr_left fun _ => ⟨?_, ?_⟩
  · intro h
    cases hp : Phrase.ofLine (Token.scanWith names line).1 (Token.endOf line) with
    | error e => rw [hp] at h; cases h
    | ok p =>
      rw [hp] at h
      obtain ⟨d, rfl, hyield⟩ := (Phrase.ofLine_eq_ok_iff _).1 hp
      exact ⟨d, Except.ok.inj h, hyield⟩
  · rintro ⟨d, rfl, hyield⟩
    rw [(Phrase.ofLine_eq_ok_iff _).2 ⟨d, rfl, hyield⟩]
    rfl

/-- The parser accepts exactly the lines of the grammar: what it builds for a line reads back as a
derivation with one leaf for each token, every derivation of the line is built, and the line has no
more than one. -/
theorem tree_iff_derivation {body : List (Token α)} {eof : Token α}
    (hbody : ∀ t ∈ body, t.kind.isInvalid = false ∧ t.kind.isEof = false)
    (heof : eof.kind.isEof = true) :
    (∀ p, Phrase.ofTokens? (body ++ [eof]) = some (.ok p) →
      ∃ d : Derivation α .equation, d.yield = body ∧ p.toTree.phrase? = some d.phrase ∧
        p.toTree.leaves = body.map Token.asLeaf) ∧
    (∀ d : Derivation α .equation, d.yield = body →
      ∃ p, Phrase.ofTokens? (body ++ [eof]) = some (.ok p) ∧
        p.toTree.phrase? = some d.phrase) ∧
    ∀ d e : Derivation α .equation, d.yield = body → e.yield = body → d = e := by
  rw [Phrase.ofTokens?_append_eof (fun t ht => (hbody t ht).2) heof]
  refine ⟨?_, ?_, ?_⟩
  · -- what is accepted has a derivation
    intro p hp
    obtain ⟨d, rfl, rfl⟩ := (Phrase.ofLine_eq_ok_iff eof).1 (Option.some.inj hp)
    exact ⟨d, rfl, d.reads_toTree.1, d.reads_toTree.2⟩
  · -- what has a derivation is accepted
    rintro d rfl
    have hline := (Phrase.ofLine_eq_ok_iff eof).2 ⟨d, rfl, rfl⟩
    exact ⟨d.phrase, congrArg some hline, d.reads_toTree.1⟩
  · -- the parser is a function of the line, so two derivations spell one phrase
    intro d e hd he
    have hpd := (Phrase.ofLine_eq_ok_iff eof).2 ⟨d, rfl, hd⟩
    have hpe := (Phrase.ofLine_eq_ok_iff eof).2 ⟨e, rfl, he⟩
    exact Derivation.phrase_injective (Except.ok.inj (hpd.symm.trans hpe))

theorem tree_iff_derivation_return_sum :
    ∃ d : Derivation Name .equation,
      d.yield = [⟨.ret, ⟨0, 6⟩⟩, ⟨.number ⟨2⟩, ⟨7, 8⟩⟩, ⟨.plus, ⟨9, 10⟩⟩, ⟨.ident ⟨3⟩, ⟨11, 12⟩⟩] ∧
        ∃ p : Phrase Name, p.toTree.nodes.size = 14 ∧ p.toTree.phrase? = some d.phrase := by
  have h := @tree_iff_derivation Name
    [⟨.ret, ⟨0, 6⟩⟩, ⟨.number ⟨2⟩, ⟨7, 8⟩⟩, ⟨.plus, ⟨9, 10⟩⟩, ⟨.ident ⟨3⟩, ⟨11, 12⟩⟩]
    ⟨.eof, ⟨12, 12⟩⟩ (by decide) rfl
  obtain ⟨d, hyield, hphrase, -⟩ := h.1 _ rfl
  exact ⟨d, hyield, _, rfl, hphrase⟩

end Reckoner
