import Reckoner.Program
import Reckoner.Proofs.Names.Growth
import Reckoner.Proofs.Parse.Derivations
import Reckoner.Proofs.Renaming.Evaluation
import Reckoner.Source

/-!
Lines without a table of names. The tree of a line with its own texts in place of names tells, with
the names that a table has for these texts, what the line is on that table; evaluating it in a scope
of texts tells what the line does, on that table and on every later one. -/

namespace Reckoner

variable {α β γ V E : Type}

theorem TokenKind.map_map (f : β → γ) (g : α → β) (k : TokenKind α) :
    (k.map g).map f = k.map (f ∘ g) := by
  cases k <;> rfl

theorem Token.map_map (f : β → γ) (g : α → β) (ts : List (Token α)) :
    (ts.map (Token.map g)).map (Token.map f) = ts.map (Token.map (f ∘ g)) := by
  rw [List.map_map]
  exact List.map_congr_left fun t _ => congrArg (Token.mk · t.span) (TokenKind.map_map f g t.kind)

theorem Outcome.exists_of_map_eq_assigned {f : α → β} {b : β} {v : V}
    {result : Except E (Outcome α V)} (h : result.map (Outcome.map f) = .ok (.assigned b v)) :
    ∃ a, f a = b := by
  match result, h with
  | .ok (.assigned a _), rfl => exact ⟨a, rfl⟩

/-- A property of all texts in some tokens can be made a part of their type. -/
theorem Token.exists_map_val {P : α → Prop} : ∀ {ts : List (Token α)},
    (∀ t ∈ ts, ∀ a ∈ t.kind.payload?, P a) →
      ∃ us : List (Token {a // P a}), ts = us.map (Token.map Subtype.val)
  | [], _ => ⟨[], rfl⟩
  | ⟨kind, span⟩ :: ts, h => by
    obtain ⟨us, rfl⟩ := exists_map_val fun t ht => h t (List.mem_cons_of_mem _ ht)
    have hkind : ∃ k : TokenKind {a // P a}, kind = k.map Subtype.val := by
      have hpayload := h _ List.mem_cons_self
      cases kind with
      | ident a => exact ⟨.ident ⟨a, hpayload a rfl⟩, rfl⟩
      | number a => exact ⟨.number ⟨a, hpayload a rfl⟩, rfl⟩
      | ret => exact ⟨.ret, rfl⟩
      | plus => exact ⟨.plus, rfl⟩
      | minus => exact ⟨.minus, rfl⟩
      | star => exact ⟨.star, rfl⟩
      | slash => exact ⟨.slash, rfl⟩
      | caret => exact ⟨.caret, rfl⟩
      | lparen => exact ⟨.lparen, rfl⟩
      | rparen => exact ⟨.rparen, rfl⟩
      | eq => exact ⟨.eq, rfl⟩
      | invalid => exact ⟨.invalid, rfl⟩
      | eof => exact ⟨.eof, rfl⟩
    obtain ⟨k, rfl⟩ := hkind
    exact ⟨⟨k, span⟩ :: us, rfl⟩

/-! ### The tree of a line -/

/-- The tree of a line with its texts in place of names. -/
def Tree.spelled (line : String) : Except ParseError (Tree String) :=
  (Phrase.ofLine (Token.scan line) (Token.endOf line)).map Phrase.toTree

/-- It is the tree of a derivation of the tokens of the line. -/
theorem Tree.exists_derivation_spelled {line : String} {tree : Tree String}
    (h : spelled line = .ok tree) :
    ∃ d : Derivation String .equation, d.phrase.toTree = tree ∧ d.yield = Token.scan line := by
  rw [spelled] at h
  cases hphrase : Phrase.ofLine (Token.scan line) (Token.endOf line) with
  | error e =>
    rw [hphrase] at h
    cases h
  | ok p =>
    rw [hphrase] at h
    obtain ⟨d, rfl, hyield⟩ := (Phrase.ofLine_eq_ok_iff _).1 hphrase
    exact ⟨d, Except.ok.inj h, hyield⟩

/-- The trees of lines with other texts. -/
theorem Tree.of_map (f : α → β) (ts : List (Token α)) (line : String) :
    (Phrase.ofLine (ts.map (Token.map f)) (Token.endOf line)).map Phrase.toTree
      = ((Phrase.ofLine ts (Token.endOf line)).map Phrase.toTree).map (Tree.map f) := by
  have hline := Phrase.ofLine_map f ts (Token.endOf line)
  rw [show (Token.endOf line : Token β) = (Token.endOf line).map f from rfl, hline]
  cases Phrase.ofLine ts (Token.endOf line) with
  | error e => rfl
  | ok p => exact congrArg Except.ok (Phrase.toTree_map f p)

variable {names later : NameTable} {line : String}

theorem Tree.grows_ofLine (names : NameTable) (line : String) :
    names.Grows (Tree.ofLine names line).2 :=
  NameTable.grows_internAll names _

/-- The texts of a line are in the table that its tree is made on. -/
theorem Token.exists_scan_eq (names : NameTable) (line : String) :
    ∃ us : List (Token {s // s ∈ (Tree.ofLine names line).2.texts}),
      Token.scan line = us.map (Token.map Subtype.val) :=
  Token.exists_map_val fun t ht _ hs =>
    NameTable.mem_internAll.2 (.inl (List.mem_filterMap.2 ⟨t, ht, hs⟩))

/-- A line parses on a table if it does without one, and its names there are those of its texts. -/
theorem Tree.ofLine_eq_spelled (names : NameTable) (line : String) :
    (Tree.ofLine names line).1
      = (Tree.spelled line).map (Tree.map (Tree.ofLine names line).2.nameOf) := by
  rw [spelled, ← Tree.of_map]
  rfl

/-- The names in the tree of a line are those that every later table has for its texts. -/
theorem Tree.ofLine_eq_spelled_of_grows (hlater : (Tree.ofLine names line).2.Grows later) :
    (Tree.ofLine names line).1 = (Tree.spelled line).map (Tree.map later.nameOf) := by
  obtain ⟨us, hus⟩ := Token.exists_scan_eq names line
  have htokens : (Token.scan line).map (Token.map (Tree.ofLine names line).2.nameOf)
      = (Token.scan line).map (Token.map later.nameOf) := by
    rw [hus, Token.map_map, Token.map_map]
    exact congrArg (fun f => us.map (Token.map f)) (funext fun s => (hlater.nameOf s.2).symm)
  rw [ofLine_eq_spelled, spelled, ← Tree.of_map, ← Tree.of_map, htokens]

/-- A line has an error on a table when it has this error without one. -/
theorem Tree.ofLine_eq_error_iff {e : ParseError} :
    (Tree.ofLine names line).1 = .error e ↔ Tree.spelled line = .error e := by
  rw [Tree.ofLine_eq_spelled]
  cases Tree.spelled line <;> simp [Except.map]

theorem Tree.exists_ofLine_eq_ok_iff :
    (∃ tree, (Tree.ofLine names line).1 = .ok tree) ↔ ∃ tree, Tree.spelled line = .ok tree := by
  rw [Tree.ofLine_eq_spelled]
  cases Tree.spelled line <;> simp [Except.map]

/-- The names in the tree of a line stand for the texts of the line, now and later. -/
theorem Tree.map_text_ofLine (hlater : (Tree.ofLine names line).2.Grows later) :
    (Tree.ofLine names line).1.map (Tree.map later.text) = Tree.spelled line := by
  obtain ⟨us, hus⟩ := Token.exists_scan_eq names line
  have htokens : ((Token.scan line).map (Token.map (Tree.ofLine names line).2.nameOf)).map
      (Token.map later.text) = Token.scan line := by
    rw [Token.map_map, hus, Token.map_map]
    exact congrArg (fun f => us.map (Token.map f)) (funext fun s => hlater.text_nameOf s.2)
  rw [spelled]
  conv => rhs; rw [← htokens]
  exact (Tree.of_map later.text _ line).symm

/-! ### What a line does -/

variable [Value V E] {tree : Tree Name} {value? : Name → Option V}

/-- A line that parses on a table parses without one, to the same tree with its texts. -/
theorem Tree.exists_spelled (hline : (Tree.ofLine names line).1 = .ok tree) :
    ∃ spelled, Tree.spelled line = .ok spelled ∧
      tree = spelled.map (Tree.ofLine names line).2.nameOf := by
  rw [Tree.ofLine_eq_spelled] at hline
  cases hspelled : Tree.spelled line with
  | error e =>
    rw [hspelled] at hline
    cases hline
  | ok spelled =>
    rw [hspelled] at hline
    exact ⟨spelled, rfl, (Except.ok.inj hline).symm⟩

/-- A line does on a table, which may have grown since, what it does where texts themselves have the
values of their names; a text that it assigns to is in the table. -/
theorem Tree.evaluate_eq_spelled {env : String → Option V} {spelled : Tree String}
    (hspelled : Tree.spelled line = .ok spelled)
    (hlater : (Tree.ofLine names line).2.Grows later)
    (henv : ∀ s ∈ (Tree.ofLine names line).2.texts,
      value? ((Tree.ofLine names line).2.nameOf s) = env s) :
    ((spelled.map (Tree.ofLine names line).2.nameOf).evaluate ⟨value?, later.text⟩).1
        = ((spelled.evaluate ⟨env, id⟩).1.map
            (Outcome.map (Tree.ofLine names line).2.nameOf) : Except (EvalError E) _) ∧
      ∀ s v, ((spelled.evaluate ⟨env, id⟩).1 : Except (EvalError E) _) = .ok (.assigned s v) →
        s ∈ (Tree.ofLine names line).2.texts := by
  obtain ⟨us, hus⟩ := Token.exists_scan_eq names line
  rw [Tree.spelled, hus, Tree.of_map] at hspelled
  generalize (Tree.ofLine names line).2 = table at *
  obtain ⟨t, rfl⟩ : ∃ t : Tree {s // s ∈ table.texts}, spelled = t.map Subtype.val := by
    match (Phrase.ofLine us (Token.endOf line)).map Phrase.toTree, hspelled with
    | .ok t, h => exact ⟨t, (Except.ok.inj h).symm⟩
  -- on the texts of the line, both scopes are the same
  have hscope : Scope.comap Subtype.val (Scope.comap table.nameOf ⟨value?, later.text⟩)
      = (Scope.comap Subtype.val ⟨env, id⟩ : Scope {s // s ∈ table.texts} V) := by
    simp only [Scope.comap, Scope.mk.injEq]
    exact ⟨funext fun s => henv s.1 s.2, funext fun s => hlater.text_nameOf s.2⟩
  refine ⟨?_, fun s v hassigned => ?_⟩
  · rw [Tree.evaluate_map, Tree.evaluate_map, hscope, ← Tree.evaluate_map]
  · rw [Tree.evaluate_map] at hassigned
    obtain ⟨a, rfl⟩ := Outcome.exists_of_map_eq_assigned hassigned
    exact a.2

end Reckoner
