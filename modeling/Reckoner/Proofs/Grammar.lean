import Reckoner.Phrase

/-!
The grammar as a type. A derivation says which rule was used at each place and keeps the tokens of
the line, so a derivation that breaks a rule cannot be written down:

    equation   : 'return' expression | expression '=' expression
    expression : term (('+' | '-') term)*
    term       : factor (('*' | '/') factor)*
    factor     : signedAtom ('^' signedAtom)*
    signedAtom : ('+' | '-') signedAtom | atom
    atom       : number | identifier | '(' expression ')'

The three rules for chains share two constructors: a chain is its first operand, or a shorter chain
of the same rule with an operator and one more operand behind it. The tokens that a derivation is
made of, from left to right, are its yield; the phrase that it spells keeps every one of them. -/

namespace Reckoner

/-- `rule.Chains operand` when `rule` joins phrases of the rule `operand` into chains. -/
inductive Rule.Chains : Rule → Rule → Prop where
  | expression : Chains .expression .term
  | term : Chains .term .factor
  | factor : Chains .factor .signedAtom

/-- Whether the token stands between the operands of the rule. -/
def Rule.joins {α : Type} : Rule → TokenKind α → Bool
  | .expression, .plus | .expression, .minus => true
  | .term, .star | .term, .slash => true
  | .factor, .caret => true
  | _, _ => false

/-- Whether the token can stand in front of an atom as its sign. -/
def TokenKind.isSign {α : Type} : TokenKind α → Bool
  | .plus | .minus => true
  | _ => false

theorem Rule.kind_of_joins {α : Type} {rule : Rule} {k : TokenKind α} (h : rule.joins k = true) :
    k.isInvalid = false ∧ k.isEof = false := by
  cases rule <;> cases k <;> first | exact ⟨rfl, rfl⟩ | cases h

/-- What joins operands and spells no operator is the sign of powers. -/
theorem Rule.power_of_joins {α : Type} {rule : Rule} {k : TokenKind α} (h : rule.joins k = true)
    (hk : k.operator? = none) : rule = .factor ∧ k = .caret := by
  cases rule <;> cases k <;> first | exact ⟨rfl, rfl⟩ | (cases h; done) | cases hk

theorem TokenKind.kind_of_isSign {α : Type} {k : TokenKind α} (h : k.isSign = true) :
    k.isInvalid = false ∧ k.isEof = false := by
  cases k <;> first | exact ⟨rfl, rfl⟩ | cases h

theorem Rule.Chains.operand_ne {rule operand : Rule} (h : rule.Chains operand) :
    operand ≠ .equation := by
  cases h <;> exact nofun

/-- A derivation by the grammar, indexed by the rule at its top. -/
inductive Derivation (α : Type) : Rule → Type where
  | returned (keyword : Span) (value : Derivation α .expression) : Derivation α .equation
  | assigned (target : Derivation α .expression) (sign : Span)
      (value : Derivation α .expression) : Derivation α .equation
  | first {rule operand : Rule} (h : rule.Chains operand) (d : Derivation α operand) :
      Derivation α rule
  | link {rule operand : Rule} (h : rule.Chains operand) (left : Derivation α rule)
      (op : Token α) (hop : rule.joins op.kind = true) (right : Derivation α operand) :
      Derivation α rule
  | signed (sign : Token α) (hsign : sign.kind.isSign = true)
      (inner : Derivation α .signedAtom) : Derivation α .signedAtom
  | unsigned (atom : Derivation α .atom) : Derivation α .signedAtom
  | number (text : α) (span : Span) : Derivation α .atom
  | ident (name : α) (span : Span) : Derivation α .atom
  | parens (opening : Span) (inner : Derivation α .expression) (closing : Span) :
      Derivation α .atom

namespace Derivation

variable {α : Type} {rule operand : Rule}

/-- The tokens of a derivation from left to right. -/
def yield : {rule : Rule} → Derivation α rule → List (Token α)
  | _, .returned keyword value => ⟨.ret, keyword⟩ :: value.yield
  | _, .assigned target sign value => target.yield ++ ⟨.eq, sign⟩ :: value.yield
  | _, .first _ d => d.yield
  | _, .link _ left op _ right => left.yield ++ op :: right.yield
  | _, .signed sign _ inner => sign :: inner.yield
  | _, .unsigned atom => atom.yield
  | _, .number text span => [⟨.number text, span⟩]
  | _, .ident name span => [⟨.ident name, span⟩]
  | _, .parens opening inner closing => ⟨.lparen, opening⟩ :: (inner.yield ++ [⟨.rparen, closing⟩])

/-- The parts that the rule at the top puts together. -/
def parts : {rule : Rule} → Derivation α rule → List (Phrase α)
  | _, .returned keyword value => [.ofToken ⟨.ret, keyword⟩, .node .expression value.parts]
  | _, .assigned target sign value =>
    [.node .expression target.parts, .ofToken ⟨.eq, sign⟩, .node .expression value.parts]
  | _, @first _ _ operand _ d => [.node operand d.parts]
  | _, @link _ _ operand _ left op _ right =>
    left.parts ++ [.ofToken op, .node operand right.parts]
  | _, .signed sign _ inner => [.ofToken sign, .node .signedAtom inner.parts]
  | _, .unsigned atom => [.node .atom atom.parts]
  | _, .number text span => [.leaf (.scientific text) span]
  | _, .ident name span => [.leaf (.variable name) span]
  | _, .parens opening inner closing =>
    [.ofToken ⟨.lparen, opening⟩, .node .expression inner.parts, .ofToken ⟨.rparen, closing⟩]

/-- The phrase that a derivation spells. -/
def phrase (d : Derivation α rule) : Phrase α := .node rule d.parts

/-- Tokens of a derivation are neither invalid characters nor the end of a line. -/
theorem kind_of_mem_yield (d : Derivation α rule) :
    ∀ t ∈ d.yield, t.kind.isInvalid = false ∧ t.kind.isEof = false := by
  induction d with
  | returned keyword value ih =>
    intro t ht
    rcases List.mem_cons.1 ht with rfl | ht
    · exact ⟨rfl, rfl⟩
    · exact ih t ht
  | assigned target eq value iht ihv =>
    intro t ht
    rcases List.mem_append.1 ht with ht | ht
    · exact iht t ht
    · rcases List.mem_cons.1 ht with rfl | ht
      · exact ⟨rfl, rfl⟩
      · exact ihv t ht
  | first h d ih => exact ih
  | link h left op hop right ihl ihr =>
    intro t ht
    rcases List.mem_append.1 ht with ht | ht
    · exact ihl t ht
    · rcases List.mem_cons.1 ht with rfl | ht
      · exact Rule.kind_of_joins hop
      · exact ihr t ht
  | signed s hs inner ih =>
    intro t ht
    rcases List.mem_cons.1 ht with rfl | ht
    · exact TokenKind.kind_of_isSign hs
    · exact ih t ht
  | unsigned atom ih => exact ih
  | number text span => simp [yield, TokenKind.isInvalid, TokenKind.isEof]
  | ident name span => simp [yield, TokenKind.isInvalid, TokenKind.isEof]
  | parens opening inner closing ih =>
    intro t ht
    rcases List.mem_cons.1 ht with rfl | ht
    · exact ⟨rfl, rfl⟩
    · rcases List.mem_append.1 ht with ht | ht
      · exact ih t ht
      · obtain rfl := List.mem_singleton.1 ht
        exact ⟨rfl, rfl⟩

/-- Every derivation has a first token. -/
theorem yield_ne_nil (d : Derivation α rule) : d.yield ≠ [] := by
  induction d <;> simp_all [yield]

theorem parts_ne_nil (d : Derivation α rule) : d.parts ≠ [] := by
  cases d <;> simp [parts]

theorem operand_unique {rule a b : Rule} (h : rule.Chains a) (h' : rule.Chains b) : a = b := by
  cases h <;> cases h' <;> rfl

theorem ofToken_injective {t u : Token α} (h : Phrase.ofToken t = Phrase.ofToken u) : t = u := by
  obtain ⟨kind, span⟩ := t
  obtain ⟨kind', span'⟩ := u
  obtain ⟨hkind, rfl⟩ := Phrase.leaf.inj h
  obtain rfl := NodeKind.token.inj hkind
  rfl

/-- A chain of a single operand is none with an operator in it. -/
theorem parts_link_ne {rule operand : Rule} (h : rule.Chains operand) (left : Derivation α rule)
    (op : Token α) (hop : rule.joins op.kind = true) (right : Derivation α operand)
    (p : Phrase α) : (Derivation.link h left op hop right).parts ≠ [p] := by
  intro hp
  have hlength := congrArg List.length hp
  have hpos := List.length_pos_iff.2 left.parts_ne_nil
  rw [parts, List.length_append] at hlength
  simp only [List.length_cons, List.length_nil] at hlength
  omega

/-- The parts of a derivation tell which rules were used in it. -/
theorem parts_injective {rule : Rule} (d : Derivation α rule) :
    ∀ e : Derivation α rule, d.parts = e.parts → d = e := by
  induction d with
  | returned keyword value ih =>
    intro e he
    cases e with
    | returned keyword' value' =>
      injection he with hkeyword he
      injection he with hvalue
      obtain rfl := ih value' (Phrase.node.inj hvalue).2
      obtain rfl := (Phrase.leaf.inj hkeyword).2
      rfl
    | assigned => cases he
    | first h => cases h
    | link h => cases h
  | assigned target sign value iht ihv =>
    intro e he
    cases e with
    | returned => cases he
    | assigned target' sign' value' =>
      injection he with htarget he
      injection he with hsign he
      injection he with hvalue
      obtain rfl := iht target' (Phrase.node.inj htarget).2
      obtain rfl := (Phrase.leaf.inj hsign).2
      obtain rfl := ihv value' (Phrase.node.inj hvalue).2
      rfl
    | first h => cases h
    | link h => cases h
  | first h d ih =>
    intro e he
    cases e with
    | first h' d' =>
      injection he with hd
      obtain rfl := operand_unique h h'
      obtain rfl := ih d' (Phrase.node.inj hd).2
      rfl
    | link h' left op hop right => exact absurd he.symm (parts_link_ne h' left op hop right _)
    | _ => cases h
  | link h left op hop right ihl ihr =>
    intro e he
    cases e with
    | first h' d' => exact absurd he (parts_link_ne h left op hop right _)
    | link h' left' op' hop' right' =>
      obtain ⟨hleft, he⟩ := List.append_inj' he rfl
      injection he with hop he
      injection he with hright
      obtain rfl := operand_unique h h'
      obtain rfl := ihl left' hleft
      obtain rfl := ofToken_injective hop
      obtain rfl := ihr right' (Phrase.node.inj hright).2
      rfl
    | _ => cases h
  | signed sign hsign inner ih =>
    intro e he
    cases e with
    | signed sign' hsign' inner' =>
      injection he with hs he
      injection he with hinner
      obtain rfl := ofToken_injective hs
      obtain rfl := ih inner' (Phrase.node.inj hinner).2
      rfl
    | unsigned => cases he
    | first h => cases h
    | link h => cases h
  | unsigned atom ih =>
    intro e he
    cases e with
    | signed => cases he
    | unsigned atom' =>
      injection he with hatom
      obtain rfl := ih atom' (Phrase.node.inj hatom).2
      rfl
    | first h => cases h
    | link h => cases h
  | number text span =>
    intro e he
    cases e with
    | number => cases he; rfl
    | ident => cases he
    | parens => cases he
    | first h => cases h
    | link h => cases h
  | ident name span =>
    intro e he
    cases e with
    | number => cases he
    | ident => cases he; rfl
    | parens => cases he
    | first h => cases h
    | link h => cases h
  | parens opening inner closing ih =>
    intro e he
    cases e with
    | number => cases he
    | ident => cases he
    | parens opening' inner' closing' =>
      injection he with hopening he
      injection he with hinner he
      injection he with hclosing
      obtain rfl := (Phrase.leaf.inj hopening).2
      obtain rfl := ih inner' (Phrase.node.inj hinner).2
      obtain rfl := (Phrase.leaf.inj hclosing).2
      rfl
    | first h => cases h
    | link h => cases h

theorem phrase_injective {rule : Rule} {d e : Derivation α rule} (h : d.phrase = e.phrase) :
    d = e :=
  parts_injective d e (Phrase.node.inj h).2

end Derivation

end Reckoner
