import Reckoner.Parse
import Reckoner.Tree

/-!
Parsing does not look into texts. A line whose identifiers and numbers carry other texts is read
step by step in the same way, so it has the same error, or the same tree with these other texts. -/

namespace Reckoner

variable {α β : Type} (f : α → β)

namespace TokenKind

@[simp] theorem describe_map (k : TokenKind α) : (k.map f).describe = k.describe := by
  cases k <;> rfl

@[simp] theorem isInvalid_map (k : TokenKind α) : (k.map f).isInvalid = k.isInvalid := by
  cases k <;> rfl

@[simp] theorem isEof_map (k : TokenKind α) : (k.map f).isEof = k.isEof := by
  cases k <;> rfl

@[simp] theorem operator?_map (k : TokenKind α) : (k.map f).operator? = k.operator? := by
  cases k <;> rfl

@[simp] theorem payload?_map (k : TokenKind α) : (k.map f).payload? = k.payload?.map f := by
  cases k <;> rfl

end TokenKind

namespace Phrase

mutual

/-- The phrase with other texts. -/
def map (f : α → β) : Phrase α → Phrase β
  | .leaf kind span => .leaf (kind.map f) span
  | .node rule parts => .node rule (mapAll f parts)

/-- Phrases with other texts. -/
def mapAll (f : α → β) : List (Phrase α) → List (Phrase β)
  | [] => []
  | p :: ps => map f p :: mapAll f ps

end

theorem mapAll_eq : ∀ ps : List (Phrase α), mapAll f ps = ps.map (map f)
  | [] => rfl
  | p :: ps => by rw [mapAll, mapAll_eq ps, List.map_cons]

@[simp] theorem map_node (rule : Rule) (parts : List (Phrase α)) :
    (node rule parts).map f = node rule (parts.map (map f)) := by rw [map, mapAll_eq]

@[simp] theorem map_ofToken (t : Token α) : (ofToken t).map f = ofToken (t.map f) := rfl

/-- Linked operands with other texts. -/
def Links.map (links : Links α) : Links β := List.map (Prod.map (Phrase.map f) (Token.map f)) links

@[simp] theorem map_chain (rule : Rule) (links : Links α) (last : Phrase α) :
    (chain rule links last).map f = chain rule (links.map f) (last.map f) := by
  have hparts : ∀ ps : List (Phrase α),
      (links.foldl (fun parts link => link.1 :: ofToken link.2 :: parts) ps).map (map f)
        = (Links.map f links).foldl (fun parts link => link.1 :: ofToken link.2 :: parts)
            (ps.map (map f)) := by
    induction links with
    | nil => exact fun ps => rfl
    | cons link links ih => exact fun ps => ih _
  rw [chain, map_node, hparts]
  rfl

@[simp] theorem map_signed (signs : List (Token α)) (atom : Phrase α) :
    (signed signs atom).map f = signed (signs.map (Token.map f)) (atom.map f) := by
  have hinner : ∀ p : Phrase α,
      (signs.foldl (fun inner sign => node .signedAtom [ofToken sign, inner]) p).map f
        = (signs.map (Token.map f)).foldl (fun inner sign => node .signedAtom [ofToken sign, inner])
            (p.map f) := by
    induction signs with
    | nil => exact fun p => rfl
    | cons sign signs ih => exact fun p => ih _
  exact hinner _

end Phrase

/-! ### The parser -/

namespace Parse

def Pending.map (p : Pending α) : Pending β := ⟨p.terms.map f, p.factors.map f, p.atoms.map f⟩

def Level.map (l : Level α) : Level β :=
  ⟨l.pending.map f, l.signs.map (Token.map f), l.opening.map f⟩

def Place.map : Place α → Place β
  | .operand signs => .operand (signs.map (Token.map f))
  | .behind last => .behind (last.map f)

def Side.map : Side α → Side β
  | .target => .target
  | .value before => .value (before.map (Phrase.map f))

/-- The state that is reached over tokens with other texts. -/
def State.map (s : State α) : State β :=
  ⟨s.side.map f, s.levels.map (Level.map f), s.pending.map f, s.place.map f⟩

namespace Pending

variable (p : Pending α) (last : Phrase α)

@[simp] theorem factor_map : (p.map f).factor (last.map f) = (p.factor last).map f :=
  (Phrase.map_chain f .factor p.atoms last).symm

@[simp] theorem term_map : (p.map f).term (last.map f) = (p.term last).map f := by
  rw [term, factor_map, term, Phrase.map_chain]
  rfl

@[simp] theorem expression_map :
    (p.map f).expression (last.map f) = (p.expression last).map f := by
  rw [expression, term_map, expression, Phrase.map_chain]
  rfl

theorem link?_map (op : Token α) :
    (p.map f).link? (last.map f) (op.map f) = (p.link? last op).map (map f) := by
  obtain ⟨kind, span⟩ := op
  cases kind with
  | star | slash =>
    simp only [link?, Token.map, TokenKind.map, factor_map]
    rfl
  | plus | minus =>
    simp only [link?, Token.map, TokenKind.map, term_map]
    rfl
  | _ => rfl

end Pending

namespace State

variable (s : State α)

theorem afterAtom_map (signs : List (Token α)) (parts : List (Phrase α)) :
    (s.map f).afterAtom (signs.map (Token.map f)) (parts.map (Phrase.map f))
      = (s.afterAtom signs parts).map f := by
  simp only [afterAtom, map, Place.map, Phrase.map_signed, Phrase.map_node]

theorem readOperand_map (signs : List (Token α)) (t : Token α) :
    (s.map f).readOperand (signs.map (Token.map f)) (t.map f)
      = (s.readOperand signs t).map (map f) := by
  obtain ⟨kind, span⟩ := t
  cases kind with
  | number text => exact congrArg Except.ok (afterAtom_map f s signs [.leaf (.scientific text) span])
  | ident name => exact congrArg Except.ok (afterAtom_map f s signs [.leaf (.variable name) span])
  | _ => rfl

theorem refusal_map (t : Token α) : (s.map f).refusal (t.map f) = s.refusal t := by
  obtain ⟨side, levels, pending, place⟩ := s
  cases levels with
  | nil => cases side <;> simp [refusal, map, Side.map, Token.map]
  | cons level levels => simp [refusal, map, Level.map, Token.map]

theorem readBehind_map (last : Phrase α) (t : Token α) :
    (s.map f).readBehind (last.map f) (t.map f) = (s.readBehind last t).map (map f) := by
  have hlink := Pending.link?_map f s.pending last t
  have hrefusal := refusal_map f s t
  cases hpending : s.pending.link? last t with
  | some pending =>
    rw [hpending] at hlink
    rw [readBehind, readBehind, hpending]
    simp only [map, hlink, Option.map_some]
    rfl
  | none =>
    rw [hpending] at hlink
    rw [readBehind, readBehind, hpending]
    simp only [show (s.map f).pending = s.pending.map f from rfl, hlink, Option.map_none]
    obtain ⟨side, levels, pending, place⟩ := s
    obtain ⟨kind, span⟩ := t
    cases kind with
    | rparen =>
      cases levels with
      | nil => exact congrArg Except.error hrefusal
      | cons level levels =>
        refine congrArg Except.ok ?_
        rw [← afterAtom_map]
        simp only [map, List.map_cons, List.map_nil, Phrase.map_ofToken, Pending.expression_map]
        rfl
    | eq =>
      cases levels with
      | nil =>
        cases side with
        | target =>
          refine congrArg Except.ok ?_
          simp only [map, start, Side.map, Place.map, List.map_cons, List.map_nil,
            Phrase.map_ofToken, Pending.expression_map]
          rfl
        | value before => exact congrArg Except.error hrefusal
      | cons level levels => exact congrArg Except.error hrefusal
    | _ => exact congrArg Except.error hrefusal

theorem step_map (t : Token α) : (s.map f).step (t.map f) = (s.step t).map (map f) := by
  cases hplace : s.place with
  | operand signs =>
    have hplace' : (s.map f).place = .operand (signs.map (Token.map f)) := by
      rw [map, hplace]
      rfl
    rw [step, step, hplace, hplace']
    exact readOperand_map f s signs t
  | behind last =>
    have hplace' : (s.map f).place = .behind (last.map f) := by
      rw [map, hplace]
      rfl
    rw [step, step, hplace, hplace']
    exact readBehind_map f s last t

theorem read_map (ts : List (Token α)) :
    (s.map f).read (ts.map (Token.map f)) = (s.read ts).map (map f) := by
  induction ts generalizing s with
  | nil => rfl
  | cons t ts ih =>
    rw [List.map_cons, read, read, step_map]
    cases s.step t with
    | ok s' => exact ih s'
    | error e => rfl

theorem finish_map (eof : Token α) :
    (s.map f).finish (eof.map f) = (s.finish eof).map (Phrase.map f) := by
  have hrefusal := refusal_map f s eof
  obtain ⟨side, levels, pending, place⟩ := s
  cases place with
  | operand signs => simp [finish, map, Place.map, Token.map, Except.map]
  | behind last =>
    cases levels with
    | nil =>
      cases side with
      | target => exact congrArg Except.error hrefusal
      | value before =>
        refine congrArg Except.ok ?_
        simp only [map, Phrase.map_node, List.map_append, List.map_cons, List.map_nil,
          Pending.expression_map]
    | cons level levels => exact congrArg Except.error hrefusal

end State

theorem readLine_map (ts : List (Token α)) :
    readLine (ts.map (Token.map f)) = (readLine ts).map (State.map f) := by
  have hopening : opening (ts.map (Token.map f))
      = ((opening ts).1.map f, (opening ts).2.map (Token.map f)) := by
    cases ts with
    | nil => rfl
    | cons t ts =>
      obtain ⟨kind, span⟩ := t
      cases kind <;> rfl
  rw [readLine, hopening]
  exact State.read_map f (opening ts).1 (opening ts).2

end Parse

/-! ### Lines and trees -/

namespace Phrase

theorem invalid?_map (ts : List (Token α)) : invalid? (ts.map (Token.map f)) = invalid? ts := by
  rw [invalid?, List.find?_map, Option.map_map, invalid?]
  have hinvalid : ((fun t : Token β => t.kind.isInvalid) ∘ Token.map f)
      = fun t : Token α => t.kind.isInvalid :=
    funext fun t => TokenKind.isInvalid_map f t.kind
  rw [hinvalid]
  rfl

/-- Lines with other texts are the same phrases with these texts, or have the same error. -/
theorem ofLine_map (body : List (Token α)) (eof : Token α) :
    ofLine (body.map (Token.map f)) (eof.map f) = (ofLine body eof).map (map f) := by
  rw [ofLine, ofLine, invalid?_map, Parse.readLine_map]
  cases invalid? body with
  | some e => rfl
  | none =>
    cases Parse.readLine body with
    | ok s => exact Parse.State.finish_map f s eof
    | error e => rfl

end Phrase

/-- The node with another text. -/
def Node.map (n : Node α) : Node β := ⟨n.kind.map f, n.span, n.children⟩

/-- The tree with other texts. -/
def Tree.map (t : Tree α) : Tree β := ⟨t.nodes.map (Node.map f), t.root⟩

theorem Arena.cover?_map (a : Arena α) (ids : List Nat) :
    Arena.cover? (Array.map (Node.map f) a) ids = a.cover? ids := by
  cases ids with
  | nil => rfl
  | cons first rest =>
    rw [cover?, cover?, Array.getElem?_map, Array.getElem?_map]
    cases a[first]? with
    | none => rfl
    | some x => cases a[rest.getLast?.getD first]? <;> rfl

namespace Phrase

mutual

theorem layOut_map : ∀ (p : Phrase α) (a : Arena α),
    (p.map f).layOut (Array.map (Node.map f) a) = Array.map (Node.map f) (p.layOut a)
  | .leaf kind span, a => by
    rw [map, layOut, layOut, Arena.leaf, Arena.leaf, Array.map_push]
    rfl
  | .node rule parts, a => by
    rw [map, layOut, layOut, layOutAll_map parts a, Array.map_push]
    simp only [Arena.cover?_map]
    rfl

theorem layOutAll_map : ∀ (ps : List (Phrase α)) (a : Arena α),
    layOutAll (mapAll f ps) (Array.map (Node.map f) a)
      = (Array.map (Node.map f) (layOutAll ps a).1, (layOutAll ps a).2)
  | [], a => rfl
  | p :: ps, a => by
    rw [mapAll, layOutAll, layOutAll, layOut_map p a, layOutAll_map ps, Array.size_map]

end

/-- The tree of a phrase with other texts is its tree with these texts. -/
theorem toTree_map (p : Phrase α) : (p.map f).toTree = p.toTree.map f := by
  have hnodes := layOut_map f p #[]
  rw [Array.map_empty] at hnodes
  rw [toTree, toTree, Tree.map, hnodes, Array.size_map]

end Phrase

end Reckoner
