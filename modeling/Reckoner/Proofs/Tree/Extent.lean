import Reckoner.Proofs.Grammar
import Reckoner.Proofs.Token.Order
import Reckoner.Proofs.Tree.Layout

/-!
How far a node reaches. The span of a node is merged from those of its first and its last child; as
the tokens of a line stand in order, it goes from the start of the first token below the node to the
end of the last one. -/

namespace Reckoner

open Token Token.InOrder

variable {α : Type}

namespace Token.InOrder

variable {ts us : List (Token α)}

theorem head_lt_getLast (h : InOrder ts) (hne : ts ≠ []) :
    (ts.head hne).span.start < (ts.getLast hne).span.stop := by
  cases ts with
  | nil => exact absurd rfl hne
  | cons t ts =>
    have ht := h.nonempty t List.mem_cons_self
    rcases List.eq_nil_or_concat ts with rfl | ⟨us, u, hconcat⟩
    · exact ht
    · obtain rfl : ts = us ++ [u] := hconcat.trans List.concat_eq_append
      have hu := h.nonempty u (by simp)
      have htu := (List.pairwise_cons.1 h.apart).1 u (by simp)
      rw [List.head_cons, List.getLast_cons (by simp), List.getLast_concat]
      omega

end Token.InOrder

namespace Derivation

variable {rule operand : Rule}

/-- Where the first token of a derivation starts. -/
def start (d : Derivation α rule) : Nat := (d.yield.head d.yield_ne_nil).span.start

/-- Where the last token of a derivation ends. -/
def stop (d : Derivation α rule) : Nat := (d.yield.getLast d.yield_ne_nil).span.stop

/-- The part of the line that a derivation takes up. -/
def extent (d : Derivation α rule) : Span := ⟨d.start, d.stop⟩

theorem start_lt_stop {d : Derivation α rule} (h : InOrder d.yield) : d.start < d.stop :=
  h.head_lt_getLast d.yield_ne_nil

@[simp] theorem stop_returned (keyword : Span) (value : Derivation α .expression) :
    (returned keyword value).stop = value.stop :=
  congrArg (·.span.stop) (List.getLast_cons value.yield_ne_nil)

@[simp] theorem start_assigned (target : Derivation α .expression) (sign : Span)
    (value : Derivation α .expression) : (assigned target sign value).start = target.start :=
  congrArg (·.span.start) (List.head_append_of_ne_nil target.yield_ne_nil)

@[simp] theorem start_link (h : rule.Chains operand) (left : Derivation α rule) (op : Token α)
    (hop : rule.joins op.kind = true) (right : Derivation α operand) :
    (link h left op hop right).start = left.start :=
  congrArg (·.span.start) (List.head_append_of_ne_nil left.yield_ne_nil)

/-- The last token behind a token in the middle is the last token of the derivation there. -/
theorem stop_append (us : List (Token α)) (u : Token α) (d : Derivation α rule)
    (h : us ++ u :: d.yield ≠ []) : ((us ++ u :: d.yield).getLast h).span.stop = d.stop := by
  rw [List.getLast_append_of_ne_nil h (List.cons_ne_nil u _), List.getLast_cons d.yield_ne_nil,
    stop]

@[simp] theorem stop_assigned (target : Derivation α .expression) (sign : Span)
    (value : Derivation α .expression) : (assigned target sign value).stop = value.stop :=
  stop_append target.yield ⟨.eq, sign⟩ value _

@[simp] theorem stop_link (h : rule.Chains operand) (left : Derivation α rule) (op : Token α)
    (hop : rule.joins op.kind = true) (right : Derivation α operand) :
    (link h left op hop right).stop = right.stop :=
  stop_append left.yield op right _

@[simp] theorem stop_signed (sign : Token α) (hsign : sign.kind.isSign = true)
    (inner : Derivation α .signedAtom) : (signed sign hsign inner).stop = inner.stop :=
  stop_append [] sign inner _

@[simp] theorem stop_parens (opening : Span) (inner : Derivation α .expression) (closing : Span) :
    (parens opening inner closing).stop = closing.stop :=
  congrArg (·.span.stop) (List.getLast_concat (l := ⟨.lparen, opening⟩ :: inner.yield))

/-- A token in front of a derivation ends before the derivation starts. -/
theorem le_start {k : TokenKind α} {s : Span} {d : Derivation α rule}
    (h : InOrder (⟨k, s⟩ :: d.yield)) : s.start < s.stop ∧ s.stop ≤ d.start ∧ d.start < d.stop :=
  ⟨h.nonempty _ List.mem_cons_self,
    (List.pairwise_cons.1 h.apart).1 _ (List.head_mem d.yield_ne_nil), start_lt_stop h.tail⟩

/-- A token behind a derivation starts after the derivation has ended. -/
theorem stop_le {k : TokenKind α} {s : Span} {d : Derivation α rule} {us : List (Token α)}
    (h : InOrder (d.yield ++ ⟨k, s⟩ :: us)) : d.stop ≤ s.start ∧ s.start < s.stop :=
  ⟨h.le_of_append (List.getLast_mem d.yield_ne_nil) List.mem_cons_self,
    h.append_right.nonempty _ List.mem_cons_self⟩

end Derivation

/-- Spans of pieces that go from `start` to `stop`: the first piece starts there, the last one ends
there, and no piece reaches further. -/
structure Reach (spans : List Span) (start stop : Nat) : Prop where
  first : ∃ s, spans.head? = some s ∧ s.start = start
  last : ∃ s, spans.getLast? = some s ∧ s.stop = stop
  inside : ∀ s ∈ spans, start ≤ s.start ∧ s.stop ≤ stop

namespace Reach

variable {spans spans' : List Span} {start stop start' stop' : Nat}

theorem single (s : Span) : Reach [s] s.start s.stop := by
  refine ⟨⟨s, rfl, rfl⟩, ⟨s, rfl, rfl⟩, ?_⟩
  intro t ht
  obtain rfl := List.mem_singleton.1 ht
  exact ⟨Nat.le_refl _, Nat.le_refl _⟩

theorem append (h : Reach spans start stop) (h' : Reach spans' start' stop')
    (hstart : start ≤ start') (hstop : stop ≤ stop') : Reach (spans ++ spans') start stop' := by
  obtain ⟨s, hs, rfl⟩ := h.first
  obtain ⟨t, ht, rfl⟩ := h'.last
  refine ⟨⟨s, ?_, rfl⟩, ⟨t, ?_, rfl⟩, ?_⟩
  · rw [List.head?_append, hs, Option.some_or]
  · rw [List.getLast?_append, ht, Option.some_or]
  · intro u hu
    rcases List.mem_append.1 hu with hu | hu
    · have hin := h.inside u hu
      omega
    · have hin := h'.inside u hu
      omega

/-- Merging the first and the last piece gives the whole range. -/
theorem cover_eq (h : Reach spans start stop) : Span.cover spans = ⟨start, stop⟩ := by
  cases spans with
  | nil =>
    obtain ⟨s, hs, -⟩ := h.first
    cases hs
  | cons s rest =>
    obtain ⟨t, ht, hstop⟩ := h.last
    obtain ⟨u, hu, hstart⟩ := h.first
    obtain rfl := Option.some.inj hu
    rw [List.getLast?_cons] at ht
    have hlast := Option.some.inj ht
    have hs := h.inside s List.mem_cons_self
    have ht := h.inside t (List.mem_of_getLast? (by rw [List.getLast?_cons, hlast]))
    rw [Span.cover, hlast, Span.merge, Span.mk.injEq]
    omega

theorem node {parts : List (Phrase α)} (rule : Rule)
    (h : Reach (Phrase.spanAll parts) start stop) :
    Reach (Phrase.spanAll [.node rule parts]) start stop := by
  rw [Phrase.spanAll, Phrase.spanAll, Phrase.span, h.cover_eq]
  exact single ⟨start, stop⟩

end Reach

namespace Derivation

variable {rule : Rule}

/-- The parts of a derivation reach over its extent. -/
theorem reach_parts (d : Derivation α rule) (h : InOrder d.yield) :
    Reach (Phrase.spanAll d.parts) d.start d.stop := by
  induction d with
  | returned keyword value ih =>
    rw [stop_returned]
    have hvalue := le_start h
    exact (Reach.single keyword).append ((ih h.tail).node .expression) (by omega) (by omega)
  | assigned target sign value iht ihv =>
    rw [start_assigned, stop_assigned]
    have htarget := start_lt_stop h.append_left
    have hsign := stop_le h
    have hvalue := le_start h.append_right
    exact ((iht h.append_left).node .expression).append ((Reach.single sign).append
      ((ihv h.append_right.tail).node .expression) (by omega) (by omega)) (by omega) (by omega)
  | first hc d ih => exact (ih h).node _
  | @link rule operand hc left op hop right ihl ihr =>
    rw [start_link, stop_link, parts, Phrase.spanAll_append]
    have hleft := start_lt_stop h.append_left
    have hop := stop_le h
    have hright := le_start h.append_right
    exact (ihl h.append_left).append ((Reach.single op.span).append
      ((ihr h.append_right.tail).node operand) (by omega) (by omega)) (by omega) (by omega)
  | signed sign hsign inner ih =>
    rw [stop_signed]
    have hinner := le_start h
    exact (Reach.single sign.span).append ((ih h.tail).node .signedAtom) (by omega) (by omega)
  | unsigned atom ih => exact (ih h).node _
  | number text span => exact .single span
  | ident name span => exact .single span
  | parens opening inner closing ih =>
    rw [stop_parens]
    have hopening := (show InOrder ((⟨.lparen, opening⟩ :: inner.yield) ++ [⟨.rparen, closing⟩])
      from h).append_left
    have hinner := le_start hopening
    have hclosing := stop_le h.tail
    exact (Reach.single opening).append (((ih h.tail.append_left).node .expression).append
      (Reach.single closing) (by omega) (by omega)) (by omega) (by omega)

/-- The node of a derivation spans its extent. -/
theorem span_phrase {d : Derivation α rule} (h : InOrder d.yield) : d.phrase.span = d.extent :=
  (d.reach_parts h).cover_eq

end Derivation

end Reckoner
