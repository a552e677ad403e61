import Reckoner.Proofs.Parse.Building
import Reckoner.Proofs.Parse.Lockstep
import Reckoner.Proofs.Tree.Postorder
import Reckoner.Proofs.Tree.Steps

/-!
The calls of the descent to its builder are those for the phrase that the descent without a builder
reads, in this order. What carries this through a rule is how far it has come: the parts that it has
read, and the indices that the builder has given for them. So the two come to the same end, unless
the builder runs out of indices on the way. -/

namespace Reckoner

/-! ### What is read -/

namespace Descent.Reading

variable {α : Type} {m n : Nat} {x : Reading α n} {P Q : Phrase α → Prop}

/-- The phrase, if there is one, is as it should be. -/
def Reads (P : Phrase α → Prop) : Reading α n → Prop
  | .past | .fails _ => True
  | .reads p _ _ => P p

theorem Reads.andThen {next : Phrase α → ∀ rest : List (Token α), rest.length < n → Reading α m}
    (hx : x.Reads P) (h : ∀ p rest fewer, P p → (next p rest fewer).Reads Q) :
    (x.andThen next).Reads Q := by
  cases x with
  | past => trivial
  | fails e => trivial
  | reads p rest fewer => exact h p rest fewer hx

theorem Reads.widen (hx : x.Reads P) (h : n ≤ m) : (x.widen h).Reads P := by
  cases x <;> exact hx

theorem Reads.mono (hx : x.Reads P) (h : ∀ p, P p → Q p) : x.Reads Q := by
  cases x with
  | past => trivial
  | fails e => trivial
  | reads p rest fewer => exact h p hx

theorem reads_true (x : Reading α n) : x.Reads fun _ => True := by
  cases x <;> trivial

end Descent.Reading

namespace Building

open Descent Phrase Storage

variable {α : Type} {m n : Nat} {rule operand : Rule} {s s' s'' : Storage α}
  {parts : List (Phrase α)} {ids : List Nat}

/-! ### Between the calls -/

/-- From `s` on, the builder has added the nodes of the parts: it has given `ids` for the parts
themselves, and stores `s'` now. -/
structure Partway (s : Storage α) (parts : List (Phrase α)) (ids : List Nat) (s' : Storage α) :
    Prop where
  built : s.buildAll (stepsAll s.nodes.size parts) = .ok s'
  ids_eq : ids = idsFrom s.nodes.size parts

/-- The phrase is one of the rule and begins with the parts. -/
def Begins (rule : Rule) (parts : List (Phrase α)) (p : Phrase α) : Prop :=
  ∃ more, p = .node rule (parts ++ more)

theorem Begins.of_append {p : Phrase α} {more : List (Phrase α)}
    (h : Begins rule (parts ++ more) p) : Begins rule parts p := by
  obtain ⟨rest, rfl⟩ := h
  exact ⟨more ++ rest, by rw [List.append_assoc]⟩

namespace Partway

variable {p q : Phrase α}

theorem start (s : Storage α) : Partway s [] [] s := by
  refine ⟨?_, ?_⟩
  · rw [stepsAll, buildAll_nil]
  · rw [idsFrom]

theorem size_eq (h : Partway s parts ids s') : s'.nodes.size = s.nodes.size + sizeAll parts := by
  rw [size_buildAll h.built, length_stepsAll]

theorem buildAll_concat (h : Partway s parts ids s') (p : Phrase α) :
    s.buildAll (stepsAll s.nodes.size (parts ++ [p])) = s'.buildAll (p.steps s'.nodes.size) := by
  rw [stepsAll_append, buildAll_append, h.built, ← h.size_eq, stepsAll, stepsAll, List.append_nil]
  rfl

theorem buildAll_node (h : Partway s parts ids s') (rule : Rule) :
    s.buildAll ((Phrase.node rule parts).steps s.nodes.size)
      = (s'.build (.node (.rule rule) ids)).map Prod.snd := by
  rw [steps, buildAll_append, h.built, ← h.ids_eq, ← buildAll_singleton]
  rfl

theorem concat (h : Partway s parts ids s') (hp : s'.buildAll (p.steps s'.nodes.size) = .ok s'') :
    Partway s (parts ++ [p]) (ids ++ [s'.nodes.size + p.size - 1]) s'' := by
  refine ⟨(h.buildAll_concat p).trans hp, ?_⟩
  rw [idsFrom_append, h.ids_eq, h.size_eq, idsFrom, idsFrom]

/-- A builder that stops in a part does not get to the end of what begins with this part. -/
theorem full (h : Partway s parts ids s')
    (hp : s'.buildAll (p.steps s'.nodes.size) = .error .full) (hq : Begins rule (parts ++ [p]) q) :
    s.buildAll (q.steps s.nodes.size) = .error .full := by
  obtain ⟨more, rfl⟩ := hq
  rw [steps, stepsAll_append, List.append_assoc, buildAll_append, h.buildAll_concat, hp]
  rfl

end Partway

/-- The outcome with a builder goes with one without: it is the same, and if a phrase is read, the
builder has added its nodes; or the builder stops, and then it cannot add all nodes of the phrase
that is read. -/
inductive Follows (s : Storage α) : Reading α n → Except Halt (Reached α n) → Prop where
  | past : Follows s .past (.error .past)
  | fails (e : ParseError) : Follows s (.fails e) (.error (.refused e))
  | reads {p : Phrase α} {s' : Storage α} {rest : List (Token α)} (fewer : rest.length < n)
      (h : s.buildAll (p.steps s.nodes.size) = .ok s') :
      Follows s (.reads p rest fewer) (.ok ⟨s.nodes.size + p.size - 1, s', rest, fewer⟩)
  | stops {x : Reading α n}
      (h : x.Reads fun p => s.buildAll (p.steps s.nodes.size) = .error .full) :
      Follows s x (.error (.stopped .full))

/-- Asking for a node over stored ones has two ends: it gets the next index, or there is none. -/
theorem Follows.add {x : Reading α n} {step : BuildStep α}
    {go : Nat × Storage α → Except Halt (Reached α n)}
    (hchildren : ∀ child ∈ step.children, child < s'.nodes.size)
    (hok : ∀ s'', s'.build step = .ok (s'.nodes.size, s'') → Follows s x (go (s'.nodes.size, s'')))
    (hfull : s'.build step = .error .full →
      x.Reads fun p => s.buildAll (p.steps s.nodes.size) = .error .full) :
    Follows s x (add s' step >>= go) := by
  have hbuild := build_of_stored hchildren
  rw [Building.add]
  split at hbuild
  · obtain ⟨s'', hbuild⟩ := hbuild
    rw [hbuild]
    exact hok s'' hbuild
  · rw [hbuild]
    exact .stops (hfull hbuild)

theorem Follows.widen {x : Reading α n} {y : Except Halt (Reached α n)} (hy : Follows s x y)
    (h : n ≤ m) : Follows s (x.widen h) (y.map (·.widen h)) := by
  cases hy with
  | past => exact .past
  | fails e => exact .fails e
  | reads fewer hbuild => exact .reads _ hbuild
  | stops hx => exact .stops (hx.widen h)

namespace Partway

variable {x : Reading α n} {y : Except Halt (Reached α n)} {k : Nat}

/-- One part more is read. -/
theorem read (h : Partway s parts ids s') (rule : Rule) (hy : Follows s' x y)
    {next : Phrase α → ∀ rest : List (Token α), rest.length < n → Reading α m}
    {go : Reached α n → Except Halt (Reached α m)}
    (hnext : ∀ p rest fewer, (next p rest fewer).Reads (Begins rule (parts ++ [p])) ∧
      ∀ id s'', Partway s (parts ++ [p]) (ids ++ [id]) s'' →
        Follows s (next p rest fewer) (go ⟨id, s'', rest, fewer⟩)) :
    Follows s (x.andThen next) (y >>= go) := by
  cases hy with
  | past => exact .past
  | fails e => exact .fails e
  | reads fewer hbuild => exact (hnext _ _ fewer).2 _ _ (h.concat hbuild)
  | stops hx =>
    refine .stops (hx.andThen fun p rest fewer hp => ?_)
    exact (hnext p rest fewer).1.mono fun q hq => h.full hp hq

/-- One leaf more is added. -/
theorem leaf (h : Partway s parts ids s') (rule : Rule) {kind : NodeKind α} {span : Span}
    {go : Nat × Storage α → Except Halt (Reached α n)}
    (hx : x.Reads (Begins rule (parts ++ [.leaf kind span])))
    (hgo : ∀ id s'', Partway s (parts ++ [.leaf kind span]) (ids ++ [id]) s'' →
      Follows s x (go (id, s''))) : Follows s x (add s' (.leaf kind span) >>= go) := by
  have hsteps : s'.buildAll ((Phrase.leaf kind span).steps s'.nodes.size)
      = (s'.build (.leaf kind span)).map Prod.snd := by rw [steps, buildAll_singleton]
  refine .add (fun child hchild => by cases hchild) (fun s'' hbuild => ?_) fun hbuild => ?_
  · rw [hbuild] at hsteps
    have hconcat := h.concat hsteps
    rw [size, Nat.add_sub_cancel] at hconcat
    exact hgo _ _ hconcat
  · rw [hbuild] at hsteps
    exact hx.mono fun q hq => h.full hsteps hq

/-- One token more is kept, and behind it one part more is read. -/
theorem token (h : Partway s parts ids s') (rule : Rule) {t : Token α}
    {y : Storage α → Except Halt (Reached α n)} (hy : ∀ s₁, Follows s₁ x (y s₁))
    {next : Phrase α → ∀ rest : List (Token α), rest.length < n → Reading α m}
    {start : Nat × Storage α → Except Halt (Reached α m)}
    {go : Nat → Reached α n → Except Halt (Reached α m)}
    (hstart : ∀ op s₁, start (op, s₁) = y s₁ >>= go op)
    (hnext : ∀ p rest fewer,
      (next p rest fewer).Reads (Begins rule (parts ++ [.ofToken t] ++ [p])) ∧
        ∀ op id s'', Partway s (parts ++ [.ofToken t] ++ [p]) (ids ++ [op] ++ [id]) s'' →
          Follows s (next p rest fewer) (go op ⟨id, s'', rest, fewer⟩)) :
    Follows s (x.andThen next) (addToken s' t >>= start) := by
  refine h.leaf rule ?_ fun op s₁ h₁ => ?_
  · exact (Reading.reads_true x).andThen fun p rest fewer _ =>
      (hnext p rest fewer).1.mono fun q => .of_append
  · rw [hstart]
    exact h₁.read rule (hy s₁) fun p rest fewer =>
      ⟨(hnext p rest fewer).1, (hnext p rest fewer).2 op⟩

/-- The node of the rule is added behind its parts. -/
theorem close (h : Partway s parts ids s') (rule : Rule) {rest : List (Token α)}
    (fewer : rest.length < n) :
    Follows s (.reads (.node rule parts) rest fewer) (close rule ids s' rest fewer) := by
  have hsteps := h.buildAll_node rule
  refine .add ?_ (fun s'' hbuild => ?_) fun hbuild => ?_
  · rw [h.size_eq, h.ids_eq]
    exact fun child hchild => (mem_idsFrom hchild).2
  · rw [hbuild] at hsteps
    have hid : s'.nodes.size = s.nodes.size + (Phrase.node rule parts).size - 1 := by
      rw [size, h.size_eq]
      rfl
    rw [hid]
    exact .reads fewer hsteps
  · rw [hbuild] at hsteps
    exact hsteps

end Partway

/-! ### The rules, followed -/

/-- With a builder, the rule reads what it reads without one. -/
def Threads (rule : Rule) (ts : List (Token α)) : Prop :=
  ∀ s : Storage α, Follows s (Descent.read rule ts) (Building.read rule ts s)

/-- A chain begins with the parts that it has already. -/
theorem reads_links (rule operand : Rule) (parts : List (Phrase α)) (ts : List (Token α)) :
    (Descent.links rule operand parts ts).Reads (Begins rule parts) := by
  match ts with
  | [] =>
    rw [Descent.links]
    trivial
  | t :: ts =>
    rw [Descent.links]
    split
    · rename_i hop
      have hlt := length_advance_lt (Rule.kind_of_joins hop).2 ts
      refine (Reading.reads_true _).andThen fun next rest hrest _ => ?_
      have hshorter := Nat.lt_trans hrest hlt
      exact ((reads_links rule operand _ rest).mono fun q => .of_append).widen _
    · exact ⟨[], by rw [List.append_nil]⟩
termination_by ts.length
decreasing_by exact hshorter

theorem follows_links {ts : List (Token α)} {parts : List (Phrase α)} {ids : List Nat}
    {s' : Storage α} (ih : ∀ us : List (Token α), us.length < ts.length → Threads operand us)
    (h : Partway s parts ids s') :
    Follows s (Descent.links rule operand parts ts) (links rule operand ids ts s') := by
  match ts, ih with
  | [], _ =>
    rw [Descent.links, links]
    exact .past
  | t :: ts, ih =>
    rw [Descent.links, links]
    by_cases hop : rule.joins t.kind = true
    · rw [dif_pos hop, dif_pos hop]
      have hlt := length_advance_lt (Rule.kind_of_joins hop).2 ts
      have hparts : ∀ next, parts ++ [.ofToken t, next] = parts ++ [.ofToken t] ++ [next] :=
        fun next => (List.append_assoc parts [_] [_]).symm
      refine h.token rule (ih _ hlt) (fun _ _ => rfl) fun next rest hrest => ?_
      have hshorter := Nat.lt_trans hrest hlt
      rw [hparts]
      refine ⟨(reads_links rule operand _ rest).widen _, fun op id s₂ h₂ => ?_⟩
      exact (follows_links (fun us hus => ih us (Nat.lt_trans hus hshorter)) h₂).widen _
    · rw [dif_neg hop, dif_neg hop]
      exact h.close rule _
termination_by ts.length
decreasing_by exact hshorter

theorem threads_chain (h : rule.Chains operand) {ts : List (Token α)}
    (ih : ∀ us : List (Token α), us.length < ts.length → Threads operand us)
    (hfirst : Threads operand ts) : Threads rule ts := by
  intro s
  have hread : Descent.read rule ts = (Descent.read operand ts).andThen fun p rest hrest =>
      (Descent.links rule operand [p] rest).widen hrest := by
    cases h <;> rw [Descent.read]
  have hbuild : read rule ts s = read operand ts s >>= fun r =>
      (links rule operand [r.id] r.rest r.storage).map (·.widen r.fewer) := by
    cases h <;> rw [read]
  rw [hread, hbuild]
  refine (Partway.start s).read rule (hfirst s) fun p rest hrest => ?_
  refine ⟨(reads_links rule operand [p] rest).widen _, fun id s₁ h₁ => ?_⟩
  exact (follows_links (fun us hus => ih us (Nat.lt_trans hus hrest)) h₁).widen _

theorem threads_atom {ts : List (Token α)}
    (ih : ∀ us : List (Token α), us.length < ts.length → Threads .expression us) :
    Threads .atom ts := by
  intro s
  cases ts with
  | nil =>
    rw [Descent.read, read]
    exact .past
  | cons t ts =>
    obtain ⟨kind, span⟩ := t
    rw [Descent.read, read]
    cases kind with
    | number text =>
      exact (Partway.start s).leaf .atom ⟨[], rfl⟩ fun literal s₁ h₁ => h₁.close .atom _
    | ident text =>
      exact (Partway.start s).leaf .atom ⟨[], rfl⟩ fun name s₁ h₁ => h₁.close .atom _
    | lparen =>
      have hlt := length_advance_lt (t := ⟨.lparen, span⟩) rfl ts
      refine (Partway.start s).token .atom (ih _ hlt) (fun _ _ => rfl) fun inner rest hrest => ?_
      cases rest with
      | nil => exact ⟨trivial, fun _ _ _ _ => .past⟩
      | cons u rest =>
        obtain ⟨kind, span'⟩ := u
        cases kind with
        | rparen =>
          refine ⟨⟨[_], rfl⟩, fun opening id s₂ h₂ => ?_⟩
          exact h₂.leaf .atom ⟨[], rfl⟩ fun closing s₃ h₃ => h₃.close .atom _
        | _ => exact ⟨trivial, fun _ _ _ _ => .fails _⟩
    | _ => exact .fails _

theorem threads_signedAtom {ts : List (Token α)}
    (ih : ∀ us : List (Token α), us.length < ts.length → Threads .signedAtom us)
    (hatom : Threads .atom ts) : Threads .signedAtom ts := by
  intro s
  cases ts with
  | nil =>
    rw [Descent.read, read]
    exact .past
  | cons t ts =>
    rw [Descent.read, read]
    by_cases hsign : t.kind.isSign = true
    · rw [dif_pos hsign, dif_pos hsign]
      have hlt := length_advance_lt (TokenKind.kind_of_isSign hsign).2 ts
      refine (Partway.start s).token .signedAtom (ih _ hlt) (fun _ _ => rfl) fun inner rest _ => ?_
      exact ⟨⟨[], rfl⟩, fun sign id s₂ h₂ => h₂.close .signedAtom _⟩
    · rw [dif_neg hsign, dif_neg hsign]
      refine (Partway.start s).read .signedAtom (hatom s) fun atom rest _ => ⟨⟨[], rfl⟩, ?_⟩
      exact fun id s₁ h₁ => h₁.close .signedAtom _

/-- All rules are read alike with a builder and without, on lists of any length. -/
theorem threads (ts : List (Token α)) :
    Threads .signedAtom ts ∧ Threads .factor ts ∧ Threads .term ts ∧ Threads .expression ts := by
  have ih : ∀ us : List (Token α), us.length < ts.length →
      Threads .signedAtom us ∧ Threads .factor us ∧ Threads .term us ∧ Threads .expression us :=
    fun us _ => threads us
  have hatom : Threads .atom ts := threads_atom fun us hus => (ih us hus).2.2.2
  have hsigned := threads_signedAtom (fun us hus => (ih us hus).1) hatom
  have hfactor := threads_chain .factor (fun us hus => (ih us hus).1) hsigned
  have hterm := threads_chain .term (fun us hus => (ih us hus).2.1) hfactor
  have hexpression := threads_chain .expression (fun us hus => (ih us hus).2.2.1) hterm
  exact ⟨hsigned, hfactor, hterm, hexpression⟩
termination_by ts.length

theorem threads_equation (ts : List (Token α)) : Threads .equation ts := by
  have hexpression : ∀ us : List (Token α), Threads .expression us := fun us => (threads us).2.2.2
  intro s
  cases ts with
  | nil =>
    rw [Descent.read, read]
    exact .past
  | cons t ts =>
    obtain ⟨kind, span⟩ := t
    rw [Descent.read, read]
    cases kind with
    | ret =>
      refine (Partway.start s).token .equation (hexpression _) (fun _ _ => rfl)
        fun value rest _ => ?_
      exact ⟨⟨[], rfl⟩, fun keyword id s₂ h₂ => h₂.close .equation _⟩
    | _ =>
      refine (Partway.start s).read .equation (hexpression _ s) fun target rest _ => ?_
      cases rest with
      | nil => exact ⟨trivial, fun _ _ _ => .past⟩
      | cons u rest =>
        obtain ⟨kind, span'⟩ := u
        cases kind with
        | eq =>
          refine ⟨?_, fun id s₁ h₁ => ?_⟩
          · exact (Reading.reads_true _).andThen fun value rest' _ _ => ⟨[_, value], rfl⟩
          · refine h₁.token .equation (hexpression _) (fun _ _ => rfl) fun value rest' _ => ?_
            exact ⟨⟨[], rfl⟩, fun sign id' s₃ h₃ => h₃.close .equation _⟩
        | _ => exact ⟨trivial, fun _ _ _ => .fails _⟩

/-! ### Lines -/

/-- The outcome of a line with a builder goes with the answer to the line: it is the same, and the
builder has stored the tree of the phrase; or the builder stops, and then it cannot store this
tree. -/
inductive Answers : Option (Except ParseError (Phrase α)) → Except Halt (Nat × Storage α) → Prop
    where
  | past : Answers none (.error .past)
  | refused (e : ParseError) : Answers (some (.error e)) (.error (.refused e))
  | built {p : Phrase α} {s : Storage α} (h : Storage.empty.buildAll (p.steps 0) = .ok s) :
      Answers (some (.ok p)) (.ok (p.toTree.root, s))
  | stopped {answer : Option (Except ParseError (Phrase α))}
      (h : ∀ p, answer = some (.ok p) → Storage.empty.buildAll (p.steps 0) = .error .full) :
      Answers answer (.error (.stopped .full))

theorem answers_parseLine (ts : List (Token α)) :
    Answers (Descent.parseLine ts) (parseLine ts) := by
  have hfollows := threads_equation ts .empty
  rw [Descent.parseLine, parseLine]
  generalize Descent.read .equation ts = x at hfollows ⊢
  generalize read .equation ts .empty = y at hfollows ⊢
  cases hfollows with
  | past => exact .past
  | fails e => exact .refused e
  | @reads p s rest fewer h =>
    have hroot : (Storage.empty : Storage α).nodes.size + p.size - 1 = p.toTree.root := by
      rw [root_toTree, index_viewFrom]
      rfl
    rw [hroot]
    cases rest with
    | nil => exact .past
    | cons t rest =>
      simp only [bind, Except.bind]
      split
      · exact .built h
      · exact .refused _
  | stops hx =>
    refine .stopped fun p hp => ?_
    split at hp
    · cases hp
    · cases hp
    · cases hp
    · split at hp
      · obtain rfl := Except.ok.inj (Option.some.inj hp)
        exact hx
      · cases hp

/-- Whatever the tokens are, the descent with a builder goes with the answer of the parser. -/
theorem answers_parse (ts : List (Token α)) : Answers (ofTokens? ts) (parse ts) := by
  rw [← parse_eq_ofTokens?]
  cases hinvalid : invalid? ts with
  | some e =>
    simp only [Descent.parse, parse, hinvalid]
    exact .refused e
  | none =>
    cases ts with
    | nil => exact .refused _
    | cons t ts =>
      simp only [Descent.parse, parse, hinvalid]
      exact answers_parseLine (t :: ts)

section

variable {ts : List (Token α)} {p : Phrase α} (h : ofTokens? ts = some (.ok p))

include h

/-- On a line that parses, the descent ends in what a builder stores that is asked for the nodes of
the phrase; it stops only where no such builder gets to the end. -/
theorem parse_cases :
    (∃ ids s, Storage.Made (p.steps 0) ids s ∧ parse ts = .ok (p.toTree.root, s)) ∨
      (¬∃ ids s, Storage.Made (p.steps 0) ids s) ∧ parse ts = .error (.stopped .full) := by
  have hanswers := answers_parse ts
  rw [h] at hanswers
  generalize parse ts = y at hanswers ⊢
  cases hanswers with
  | @built _ s hbuild =>
    obtain ⟨ids, hmade⟩ := Storage.Made.exists_of_buildAll p.bottomUp_steps hbuild
    exact .inl ⟨ids, s, hmade, rfl⟩
  | stopped hfull =>
    refine .inr ⟨?_, rfl⟩
    rintro ⟨ids, s, hmade⟩
    cases (hfull p rfl).symm.trans hmade.buildAll_eq

theorem parse_eq_ok_iff {root : Nat} : parse ts = .ok (root, s) ↔
    root = p.toTree.root ∧ ∃ ids, Storage.Made (p.steps 0) ids s := by
  rcases parse_cases h with ⟨ids, s', hmade, hparse⟩ | ⟨hnone, hparse⟩
  · rw [hparse]
    constructor
    · intro hsame
      obtain ⟨rfl, rfl⟩ := Prod.mk.inj (Except.ok.inj hsame)
      exact ⟨rfl, ids, hmade⟩
    · rintro ⟨rfl, ids', hmade'⟩
      rw [hmade.unique hmade']
  · rw [hparse]
    exact ⟨nofun, fun ⟨_, ids, hmade⟩ => absurd ⟨ids, s, hmade⟩ hnone⟩

theorem parse_eq_full_iff : parse ts = .error (.stopped .full) ↔
    ¬∃ ids s, Storage.Made (p.steps 0) ids s := by
  rcases parse_cases h with ⟨ids, s, hmade, hparse⟩ | ⟨hnone, hparse⟩
  · rw [hparse]
    exact ⟨nofun, fun hnone => absurd ⟨ids, s, hmade⟩ hnone⟩
  · rw [hparse]
    exact ⟨fun _ => hnone, fun _ => rfl⟩

end

/-- The lists of children stand behind each other in the order in which the nodes were added. -/
example : parse ([⟨.ret, ⟨0, 6⟩⟩, ⟨.number "2", ⟨7, 8⟩⟩, ⟨.eof, ⟨8, 8⟩⟩] : List (Token String))
    = .ok (7, ⟨#[⟨.token .ret, ⟨0, 6⟩, ⟨0, 0⟩⟩, ⟨.scientific "2", ⟨7, 8⟩, ⟨0, 0⟩⟩,
        ⟨.rule .atom, ⟨7, 8⟩, ⟨0, 1⟩⟩, ⟨.rule .signedAtom, ⟨7, 8⟩, ⟨1, 1⟩⟩,
        ⟨.rule .factor, ⟨7, 8⟩, ⟨2, 1⟩⟩, ⟨.rule .term, ⟨7, 8⟩, ⟨3, 1⟩⟩,
        ⟨.rule .expression, ⟨7, 8⟩, ⟨4, 1⟩⟩, ⟨.rule .equation, ⟨0, 8⟩, ⟨5, 2⟩⟩],
      #[1, 2, 3, 4, 5, 0, 6]⟩) := by
  cbv

end Building

end Reckoner
