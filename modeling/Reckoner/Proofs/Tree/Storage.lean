import Mathlib.Data.List.Induction
import Reckoner.Proofs.Tree.Built

/-!
How trees are stored. A builder keeps its nodes in one table and the children of all of them in
another, list behind list; a node only knows the stretch that its own list takes up there. Nothing
that is built later touches a stretch, so the two tables hold what a table does whose nodes have
their children with them. -/

namespace Reckoner

variable {α : Type}

/-- Some positions in a row. -/
structure Stretch where
  start : Nat
  length : Nat
deriving DecidableEq, Repr

namespace Stretch

/-- No positions. -/
def empty : Stretch := ⟨0, 0⟩

/-- The positions from the first to the last one. -/
def positions (r : Stretch) : List Nat := List.range' r.start r.length

/-- What a table has at the positions, if it reaches that far. -/
def slice? (r : Stretch) (xs : Array Nat) : Option (List Nat) :=
  if r.start + r.length ≤ xs.size then some ((xs.toList.drop r.start).take r.length) else none

variable {r : Stretch} {xs : Array Nat} {children : List Nat}

theorem slice?_empty (xs : Array Nat) : empty.slice? xs = some [] := if_pos (Nat.zero_le xs.size)

/-- What is put at the end of a table stands at the stretch from its former end on. -/
theorem slice?_end (xs : Array Nat) (ys : List Nat) :
    (⟨xs.size, ys.length⟩ : Stretch).slice? (xs ++ ys.toArray) = some ys := by
  have hle : xs.size + ys.length ≤ (xs ++ ys.toArray).size := by simp
  rw [slice?, if_pos hle, Array.toList_append, ← Array.length_toList, List.drop_left,
    List.take_length]

/-- A stretch that a table reaches is the same in the table with more at its end. -/
theorem slice?_append (h : r.slice? xs = some children) (ys : List Nat) :
    r.slice? (xs ++ ys.toArray) = some children := by
  rw [slice?] at h ⊢
  split at h
  · rename_i hle
    have hlength : r.start + r.length ≤ xs.toList.length := hle
    have hle' : r.start + r.length ≤ (xs ++ ys.toArray).size := by
      rw [Array.size_append]
      omega
    rw [if_pos hle', Array.toList_append, List.drop_append_of_le_length (by omega),
      List.take_append_of_le_length (by rw [List.length_drop]; omega)]
    exact h
  · cases h

theorem length_slice? (h : r.slice? xs = some children) : children.length = r.length := by
  rw [slice?] at h
  split at h
  · rename_i hle
    rw [← Option.some.inj h, List.length_take, List.length_drop, Array.length_toList]
    omega
  · cases h

end Stretch

/-- A node without its children, which stand at a stretch of another table. -/
structure StoredNode (α : Type) where
  kind : NodeKind α
  span : Span
  stretch : Stretch
deriving DecidableEq, Repr

/-- The nodes of a tree, and the lists of their children one behind the other. -/
structure Storage (α : Type) where
  nodes : Array (StoredNode α)
  children : Array Nat
deriving DecidableEq, Repr

/-- What a builder adds: a leaf, or a node over others. -/
inductive BuildStep (α : Type) where
  | leaf (kind : NodeKind α) (span : Span)
  | node (kind : NodeKind α) (children : List Nat)

/-- Why a builder cannot add a node. -/
inductive BuildError where
  | missing (size index : Nat)
  | full
deriving DecidableEq, Repr

namespace BuildStep

/-- What the node to add stands for. -/
def kind : BuildStep α → NodeKind α
  | .leaf kind _ | .node kind _ => kind

/-- The children of the node to add. -/
def children : BuildStep α → List Nat
  | .leaf _ _ => []
  | .node _ children => children

/-- Each node to add is over nodes that are added in front of it. -/
def BottomUp (steps : List (BuildStep α)) : Prop :=
  ∀ (id : Nat) (step : BuildStep α), steps[id]? = some step → ∀ child ∈ step.children, child < id

theorem BottomUp.of_concat {steps : List (BuildStep α)} {step : BuildStep α}
    (h : BottomUp (steps ++ [step])) :
    BottomUp steps ∧ ∀ child ∈ step.children, child < steps.length := by
  refine ⟨fun id step' hstep => h id step' ?_, h _ step List.getElem?_concat_length⟩
  rw [List.getElem?_append_left (List.getElem?_eq_some_iff.1 hstep).1, hstep]

end BuildStep

namespace Arena

/-- Adds a node together with the list of its children. -/
def build? (a : Arena α) : BuildStep α → Option (Arena α)
  | .leaf kind span => some (a.leaf kind span)
  | .node kind children => a.node? kind children

/-- Adds nodes one after the other. -/
def buildAll? (a : Arena α) (steps : List (BuildStep α)) : Option (Arena α) := steps.foldlM build? a

theorem buildAll?_append (a : Arena α) (xs ys : List (BuildStep α)) :
    a.buildAll? (xs ++ ys) = (a.buildAll? xs).bind (·.buildAll? ys) :=
  List.foldlM_append

end Arena

namespace Storage

/-- One more than the largest index, which is a word. -/
def limit : Nat := UInt32.size

/-- A number as an index. -/
def word (n : Nat) : Except BuildError Nat := if n < limit then .ok n else .error .full

/-- The storage of a builder that has added nothing. -/
def empty : Storage α := ⟨#[], #[]⟩

/-- The span of a node. -/
def span (s : Storage α) (id : Nat) : Except BuildError Span :=
  match s.nodes[id]? with
  | some n => .ok n.span
  | none => .error (.missing s.nodes.size id)

/-- The span from the first of some nodes to the last one. -/
def cover (s : Storage α) : List Nat → Except BuildError Span
  | [] => .ok .none
  | first :: rest => do return (← s.span first).merge (← s.span (rest.getLast?.getD first))

/-- Adds a node whose children are stored, and gives its index. -/
def alloc (s : Storage α) (n : StoredNode α) : Except BuildError (Nat × Storage α) := do
  return (← word s.nodes.size, { s with nodes := s.nodes.push n })

/-- Adds a node and the list of its children. -/
def build (s : Storage α) : BuildStep α → Except BuildError (Nat × Storage α)
  | .leaf kind span => s.alloc ⟨kind, span, .empty⟩
  | .node kind children => do
    let span ← s.cover children
    let start ← word s.children.size
    let length ← word children.length
    { s with children := s.children ++ children.toArray }.alloc ⟨kind, span, ⟨start, length⟩⟩

/-- Adds nodes one after the other. -/
def buildAll (s : Storage α) (steps : List (BuildStep α)) : Except BuildError (Storage α) :=
  steps.foldlM (fun s step => (s.build step).map Prod.snd) s

/-- A node with its children, if both are in the tables. -/
def node? (s : Storage α) (id : Nat) : Option (Node α) := do
  let n ← s.nodes[id]?
  return ⟨n.kind, n.span, ← n.stretch.slice? s.children⟩

/-- Builders that add nodes over what they added before, with what they are asked for, the indices
that they give in return, and what they have stored in the end. -/
inductive Made : List (BuildStep α) → List Nat → Storage α → Prop where
  | nothing : Made [] [] empty
  | step {steps : List (BuildStep α)} {ids : List Nat} {s s' : Storage α} {step : BuildStep α}
      {id : Nat} (h : Made steps ids s) (hchildren : ∀ child ∈ step.children, child ∈ ids)
      (hstep : s.build step = .ok (id, s')) : Made (steps ++ [step]) (ids ++ [id]) s'

/-! ### One step -/

/-- There are indices left for a node, and for the list of its children if it is no leaf. -/
def HasRoom (s : Storage α) : BuildStep α → Prop
  | .leaf _ _ => s.nodes.size < limit
  | .node _ children => s.children.size < limit ∧ children.length < limit ∧ s.nodes.size < limit

instance (s : Storage α) (step : BuildStep α) : Decidable (s.HasRoom step) :=
  match step with
  | .leaf _ _ => inferInstanceAs (Decidable (_ < _))
  | .node _ _ => inferInstanceAs (Decidable (_ ∧ _))

/-- The span of a node to add. -/
def spanOf (s : Storage α) : BuildStep α → Except BuildError Span
  | .leaf _ span => .ok span
  | .node _ children => s.cover children

/-- Where the children of a node to add will stand. -/
def stretchOf (s : Storage α) : BuildStep α → Stretch
  | .leaf _ _ => .empty
  | .node _ children => ⟨s.children.size, children.length⟩

/-- The storage with one more node at the end, and the list of its children at the end. -/
def put (s : Storage α) (step : BuildStep α) (span : Span) : Storage α :=
  ⟨s.nodes.push ⟨step.kind, span, s.stretchOf step⟩, s.children ++ step.children.toArray⟩

variable {s s' : Storage α} {a : Arena α} {step : BuildStep α} {steps : List (BuildStep α)}
  {ids : List Nat} {id : Nat} {span : Span}

theorem word_bind {β : Type} (n : Nat) (f : Nat → Except BuildError β) :
    (word n >>= f) = if n < limit then f n else .error .full := by
  rw [word]
  split <;> rfl

/-- All that building does: if the span is known and there are indices left, one node is put at the
end with its children. -/
theorem build_eq (s : Storage α) (step : BuildStep α) : s.build step = s.spanOf step >>= fun span =>
    if s.HasRoom step then .ok (s.nodes.size, s.put step span) else .error .full := by
  cases step with
  | leaf kind span =>
    show word s.nodes.size >>= _ = if s.nodes.size < limit then _ else _
    rw [word_bind]
    simp only [put, BuildStep.children, Array.append_empty]
    rfl
  | node kind children =>
    show s.cover children >>= _ = s.cover children >>= _
    refine bind_congr fun span => ?_
    -- the first number that is no word ends the call, and all of them are checked before the push
    rw [word_bind, word_bind, alloc, word_bind]
    by_cases hstart : s.children.size < limit <;> by_cases hlength : children.length < limit <;>
      by_cases hnodes : s.nodes.size < limit <;>
        simp [HasRoom, hstart, hlength, hnodes, put, pure, Except.pure, BuildStep.kind,
          BuildStep.children, stretchOf]

theorem build_eq_ok_iff : s.build step = .ok (id, s') ↔
    ∃ span, s.spanOf step = .ok span ∧ s.HasRoom step ∧ id = s.nodes.size ∧
      s' = s.put step span := by
  rw [build_eq]
  cases s.spanOf step with
  | error e => simp [bind, Except.bind]
  | ok span =>
    by_cases hroom : s.HasRoom step <;> simp [bind, Except.bind, hroom, eq_comm]

/-- Nodes that are stored have a span from the first to the last of them. -/
theorem exists_spanOf (h : ∀ child ∈ step.children, child < s.nodes.size) :
    ∃ span, s.spanOf step = .ok span := by
  have hspan : ∀ child ∈ step.children, ∃ span, s.span child = .ok span := by
    intro child hchild
    rw [Storage.span, Array.getElem?_eq_getElem (h child hchild)]
    exact ⟨_, rfl⟩
  match step, hspan with
  | .leaf _ span, _ => exact ⟨span, rfl⟩
  | .node _ [], _ => exact ⟨.none, rfl⟩
  | .node _ (first :: rest), hspan =>
    obtain ⟨x, hx⟩ := hspan first List.mem_cons_self
    obtain ⟨y, hy⟩ := hspan _ (List.mem_of_getLast? List.getLast?_cons)
    refine ⟨x.merge y, ?_⟩
    rw [spanOf, cover, hx, hy]
    rfl

/-- Over nodes that are stored, a node can be built as long as there are indices left, and a lack of
them is all that can stop a builder. -/
theorem build_of_stored (h : ∀ child ∈ step.children, child < s.nodes.size) :
    if s.HasRoom step then ∃ s', s.build step = .ok (s.nodes.size, s')
    else s.build step = .error .full := by
  obtain ⟨span, hspan⟩ := exists_spanOf h
  split
  · rename_i hroom
    exact ⟨s.put step span, build_eq_ok_iff.2 ⟨span, hspan, hroom, rfl, rfl⟩⟩
  · rename_i hroom
    rw [build_eq, hspan]
    exact if_neg hroom

/-! ### Steps in a row -/

@[simp] theorem buildAll_nil (s : Storage α) : s.buildAll [] = .ok s := rfl

theorem buildAll_append (s : Storage α) (xs ys : List (BuildStep α)) :
    s.buildAll (xs ++ ys) = s.buildAll xs >>= (·.buildAll ys) :=
  List.foldlM_append

theorem buildAll_singleton (s : Storage α) (step : BuildStep α) :
    s.buildAll [step] = (s.build step).map Prod.snd := by
  rw [buildAll, List.foldlM_cons]
  cases s.build step <;> rfl

/-- Steps in a row end with the last one. -/
theorem buildAll_concat_eq_ok_iff : s.buildAll (steps ++ [step]) = .ok s' ↔
    ∃ t id, s.buildAll steps = .ok t ∧ t.build step = .ok (id, s') := by
  rw [buildAll_append]
  cases s.buildAll steps with
  | error e => simp [bind, Except.bind]
  | ok t =>
    show t.buildAll [step] = .ok s' ↔ _
    rw [buildAll_singleton]
    cases hstep : t.build step with
    | error e => simp [Except.map, hstep]
    | ok added => simp [Except.map, hstep, Prod.ext_iff]

theorem size_buildAll (h : s.buildAll steps = .ok s') :
    s'.nodes.size = s.nodes.size + steps.length := by
  induction steps using List.reverseRecOn generalizing s' with
  | nil =>
    obtain rfl := Except.ok.inj h
    rfl
  | append_singleton steps step ih =>
    obtain ⟨t, id, hfront, hstep⟩ := buildAll_concat_eq_ok_iff.1 h
    obtain ⟨span, -, -, -, rfl⟩ := build_eq_ok_iff.1 hstep
    rw [put, Array.size_push, ih hfront, List.length_append, List.length_singleton, Nat.add_assoc]

/-! ### Looking up -/

theorem stretchOf_slice? (s : Storage α) (step : BuildStep α) :
    (s.stretchOf step).slice? (s.children ++ step.children.toArray) = some step.children := by
  cases step with
  | leaf kind span => exact Stretch.slice?_empty _
  | node kind children => exact Stretch.slice?_end s.children children

theorem positions_stretchOf (s : Storage α) (step : BuildStep α) :
    (s.stretchOf step).positions = List.range' s.children.size step.children.length := by
  cases step <;> rfl

/-- The node that was put in is found with the children that it was put in with. -/
theorem node?_put_size (s : Storage α) (step : BuildStep α) (span : Span) :
    (s.put step span).node? s.nodes.size = some ⟨step.kind, span, step.children⟩ := by
  rw [node?, put, Array.getElem?_push_size]
  simp only [Option.bind_eq_bind, Option.bind_some, stretchOf_slice?]
  rfl

theorem node?_eq_some_iff {n : Node α} : s.node? id = some n ↔ ∃ r,
    s.nodes[id]? = some ⟨n.kind, n.span, r⟩ ∧ r.slice? s.children = some n.children := by
  constructor
  · intro h
    obtain ⟨⟨kind, span, r⟩, hm, h⟩ := Option.bind_eq_some_iff.1 h
    obtain ⟨children, hchildren, h⟩ := Option.bind_eq_some_iff.1 h
    obtain rfl := Option.some.inj h
    exact ⟨r, hm, hchildren⟩
  · rintro ⟨r, hm, hchildren⟩
    simp [node?, hm, hchildren]

/-- A node that is found is found again, with the same children, whatever is put in behind it. -/
theorem node?_put {n : Node α} (h : s.node? id = some n) (step : BuildStep α) (span : Span) :
    (s.put step span).node? id = some n := by
  obtain ⟨r, hm, hchildren⟩ := node?_eq_some_iff.1 h
  have hlt : id < s.nodes.size := (Array.getElem?_eq_some_iff.1 hm).1
  refine node?_eq_some_iff.2 ⟨r, ?_, Stretch.slice?_append hchildren _⟩
  rw [put, Array.getElem?_push_lt hlt, ← Array.getElem?_eq_getElem hlt, hm]

theorem node?_eq_none (h : s.nodes.size ≤ id) : s.node? id = none := by
  rw [node?, Array.getElem?_eq_none h]
  rfl

/-! ### Storages and tables -/

/-- The storage has the nodes of the table, with the same children. -/
structure Holds (s : Storage α) (a : Arena α) : Prop where
  size : s.nodes.size = a.size
  node? : ∀ id, s.node? id = a[id]?

theorem holds_empty : (empty : Storage α).Holds #[] := ⟨rfl, fun _ => rfl⟩

theorem Holds.put (h : s.Holds a) (step : BuildStep α) (span : Span) :
    (s.put step span).Holds (a.push ⟨step.kind, span, step.children⟩) := by
  have hsize : (s.put step span).nodes.size = s.nodes.size + 1 := Array.size_push _
  refine ⟨by rw [hsize, h.size, Array.size_push], fun id => ?_⟩
  rcases Nat.lt_trichotomy id s.nodes.size with hlt | rfl | hgt
  · have hlt' : id < a.size := h.size ▸ hlt
    have hnode : s.node? id = some a[id] := by rw [h.node?, Array.getElem?_eq_getElem hlt']
    rw [node?_put hnode, Array.getElem?_push_lt hlt']
  · rw [node?_put_size, h.size, Array.getElem?_push_size]
  · rw [node?_eq_none (by omega), Array.getElem?_eq_none]
    rw [Array.size_push, ← h.size]
    exact hgt

theorem Holds.span_eq (h : s.Holds a) (hspan : s.span id = .ok span) :
    ∃ n, a[id]? = some n ∧ n.span = span := by
  rw [Storage.span] at hspan
  cases hm : s.nodes[id]? with
  | none => rw [hm] at hspan; cases hspan
  | some m =>
    have hlt : id < a.size := h.size ▸ (Array.getElem?_eq_some_iff.1 hm).1
    have hnode := h.node? id
    rw [Array.getElem?_eq_getElem hlt] at hnode
    obtain ⟨r, hm', -⟩ := node?_eq_some_iff.1 hnode
    rw [hm'] at hspan
    exact ⟨a[id], Array.getElem?_eq_getElem hlt, Except.ok.inj hspan⟩

theorem Holds.build? (h : s.Holds a) (hspan : s.spanOf step = .ok span) :
    a.build? step = some (a.push ⟨step.kind, span, step.children⟩) := by
  match step, hspan with
  | .leaf kind span, rfl => rfl
  | .node kind [], rfl => rfl
  | .node kind (first :: rest), hspan =>
    rw [spanOf, cover] at hspan
    cases hx : s.span first with
    | error e => rw [hx] at hspan; cases hspan
    | ok x =>
      cases hy : s.span (rest.getLast?.getD first) with
      | error e => rw [hx, hy] at hspan; cases hspan
      | ok y =>
        rw [hx, hy] at hspan
        obtain rfl : x.merge y = span := Except.ok.inj hspan
        obtain ⟨n, hn, rfl⟩ := h.span_eq hx
        obtain ⟨m, hm, rfl⟩ := h.span_eq hy
        rw [Arena.build?, Arena.node?, Arena.cover?, hn, hm]
        rfl

/-- What a builder does, it does to the table as well. -/
theorem Holds.build (h : s.Holds a) (hbuild : s.build step = .ok (id, s')) :
    ∃ a', a.build? step = some a' ∧ s'.Holds a' := by
  obtain ⟨span, hspan, -, -, rfl⟩ := build_eq_ok_iff.1 hbuild
  exact ⟨_, h.build? hspan, h.put step span⟩

/-! ### Histories -/

namespace Made

/-- Indices are given in the order of the calls. -/
theorem ids_eq (h : Made steps ids s) :
    s.nodes.size = steps.length ∧ ids = List.range steps.length := by
  induction h with
  | nothing => exact ⟨rfl, rfl⟩
  | step _ _ hstep ih =>
    obtain ⟨span, -, -, rfl, rfl⟩ := build_eq_ok_iff.1 hstep
    obtain ⟨hsize, rfl⟩ := ih
    rw [put, Array.size_push, hsize, List.length_append, List.length_singleton, List.range_succ]
    exact ⟨rfl, rfl⟩

theorem children_lt (h : Made steps ids s) (hchildren : ∀ child ∈ step.children, child ∈ ids) :
    ∀ child ∈ step.children, child < s.nodes.size := by
  obtain ⟨hsize, rfl⟩ := h.ids_eq
  intro child hchild
  rw [hsize]
  exact List.mem_range.1 (hchildren child hchild)

/-- The storage of a builder holds a table that was built from the leaves up. -/
theorem holds (h : Made steps ids s) :
    ∃ a, Arena.buildAll? #[] steps = some a ∧ a.Built ∧ s.Holds a := by
  induction h with
  | nothing => exact ⟨#[], rfl, .empty, holds_empty⟩
  | @step steps ids s s' step id h hchildren hstep ih =>
    obtain ⟨a, ha, hbuilt, hholds⟩ := ih
    obtain ⟨a', ha', hholds'⟩ := hholds.build hstep
    refine ⟨a', ?_, ?_, hholds'⟩
    · rw [Arena.buildAll?_append, ha]
      simpa [Arena.buildAll?] using ha'
    · have hlt := h.children_lt hchildren
      rw [hholds.size] at hlt
      match step, ha', hlt with
      | .leaf kind span, rfl, _ => exact hbuilt.leaf kind span
      | .node kind children, ha', hlt => exact hbuilt.node hlt ha'

/-- Each node is found with the children that it was built over, which stand in front of it. -/
theorem node?_eq (h : Made steps ids s) (hstep : steps[id]? = some step) :
    (∃ span, s.node? id = some ⟨step.kind, span, step.children⟩) ∧
      ∀ child ∈ step.children, child < id := by
  induction h with
  | nothing => cases hstep
  | @step steps ids s s' last new h hchildren hlast ih =>
    obtain ⟨span, -, -, rfl, rfl⟩ := build_eq_ok_iff.1 hlast
    rcases Nat.lt_trichotomy id steps.length with hlt | heq | hgt
    · rw [List.getElem?_append_left hlt] at hstep
      obtain ⟨⟨span', hnode⟩, hbelow⟩ := ih hstep
      exact ⟨⟨span', node?_put hnode last span⟩, hbelow⟩
    · rw [heq, List.getElem?_concat_length] at hstep
      obtain rfl := Option.some.inj hstep
      rw [heq, ← h.ids_eq.1]
      exact ⟨⟨span, node?_put_size s last span⟩, h.children_lt hchildren⟩
    · rw [List.getElem?_eq_none (by simp; omega)] at hstep
      cases hstep

/-- The lists of children stand one behind the other, in the order of their nodes, and nothing else
stands in their table. -/
theorem positions_eq (h : Made steps ids s) :
    s.nodes.toList.flatMap (·.stretch.positions) = List.range s.children.size ∧
      s.children.toList = steps.flatMap BuildStep.children := by
  induction h with
  | nothing => exact ⟨rfl, rfl⟩
  | @step steps ids s s' step id h hchildren hstep ih =>
    obtain ⟨span, -, -, rfl, rfl⟩ := build_eq_ok_iff.1 hstep
    refine ⟨?_, ?_⟩
    · have happend := @List.range'_append_1 0 s.children.size step.children.length
      rw [Nat.zero_add] at happend
      simpa [put, ih.1, positions_stretchOf, List.range_eq_range'] using happend
    · simp [put, ih.2]

/-- A builder can go on with a node over what it was given, as long as there are indices left. -/
theorem exists_next (h : Made steps ids s) (hchildren : ∀ child ∈ step.children, child ∈ ids)
    (hroom : s.HasRoom step) : ∃ id s', Made (steps ++ [step]) (ids ++ [id]) s' := by
  have hbuild := build_of_stored (h.children_lt hchildren)
  rw [if_pos hroom] at hbuild
  obtain ⟨s', hs'⟩ := hbuild
  exact ⟨s.nodes.size, s', .step h hchildren hs'⟩

/-- There is room for one more node if its index and all positions in lists are words. -/
theorem hasRoom (h : Made steps ids s) (hnodes : steps.length < limit)
    (hlists : (steps.flatMap BuildStep.children).length + step.children.length < limit) :
    s.HasRoom step := by
  rw [← h.ids_eq.1] at hnodes
  rw [← h.positions_eq.2, Array.length_toList] at hlists
  cases step with
  | leaf kind span => exact hnodes
  | node kind children =>
    simp only [BuildStep.children] at hlists
    exact ⟨by omega, by omega, hnodes⟩

/-- A builder that works bottom up may go on over any nodes that stand below the next one. -/
theorem mem_of_lt (h : Made steps ids s) (hbelow : ∀ child ∈ step.children, child < steps.length) :
    ∀ child ∈ step.children, child ∈ ids := by
  rw [h.ids_eq.2]
  exact fun child hchild => List.mem_range.2 (hbelow child hchild)

/-- A builder that works bottom up gets to the end if there are enough indices for the nodes and for
the positions in the lists of their children. -/
theorem exists_of_bottomUp (steps : List (BuildStep α)) (hbelow : BuildStep.BottomUp steps)
    (hnodes : steps.length ≤ limit) (hlists : (steps.flatMap BuildStep.children).length < limit) :
    ∃ ids s, Made steps ids s := by
  induction steps using List.reverseRecOn with
  | nil => exact ⟨[], empty, .nothing⟩
  | append_singleton steps step ih =>
    rw [List.length_append, List.length_singleton] at hnodes
    rw [List.flatMap_append, List.length_append, List.flatMap_singleton] at hlists
    obtain ⟨hfront, hlast⟩ := hbelow.of_concat
    obtain ⟨ids, s, h⟩ := ih hfront (by omega) (by omega)
    obtain ⟨id, s', h'⟩ := h.exists_next (h.mem_of_lt hlast) (h.hasRoom hnodes hlists)
    exact ⟨ids ++ [id], s', h'⟩

/-- What a builder has stored is told by what it was asked for. -/
theorem buildAll_eq (h : Made steps ids s) : empty.buildAll steps = .ok s := by
  induction h with
  | nothing => rfl
  | @step steps ids s s' step id _ _ hstep ih =>
    exact buildAll_concat_eq_ok_iff.2 ⟨s, id, ih, hstep⟩

theorem unique {ids' : List Nat} (h : Made steps ids s) (h' : Made steps ids' s') : s = s' :=
  Except.ok.inj (h.buildAll_eq.symm.trans h'.buildAll_eq)

/-- Steps in a row that are taken bottom up, and from nothing on, are those of a builder. -/
theorem exists_of_buildAll (hbelow : BuildStep.BottomUp steps)
    (h : empty.buildAll steps = .ok s) : ∃ ids, Made steps ids s := by
  induction steps using List.reverseRecOn generalizing s with
  | nil =>
    obtain rfl := Except.ok.inj h
    exact ⟨[], .nothing⟩
  | append_singleton steps step ih =>
    obtain ⟨hfront, hlast⟩ := hbelow.of_concat
    obtain ⟨t, id, ht, hstep⟩ := buildAll_concat_eq_ok_iff.1 h
    obtain ⟨ids, hmade⟩ := ih hfront ht
    exact ⟨ids ++ [id], .step hmade (hmade.mem_of_lt hlast) hstep⟩

/-- A builder that got to the end did not run out of indices. -/
theorem length_le (h : Made steps ids s) : steps.length ≤ limit := by
  cases h with
  | nothing => exact Nat.zero_le limit
  | @step steps ids s s' step id h hchildren hstep =>
    obtain ⟨span, -, hroom, -, -⟩ := build_eq_ok_iff.1 hstep
    have hnodes : s.nodes.size < limit := by
      cases step with
      | leaf kind span => exact hroom
      | node kind children => exact hroom.2.2
    rw [h.ids_eq.1] at hnodes
    rw [List.length_append, List.length_singleton]
    exact hnodes

end Made

end Storage

end Reckoner
