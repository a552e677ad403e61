import Reckoner.Program
import Reckoner.Proofs.Bindings

/-!
What running lines does to the bindings. A line that is evaluated either assigns, and the run goes
on, or it is the last one; so the bindings after a run are those before it with the assignments that
were made on the way, in their order. -/

namespace Reckoner.Bindings

variable {V W E : Type}

/-! ### Several assignments -/

/-- The bindings after some assignments. -/
def insertAll (b : Bindings V) (es : List (Name × V)) : Bindings V :=
  es.foldl (fun b e => b.insert e.1 e.2) b

/-- Names that are not assigned to keep their values. -/
theorem get?_insertAll_of_not_mem {x : Name} : ∀ {es : List (Name × V)} (b : Bindings V),
    x ∉ es.map Prod.fst → (b.insertAll es).get? x = b.get? x
  | [], _, _ => rfl
  | e :: es, b, h => by
    rw [List.map_cons, List.mem_cons, not_or] at h
    obtain ⟨hne, hes⟩ := h
    exact (get?_insertAll_of_not_mem (b.insert e.1 e.2) hes).trans (get?_insert_of_ne hne b e.2)

/-- A name that is assigned to has a value that comes from the assignments alone. -/
theorem get?_insertAll_of_mem {x : Name} : ∀ {es : List (Name × V)} (b b' : Bindings V),
    x ∈ es.map Prod.fst → (b.insertAll es).get? x = (b'.insertAll es).get? x
  | e :: es, b, b', h => by
    by_cases hes : x ∈ es.map Prod.fst
    · exact get?_insertAll_of_mem (b.insert e.1 e.2) (b'.insert e.1 e.2) hes
    · obtain rfl : x = e.1 := (List.mem_cons.1 h).resolve_right hes
      have hself := fun b : Bindings V =>
        (get?_insertAll_of_not_mem (b.insert e.1 e.2) hes).trans (get?_insert_self b e.1 e.2)
      exact (hself b).trans (hself b').symm

/-- A value that a name has after some assignments is an old one or was assigned. -/
theorem mem_of_get?_insertAll {x : Name} {v : V} : ∀ {es : List (Name × V)} (b : Bindings V),
    (b.insertAll es).get? x = some v → b.get? x = some v ∨ (x, v) ∈ es
  | [], _, h => .inl h
  | e :: es, b, h => by
    rcases mem_of_get?_insertAll (b.insert e.1 e.2) h with h | h
    · by_cases hx : x = e.1
      · obtain rfl := hx
        rw [get?_insert_self] at h
        obtain rfl := Option.some.inj h
        exact .inr List.mem_cons_self
      · rw [get?_insert_of_ne hx] at h
        exact .inl h
    · exact .inr (List.mem_cons_of_mem e h)

theorem insertEntry_map (f : V → W) (n : Name) (v : V) (es : List (Name × V)) :
    insertEntry n (f v) (es.map fun e => (e.1, f e.2))
      = (insertEntry n v es).map fun e => (e.1, f e.2) := by
  induction es with
  | nil => rfl
  | cons e es ih =>
    rw [List.map_cons, insertEntry, insertEntry, ih]
    split
    · rfl
    · split <;> rfl

/-- Other values are assigned where the values are changed before the assignment. -/
theorem map_insert (f : V → W) (b : Bindings V) (n : Name) (v : V) :
    (b.insert n v).map f = (b.map f).insert n (f v) := by
  simp only [map, insert, insertEntry_map]

theorem map_insertAll (f : V → W) : ∀ (es : List (Name × V)) (b : Bindings V),
    (b.insertAll es).map f = (b.map f).insertAll (es.map fun e => (e.1, f e.2))
  | [], _ => rfl
  | e :: es, b => by
    refine (map_insertAll f es (b.insert e.1 e.2)).trans ?_
    rw [map_insert]
    rfl

/-! ### Runs -/

variable [Value V E] (names : NameTable)

/-- The assignments that a run makes, in order: those of the lines in front of the first that
returns or fails. -/
def assignments (b : Bindings V) : List (Tree Name) → List (Name × V)
  | [] => []
  | tree :: trees =>
    match (tree.evaluate (b.scope names)).1 with
    | .ok (.assigned name v) => (name, v) :: (b.insert name v).assignments trees
    | .ok (.returned _) | .error _ => []

/-- A run goes on behind a line that assigns, and ends at any other line. -/
theorem runFrom_cons (index : Nat) (tree : Tree Name) (trees : List (Tree Name)) (b : Bindings V) :
    runFrom names index (tree :: trees) b
      = match (tree.evaluate (b.scope names)).1 with
        | .ok (.assigned name v) => runFrom names (index + 1) trees (b.insert name v)
        | .ok (.returned v) => (.ok (some v), b)
        | .error e => (.error ⟨index, e⟩, b) := by
  rw [runFrom, evaluate]
  rcases tree.evaluate (b.scope names) with ⟨_ | _ | _, _⟩ <;> rfl

/-- Lines behind others run where those went through, from the bindings that they left. -/
theorem runFrom_append (index : Nat) (ps qs : List (Tree Name)) (b : Bindings V) :
    runFrom names index (ps ++ qs) b
      = match runFrom names index ps b with
        | (.ok none, b) => runFrom names (index + ps.length) qs b
        | stopped => stopped := by
  induction ps generalizing index b with
  | nil => rfl
  | cons p ps ih =>
    rw [List.cons_append, runFrom_cons, runFrom_cons, List.length_cons]
    cases (p.evaluate (b.scope names)).1 with
    | error e => rfl
    | ok outcome =>
      cases outcome with
      | returned v => rfl
      | assigned name v =>
        dsimp only
        rw [ih (index + 1) (b.insert name v), Nat.add_right_comm, Nat.add_assoc]

/-- The bindings after a run are those that its assignments lead to. -/
theorem snd_runFrom (index : Nat) (trees : List (Tree Name)) (b : Bindings V) :
    (runFrom names index trees b).2 = b.insertAll (b.assignments names trees) := by
  induction trees generalizing index b with
  | nil => rfl
  | cons tree trees ih =>
    rw [runFrom_cons, assignments]
    cases (tree.evaluate (b.scope names)).1 with
    | error e => rfl
    | ok outcome =>
      cases outcome with
      | returned v => rfl
      | assigned name v => exact ih (index + 1) (b.insert name v)

end Reckoner.Bindings
