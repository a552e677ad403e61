import Reckoner.Proofs.Evaluation.Places
import Reckoner.Proofs.Program.Assignments
import Reckoner.Proofs.Tree.Built

/-!
What lines leave behind. A line that assigns changes the binding of its target and no other, and any
other line changes none; so a run leaves the bindings that it started from with the assignments of
the lines in front of the one that stopped it. Nothing is asked of the lines but that their trees
were built from the leaves up. -/

namespace Reckoner

variable {V E : Type} [Value V E] (names : NameTable)

/-! ### Lines -/

/-- A tree that was built from the leaves up is evaluated without leaving it. -/
theorem Tree.Built.ne_gap {tree : Tree Name} (h : tree.Built) (c : Bindings V) {e : EvalError E}
    (he : (c.evaluate names tree).1 = .error e) (id : Nat) : e ≠ .gap id := by
  have hat := tree.failsAt_evaluate ⟨trivial, fun _ _ => trivial⟩ h.placed_view (c.scope names) e he
  rintro rfl
  exact hat

namespace Bindings

variable {names} {c : Bindings V} {tree : Tree Name}

/-- The bindings after a line are told from its result. -/
theorem bindings_evaluate : (c.evaluate names tree).2.2 = c.after (c.evaluate names tree).1 := rfl

theorem evaluate_of_error {e : EvalError E} (h : (c.evaluate names tree).1 = .error e) :
    (c.evaluate names tree).2.2 = c := by
  rw [bindings_evaluate, h, after]

theorem evaluate_of_returned {v : V} (h : (c.evaluate names tree).1 = .ok (.returned v)) :
    (c.evaluate names tree).2.2 = c := by
  rw [bindings_evaluate, h, after]

theorem get?_evaluate_of_assigned {name : Name} {v : V}
    (h : (c.evaluate names tree).1 = .ok (.assigned name v)) (x : Name) :
    (c.evaluate names tree).2.2.get? x = if x = name then some v else c.get? x := by
  rw [bindings_evaluate, h, after]
  split
  · rename_i hx
    rw [hx, get?_insert_self]
  · rename_i hx
    exact get?_insert_of_ne hx c v

/-! ### Runs -/

variable (names)

/-- The line at a position does this, once the assignments in front of it have been made. -/
def DoesAt (b : Bindings V) (trees : List (Tree Name)) (es : List (Name × V)) (i : Nat)
    (result : Except (EvalError E) (Outcome Name V)) : Prop :=
  ∃ tree, trees[i]? = some tree ∧ ((b.insertAll (es.take i)).evaluate names tree).1 = result

variable {names}

/-- What a line does behind an assignment is what it does one place further on. -/
theorem DoesAt.succ {b : Bindings V} {trees : List (Tree Name)} {es : List (Name × V)} {i : Nat}
    {result : Except (EvalError E) (Outcome Name V)} {name : Name} {v : V}
    (h : DoesAt names (b.insert name v) trees es i result) (tree : Tree Name) :
    DoesAt names b (tree :: trees) ((name, v) :: es) (i + 1) result :=
  h

theorem doesAt_assignments : ∀ {trees : List (Tree Name)} {b : Bindings V} {i : Nat} {name : Name}
    {v : V}, (b.assignments names trees)[i]? = some (name, v) →
      DoesAt names b trees (b.assignments names trees) i (.ok (.assigned name v))
  | [], b, i, name, v, h => by simp [assignments] at h
  | tree :: trees, b, i, name, v, h => by
    rw [assignments] at h ⊢
    rcases hresult : (tree.evaluate (b.scope names)).1 with e | ⟨name', v'⟩ | v'
    · simp [hresult] at h
    · simp only [hresult] at h ⊢
      rcases i with _ | i
      · obtain ⟨rfl, rfl⟩ := Prod.mk.inj (Option.some.inj h)
        exact ⟨tree, rfl, hresult⟩
      · exact (doesAt_assignments h).succ tree
    · simp [hresult] at h

/-- How a run ends, told from the line that stands behind its assignments. -/
structure EndsAs (names : NameTable) (b : Bindings V) (trees : List (Tree Name)) (index : Nat)
    (es : List (Name × V)) (result : Except (LineError E) (Option V)) : Prop where
  error : ∀ e, result = .error e →
    e.index = index + es.length ∧ DoesAt names b trees es es.length (.error e.error)
  returned : ∀ v, result = .ok (some v) → DoesAt names b trees es es.length (.ok (.returned v))
  through : result = .ok none → es.length = trees.length

theorem endsAs_runFrom : ∀ (trees : List (Tree Name)) (b : Bindings V) (index : Nat),
    EndsAs names b trees index (b.assignments names trees) (runFrom names index trees b).1
  | [], b, index => by
    refine ⟨?_, ?_, fun _ => rfl⟩ <;> rintro _ ⟨⟩
  | tree :: trees, b, index => by
    rw [runFrom_cons, assignments]
    rcases hresult : (tree.evaluate (b.scope names)).1 with e | ⟨name, v⟩ | v
    · refine ⟨?_, ?_, ?_⟩
      · rintro _ ⟨⟩
        exact ⟨rfl, tree, rfl, hresult⟩
      · rintro _ ⟨⟩
      · rintro ⟨⟩
    · obtain ⟨herror, hreturned, hthrough⟩ := endsAs_runFrom trees (b.insert name v) (index + 1)
      refine ⟨?_, ?_, ?_⟩
      · intro e he
        obtain ⟨hindex, hdoes⟩ := herror e he
        refine ⟨?_, hdoes.succ tree⟩
        rw [hindex, List.length_cons]
        omega
      · intro w hw
        exact (hreturned w hw).succ tree
      · intro hnone
        rw [List.length_cons, List.length_cons, hthrough hnone]
    · refine ⟨?_, ?_, ?_⟩
      · rintro _ ⟨⟩
      · rintro _ ⟨⟩
        exact ⟨tree, rfl, hresult⟩
      · rintro ⟨⟩

end Bindings

/-- Only assignments change bindings, each of them that of one name, and only if its line does not
fail. So a run leaves the bindings that it started from with the assignments that it made, in order,
where each line in front of the one that stopped it has made one; the line that stopped it is the one
with the error, or the first that returned, and without either all lines have assigned. -/
theorem run_leaves_assignments {trees : List (Tree Name)} (hbuilt : ∀ tree ∈ trees, tree.Built)
    (b : Bindings V) :
    (∀ tree ∈ trees, ∀ c : Bindings V,
      (∀ e, (c.evaluate names tree).1 = .error e →
        (c.evaluate names tree).2.2 = c ∧ ∀ id, e ≠ .gap id) ∧
      (∀ v, (c.evaluate names tree).1 = .ok (.returned v) → (c.evaluate names tree).2.2 = c) ∧
      ∀ name v, (c.evaluate names tree).1 = .ok (.assigned name v) → ∀ x,
        (c.evaluate names tree).2.2.get? x = if x = name then some v else c.get? x) ∧
    let es := b.assignments names trees
    (b.run names trees).2 = b.insertAll es ∧
    (∀ i name v, es[i]? = some (name, v) → b.DoesAt names trees es i (.ok (.assigned name v))) ∧
    (∀ e, (b.run names trees).1 = .error e →
      e.index = es.length ∧ b.DoesAt names trees es es.length (.error e.error)) ∧
    (∀ v, (b.run names trees).1 = .ok (some v) →
      b.DoesAt names trees es es.length (.ok (.returned v))) ∧
    ((b.run names trees).1 = .ok none → es.length = trees.length) := by
  obtain ⟨herror, hreturned, hthrough⟩ : b.EndsAs names trees 0 _ _ :=
    Bindings.endsAs_runFrom trees b 0
  refine ⟨?_, Bindings.snd_runFrom names 0 trees b, fun i name v => Bindings.doesAt_assignments,
    ?_, hreturned, hthrough⟩
  · intro tree htree c
    refine ⟨?_, fun v => Bindings.evaluate_of_returned, fun name v =>
      Bindings.get?_evaluate_of_assigned⟩
    intro e he
    exact ⟨Bindings.evaluate_of_error he, (hbuilt tree htree).ne_gap names c he⟩
  · intro e he
    rw [← Nat.zero_add (b.assignments names trees).length]
    simpa using herror e he

theorem run_leaves_assignments_bare_equation :
    let names : NameTable := ⟨#["", "return", "x", "1"]⟩
    -- `x = 1` without the rules between the equation and its sides, then a line of one token
    let equation : Tree Name := ⟨#[⟨.variable ⟨2⟩, .none, []⟩, ⟨.token .eq, .none, []⟩,
      ⟨.scientific ⟨3⟩, .none, []⟩, ⟨.rule .equation, .none, [0, 1, 2]⟩], 3⟩
    let keyword : Tree Name := ⟨#[⟨.token .ret, .point 4, []⟩], 0⟩
    let b : Bindings Integer := .empty
    (∀ tree ∈ [equation, keyword], tree.Built) ∧
      (b.run names [equation, keyword]).1
        = .error ⟨1, .unsupported (.notAnEquation "token") (.point 4)⟩ ∧
      (b.run names [equation, keyword]).2 = b.insert ⟨2⟩ ⟨1, by decide, by decide⟩ ∧
      ((b.insert ⟨2⟩ ⟨1, by decide, by decide⟩).evaluate names keyword).1
        = .error (.unsupported (.notAnEquation "token") (.point 4)) := by
  intro names equation keyword b
  have hbuilt : ∀ tree ∈ [equation, keyword], tree.Built := by
    have hequation : equation.Built := by
      have hleaves : Arena.Built (equation.nodes.extract 0 3) :=
        .leaf (.leaf (.leaf .empty _ _) _ _) _ _
      have hnode : Arena.node? (equation.nodes.extract 0 3) (.rule .equation) [0, 1, 2]
          = some equation.nodes := by decide
      exact ⟨hleaves.node (by decide) hnode, by decide⟩
    have hkeyword : keyword.Built := ⟨.leaf .empty _ _, by decide⟩
    simp [hequation, hkeyword]
  have hrun : (b.run names [equation, keyword]).1
      = .error ⟨1, .unsupported (.notAnEquation "token") (.point 4)⟩ := by cbv
  obtain ⟨-, hafter, -, herror, -, -⟩ := run_leaves_assignments names hbuilt b
  obtain ⟨hindex, tree, htree, hdoes⟩ := herror _ hrun
  have hassigned : b.assignments names [equation, keyword] = [(⟨2⟩, ⟨1, by decide, by decide⟩)] := by
    cbv
  rw [hassigned] at hafter htree hdoes
  obtain rfl : keyword = tree := Option.some.inj htree
  exact ⟨hbuilt, hrun, hafter, hdoes⟩

end Reckoner
