import Reckoner.Proofs.Program.Assignments
import Reckoner.Proofs.Program.Usage

/-!
Which bindings a program depends on. A line looks up no name but those that it reads, and an
assignment gives its target a value that comes from the line alone; so runs do the same from all
bindings in which the live names have the same values, and corresponding things from bindings in
which they have values that correspond. -/

namespace Reckoner

variable {V W E F : Type}

/-! ### Runs -/

/-- Failures of lines at one position that correspond. -/
structure LineError.Corresponds (Q : E → F → Prop) (e : LineError E) (f : LineError F) : Prop where
  index : e.index = f.index
  error : EvalError.Corresponds Q e.error f.error

/-- Runs from bindings in which the live names have values that correspond come to corresponding
ends, and assign values that correspond to the same names. -/
theorem Correspondence.runFrom [Value V E] [Value W F] (c : Correspondence V W) (names : NameTable)
    (index : Nat) (trees : List (Tree Name)) {b : Bindings V} {b' : Bindings W}
    (h : ∀ x, LiveIn x (trees.map Tree.usage) → Option.Rel c.values (b.get? x) (b'.get? x)) :
    Corresponds (LineError.Corresponds c.faults) (Option.Rel c.values)
        (Bindings.runFrom names index trees b).1 (Bindings.runFrom names index trees b').1 ∧
      List.Forall₂ (fun e e' => e.1 = e'.1 ∧ c.values e.2 e'.2)
        (b.assignments names trees) (b'.assignments names trees) := by
  induction trees generalizing index b b' with
  | nil => exact ⟨.ok .none, .nil⟩
  | cons tree trees ih =>
    have hscopes : c.Scopes tree.reads (b.scope names) (b'.scope names) :=
      ⟨rfl, fun x hx => h x (liveIn_cons.2 (.inl hx))⟩
    have hline := c.evaluate_tree tree hscopes
    rw [Bindings.runFrom_cons, Bindings.runFrom_cons, Bindings.assignments, Bindings.assignments]
    generalize hresult : (tree.evaluate (b.scope names)).1 = r at hline ⊢
    generalize (tree.evaluate (b'.scope names)).1 = r' at hline ⊢
    cases hline with
    | error he => exact ⟨.error ⟨rfl, he⟩, .nil⟩
    | ok ho =>
      cases ho with
      | returned hv => exact ⟨.ok (.some hv), .nil⟩
      | @assigned name v w hv =>
        -- what is live behind the line is its target or was live in front of it
        have hrest : ∀ x, LiveIn x (trees.map Tree.usage) →
            Option.Rel c.values ((b.insert name v).get? x) ((b'.insert name w).get? x) := by
          intro x hx
          by_cases hname : x = name
          · rw [hname, b.get?_insert_self, b'.get?_insert_self]
            exact .some hv
          · rw [Bindings.get?_insert_of_ne hname, Bindings.get?_insert_of_ne hname]
            refine h x (liveIn_cons.2 (.inr ⟨?_, hx⟩))
            rw [Tree.usage, View.target?_of_assigned hresult]
            exact fun heq => hname (Option.some.inj heq).symm
        obtain ⟨hrun, hassigned⟩ := ih (index + 1) hrest
        exact ⟨hrun, .cons ⟨rfl, hv⟩ hassigned⟩

section Runs

variable [Value V E] (names : NameTable)

/-- What is assigned in a run are the targets of its first lines. -/
theorem targets_assignments (trees : List (Tree Name)) (b : Bindings V) :
    (b.assignments names trees).map (some ·.1) <+: trees.map fun tree => tree.usage.target? := by
  induction trees generalizing b with
  | nil => exact List.nil_prefix
  | cons tree trees ih =>
    rw [Bindings.assignments]
    cases hresult : (tree.evaluate (b.scope names)).1 with
    | error e => exact List.nil_prefix
    | ok outcome =>
      cases outcome with
      | returned v => exact List.nil_prefix
      | assigned name v =>
        have htarget : tree.usage.target? = some name := View.target?_of_assigned hresult
        rw [List.map_cons, List.map_cons, htarget]
        exact List.cons_prefix_cons.2 ⟨rfl, ih (b.insert name v)⟩

end Runs

/-! ### Bindings of one type -/

theorem LineError.Corresponds.eq {e f : LineError E} (h : Corresponds Eq e f) : e = f := by
  obtain ⟨i, e⟩ := e
  obtain ⟨j, f⟩ := f
  rw [LineError.mk.injEq]
  exact ⟨h.index, h.error.eq⟩

section Agree

variable [Value V E] (names : NameTable) {b b' : Bindings V}

/-- A line does the same from bindings that agree on the names that it reads. -/
theorem evaluate_eq_of_reads {tree : Tree Name} (h : ∀ x ∈ tree.reads, b.get? x = b'.get? x) :
    (b.evaluate names tree).1 = (b'.evaluate names tree).1 := by
  have hscopes : (Correspondence.refl V).Scopes tree.reads (b.scope names) (b'.scope names) :=
    ⟨rfl, fun x hx => rel_eq_iff.2 (h x hx)⟩
  exact (Correspondence.evaluate_tree _ tree hscopes).eq (·.eq) (·.eq)

/-- Lines come to the same end and make the same assignments from bindings that agree on the live
names. -/
theorem runFrom_eq_of_live (index : Nat) {trees : List (Tree Name)}
    (h : ∀ x, LiveIn x (trees.map Tree.usage) → b.get? x = b'.get? x) :
    (Bindings.runFrom names index trees b).1 = (Bindings.runFrom names index trees b').1 ∧
      b.assignments names trees = b'.assignments names trees := by
  obtain ⟨hrun, hassigned⟩ := (Correspondence.refl V).runFrom names index trees
    fun x hx => rel_eq_iff.2 (h x hx)
  refine ⟨hrun.eq (·.eq) rel_eq_iff.1, ?_⟩
  rw [← List.forall₂_eq_eq_eq]
  exact hassigned.imp fun e e' he => Prod.ext he.1 he.2

end Agree

/-- A program depends only on the names that it reads before it assigns to them. From bindings that
agree on the live names it comes to the same end and makes the same assignments, which are to the
targets of its first lines; then the bindings agree on the live names and on those assigned to, and
any other name has kept its binding on either side. In particular no line depends on a name that it
does not read, be it the one that it assigns to. -/
theorem run_eq_of_live [Value V E] {lines : List (List (Token Name))} {trees : List (Tree Name)}
    (hlines : List.Forall₂ Tree.Parsed lines trees) (names : NameTable) {b b' : Bindings V}
    (h : ∀ x, LiveIn x (lines.map Usage.ofLine) → b.get? x = b'.get? x) :
    let bound := (b.assignments names trees).map Prod.fst
    (b.run names trees).1 = (b'.run names trees).1 ∧
    b.assignments names trees = b'.assignments names trees ∧
    bound.map some <+: lines.map (Usage.target? ∘ .ofLine) ∧
    (∀ x, LiveIn x (lines.map Usage.ofLine) ∨ x ∈ bound →
      (b.run names trees).2.get? x = (b'.run names trees).2.get? x) ∧
    (∀ x, x ∉ bound → (b.run names trees).2.get? x = b.get? x ∧
      (b'.run names trees).2.get? x = b'.get? x) ∧
    ∀ ts tree, tree.Parsed ts → ∀ x, x ∉ (Usage.ofLine ts).reads → ∀ c c' : Bindings V,
      (∀ y, y ≠ x → c.get? y = c'.get? y) →
      (c.evaluate names tree).1 = (c'.evaluate names tree).1 := by
  have hlive : ∀ x, LiveIn x (trees.map Tree.usage) → b.get? x = b'.get? x := by
    rw [Tree.map_usage hlines]
    exact h
  obtain ⟨hresult, hassigned⟩ := runFrom_eq_of_live names 0 hlive
  have hfinal : ∀ b : Bindings V, (b.run names trees).2 = b.insertAll (b.assignments names trees) :=
    Bindings.snd_runFrom names 0 trees
  dsimp only
  rw [hfinal, hfinal]
  refine ⟨hresult, hassigned, ?_, ?_, ?_, ?_⟩
  · have htargets := targets_assignments names trees b
    have husage : (trees.map fun tree => tree.usage.target?)
        = lines.map (Usage.target? ∘ .ofLine) := by
      rw [← List.map_map, ← Tree.map_usage hlines, List.map_map]
      rfl
    rw [List.map_map, ← husage]
    exact htargets
  · intro x hx
    rw [← hassigned]
    by_cases hbound : x ∈ (b.assignments names trees).map Prod.fst
    · exact Bindings.get?_insertAll_of_mem b b' hbound
    · rw [Bindings.get?_insertAll_of_not_mem b hbound, Bindings.get?_insertAll_of_not_mem b' hbound]
      exact h x (hx.resolve_right hbound)
  · intro x hx
    exact ⟨Bindings.get?_insertAll_of_not_mem b hx,
      Bindings.get?_insertAll_of_not_mem b' (hassigned ▸ hx)⟩
  · intro ts tree hparsed x hx c c' hagree
    refine evaluate_eq_of_reads names fun y hy => hagree y ?_
    rintro rfl
    exact hx (hparsed.usage_eq ▸ hy)

theorem run_eq_of_live_after_assignment :
    let tokens : List (TokenKind Name) → List (Token Name) := List.map fun k => ⟨k, .none⟩
    let names : NameTable := ⟨#["", "return", "x", "y", "2", "w", "z"]⟩
    -- `y = x * 2`, then `y = y + w`, then `return y`
    let lines := [tokens [.ident ⟨3⟩, .eq, .ident ⟨2⟩, .star, .number ⟨4⟩],
      tokens [.ident ⟨3⟩, .eq, .ident ⟨3⟩, .plus, .ident ⟨5⟩], tokens [.ret, .ident ⟨3⟩]]
    let shared : Bindings Integer := (Bindings.empty.insert ⟨2⟩ ⟨4, by decide, by decide⟩).insert ⟨5⟩
      ⟨1, by decide, by decide⟩
    let b := shared.insert ⟨3⟩ ⟨6, by decide, by decide⟩
    let b' := shared.insert ⟨6⟩ ⟨7, by decide, by decide⟩
    ∃ trees, List.Forall₂ Tree.Parsed lines trees ∧
      (b.run names trees).1 = .ok (some ⟨9, by decide, by decide⟩) ∧
      (b'.run names trees).1 = .ok (some ⟨9, by decide, by decide⟩) ∧
      (b'.run names trees).2.get? ⟨3⟩ = some ⟨9, by decide, by decide⟩ ∧
      (b.run names trees).2.get? ⟨6⟩ = none ∧
      (b'.run names trees).2.get? ⟨6⟩ = some ⟨7, by decide, by decide⟩ := by
  intro tokens names lines shared b b'
  have hlines : List.Forall₂ Tree.Parsed lines _ :=
    .cons ⟨⟨.eof, .none⟩, rfl⟩ (.cons ⟨⟨.eof, .none⟩, rfl⟩ (.cons ⟨⟨.eof, .none⟩, rfl⟩ .nil))
  have hlive : ∀ x, LiveIn x (lines.map Usage.ofLine) → b.get? x = b'.get? x := by
    intro x hx
    have husage : lines.map Usage.ofLine
        = [⟨[⟨2⟩], some ⟨3⟩⟩, ⟨[⟨3⟩, ⟨5⟩], some ⟨3⟩⟩, ⟨[⟨3⟩], none⟩] := rfl
    rw [husage, liveIn_cons, liveIn_cons, liveIn_cons] at hx
    have hname : x = ⟨2⟩ ∨ x = ⟨5⟩ := by
      have := not_liveIn_nil x
      grind
    rcases hname with rfl | rfl <;> rfl
  obtain ⟨hresult, -, -, hagree, hkeep, -⟩ := run_eq_of_live hlines names hlive
  refine ⟨_, hlines, ?run, hresult.symm.trans ?run, (hagree ⟨3⟩ (.inr ?bound)).symm.trans ?value,
    (hkeep ⟨6⟩ ?other).1, (hkeep ⟨6⟩ ?other).2⟩
  case run => cbv
  case value => cbv
  case bound =>
    have hmem : (⟨3⟩ : Name) ∈ [⟨3⟩, ⟨3⟩] := by decide
    cbv
    exact hmem
  case other =>
    have hmem : (⟨6⟩ : Name) ∉ [⟨3⟩, ⟨3⟩] := by decide
    cbv
    exact hmem

end Reckoner
